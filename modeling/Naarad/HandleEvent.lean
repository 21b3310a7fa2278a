import Naarad.Counters
import Naarad.Producer
import Naarad.Queue.Refinement

/-!
# `handle_event` (`userspace/ebpf.c`)

One event from the perf buffer becomes a `Message`, is counted, is pushed to the display queue and
is sent to the POSIX queue.
-/

set_option autoImplicit false

namespace Naarad

open CharArray

/-- The event record of `userspace/event.h` and `file_monitor.bpf.c`. -/
structure data_t where
  pid : UInt32
  uid : UInt32
  gid : UInt32
  timestamp : UInt64
  comm : CharArray 16
  filename : CharArray 256
  new_filename : CharArray 256
  operation : CharArray 16
  deriving DecidableEq

def data_t.zero : data_t :=
  ⟨0, 0, 0, 0, .zero 16, .zero 256, .zero 256, .zero 16⟩

/-- The process state that `handle_event` works on; `mq` is what the POSIX queue has accepted. -/
structure Monitor where
  map : OperationMap
  counters : OperationCounters
  dq : Queue.Dequeue
  mq_open : Bool
  mq : List Message

/-- What the environment decides while one event is handled: the bytes that the local `msg` starts
from, the queue's choices, and the outcome of each `mq_send`. -/
structure Env where
  stack : Message
  push : List Queue.Choice
  send : Nat → SendOutcome

structure Handled where
  msg : Message
  pushed : Queue.Ret
  sent : SendResult

/-- The local `msg` before it is counted, pushed and sent; `stack` is its memory at the start. -/
def buildMessage (map : OperationMap) (stack : Message) (e : data_t) : Option Message := do
  let msg := { stack with gid := e.gid, uid := e.uid, category := FILE_ACTIVITY_MONITORING }
  let result ← get e.operation.str map
  let msg :=
    if result.found then
      if result.value = Operation.rename.code then
        { msg with new_file := msg.new_file.snprintf e.new_filename.str, op := result.value }
      else { msg with op := result.value }
    else { msg with op := OP_UNKNOWN }
  pure { msg with
    comm := msg.comm.snprintf e.comm.str
    file := msg.file.snprintf e.filename.str }

/-- `none` when the map is misused or the push does not return. -/
def handle_event (env : Env) (e : data_t) (mon : Monitor) : Option (Monitor × Handled) := do
  let msg ← buildMessage mon.map env.stack e
  let counters := increment_counter msg.op mon.counters
  let (dq, pushed) ← (Queue.Call.pushRear msg).run env.push mon.dq
  let sent := send_with_retry mon.mq_open env.send
  pure ({ mon with counters, dq, mq := mon.mq ++ sent.accepted msg }, ⟨msg, pushed, sent⟩)

def handleAll : List (Env × data_t) → Monitor → Option (Monitor × List Handled)
  | [], mon => some (mon, [])
  | (env, e) :: es, mon => do
    let (mon, h) ← handle_event env e mon
    let (mon, hs) ← handleAll es mon
    pure (mon, h :: hs)

/-- A monitor right after `initDequeue`, `init_operation_map` and `msg_q_init`. -/
structure Monitor.Initialised (mon : Monitor) : Prop where
  map_eq : init_operation_map .start = some mon.map
  counters_eq : mon.counters = .zero
  dq_eq : ∃ c, Queue.initDequeue c = some mon.dq
  mq_open_eq : mon.mq_open = true
  mq_eq : mon.mq = []

def Monitor.fresh (dummy : LinkedHeap.Addr) : Monitor where
  map := .builtin
  counters := .zero
  dq := ⟨LinkedHeap.store (fun _ => none) dummy ⟨Message.zero, none⟩, some dummy, some dummy, 0⟩
  mq_open := true
  mq := []

theorem Monitor.fresh_initialised (dummy : LinkedHeap.Addr) : (fresh dummy).Initialised :=
  ⟨init_operation_map_start, rfl, ⟨{ fresh := some dummy }, rfl⟩, rfl, rfl⟩

/-- A zeroed stack, and a push without evictions whose node is at `node` and whose exchanges
succeed. -/
def Env.quiet (node : LinkedHeap.Addr) (send : Nat → SendOutcome) : Env where
  stack := Message.zero
  push := { fresh := some node } :: List.replicate 8 { fresh := none }
  send := send

def mappedOp (operation : List UInt8) : UInt8 :=
  match Operation.ofKey operation with
  | some op => op.code
  | none => OP_UNKNOWN

theorem mappedOp_ne_stop (operation : List UInt8) : mappedOp operation ≠ STOP_MESSAG := by
  unfold mappedOp
  split
  · rename_i o _
    cases o <;> decide
  · decide

structure MessageOf (e : data_t) (msg : Message) : Prop where
  gid : msg.gid = e.gid
  uid : msg.uid = e.uid
  op : msg.op = mappedOp e.operation.str
  comm : msg.comm.str = e.comm.str.take 15
  file : msg.file.str = e.filename.str.take 127
  new_file : mappedOp e.operation.str = Operation.rename.code →
    msg.new_file.str = e.new_filename.str.take 127

theorem buildMessage_spec (stack : Message) (e : data_t) :
    ∃ msg, buildMessage .builtin stack e = some msg ∧ MessageOf e msg := by
  simp only [buildMessage, get_builtin]
  cases hop : Operation.ofKey e.operation.str with
  | none =>
    refine ⟨_, rfl, rfl, rfl, by simp [mappedOp, hop], ?_, ?_, ?_⟩
    · exact str_snprintf _ (by decide) e.comm.nul_notMem_str
    · exact str_snprintf _ (by decide) e.filename.nul_notMem_str
    · intro hrename
      simp only [mappedOp, hop] at hrename
      exact absurd hrename (by decide)
  | some op =>
    by_cases hren : op.code = Operation.rename.code
    · refine ⟨_, rfl, ?_, ?_, ?_, ?_, ?_, ?_⟩
      · simp [hren]
      · simp [hren]
      · simp [hren, mappedOp, hop]
      · exact str_snprintf _ (by decide) e.comm.nul_notMem_str
      · exact str_snprintf _ (by decide) e.filename.nul_notMem_str
      · intro _
        simp only [hren, if_true]
        exact str_snprintf _ (by decide) e.new_filename.nul_notMem_str
    · refine ⟨_, rfl, ?_, ?_, ?_, ?_, ?_, ?_⟩
      · simp [hren]
      · simp [hren]
      · simp [hren, mappedOp, hop]
      · exact str_snprintf _ (by decide) e.comm.nul_notMem_str
      · exact str_snprintf _ (by decide) e.filename.nul_notMem_str
      · intro hrename
        simp only [mappedOp, hop] at hrename
        exact absurd hrename hren

structure HandledBy (env : Env) (e : data_t) (mon mon' : Monitor) (h : Handled) : Prop where
  message : MessageOf e h.msg
  map_eq : mon'.map = mon.map
  counters_eq : mon'.counters = increment_counter h.msg.op mon.counters
  push_eq : (Queue.Call.pushRear h.msg).run env.push mon.dq = some (mon'.dq, h.pushed)
  sent_eq : h.sent = send_with_retry mon.mq_open env.send
  mq_open_eq : mon'.mq_open = mon.mq_open
  mq_eq : mon'.mq = mon.mq ++ h.sent.accepted h.msg

theorem handle_event_eq {env : Env} {e : data_t} {mon : Monitor} {msg : Message}
    {dq : Queue.Dequeue} {pushed : Queue.Ret} (hmsg : buildMessage mon.map env.stack e = some msg)
    (hpush : (Queue.Call.pushRear msg).run env.push mon.dq = some (dq, pushed)) :
    handle_event env e mon =
      some ({ mon with
          counters := increment_counter msg.op mon.counters
          dq := dq
          mq := mon.mq ++ (send_with_retry mon.mq_open env.send).accepted msg },
        ⟨msg, pushed, send_with_retry mon.mq_open env.send⟩) := by
  unfold handle_event
  simp only [hmsg, Option.bind_eq_bind, Option.bind_some, hpush]
  rfl

theorem handle_event_spec {env : Env} {e : data_t} {mon mon' : Monitor} {h : Handled}
    (hmap : mon.map = .builtin) (hrun : handle_event env e mon = some (mon', h)) :
    HandledBy env e mon mon' h := by
  obtain ⟨msg, hmsg, hspec⟩ := buildMessage_spec env.stack e
  simp only [handle_event, hmap, hmsg, Option.bind_eq_bind, Option.bind_some] at hrun
  obtain ⟨⟨dq, pushed⟩, hpush, hrest⟩ := Option.bind_eq_some_iff.mp hrun
  obtain ⟨rfl, rfl⟩ := Prod.mk.inj (Option.some.inj hrest)
  exact ⟨hspec, hmap.symm, rfl, hpush, rfl, rfl, rfl⟩

/-- The pushes that a handled sequence makes, with the choices made for each. -/
def pushes (es : List (Env × data_t)) (hs : List Handled) : List (Queue.Call × List Queue.Choice) :=
  List.zipWith (fun e h => (.pushRear h.msg, e.1.push)) es hs

structure HandledAll (es : List (Env × data_t)) (mon mon' : Monitor) (hs : List Handled) : Prop where
  messages : List.Forall₂ (fun e h => MessageOf e.2 h.msg) es hs
  map_eq : mon'.map = mon.map
  counters_eq : mon'.counters =
    (hs.map fun h => h.msg.op).foldl (fun c o => increment_counter o c) mon.counters
  pushes_eq : Queue.runCalls (pushes es hs) mon.dq = some (mon'.dq, hs.map Handled.pushed)
  sent_eq : List.Forall₂ (fun e h => h.sent = send_with_retry mon.mq_open e.1.send) es hs
  mq_open_eq : mon'.mq_open = mon.mq_open
  mq_eq : mon'.mq = mon.mq ++ hs.flatMap fun h => h.sent.accepted h.msg

theorem handleAll_spec {es : List (Env × data_t)} {mon mon' : Monitor} {hs : List Handled}
    (hmap : mon.map = .builtin) (hrun : handleAll es mon = some (mon', hs)) :
    HandledAll es mon mon' hs := by
  induction es generalizing mon hs with
  | nil =>
    obtain ⟨rfl, rfl⟩ := Prod.mk.inj (Option.some.inj hrun)
    exact ⟨.nil, rfl, rfl, rfl, .nil, rfl, by simp⟩
  | cons ee es ih =>
    obtain ⟨env, e⟩ := ee
    obtain ⟨⟨mon₁, h⟩, hone, hrest⟩ := Option.bind_eq_some_iff.mp hrun
    obtain ⟨⟨mon₂, hs'⟩, hall, hrest⟩ := Option.bind_eq_some_iff.mp hrest
    obtain ⟨rfl, rfl⟩ := Prod.mk.inj (Option.some.inj hrest)
    have h₁ := handle_event_spec hmap hone
    have h₂ := ih (h₁.map_eq.trans hmap) hall
    constructor
    · exact .cons h₁.message h₂.messages
    · exact h₂.map_eq.trans h₁.map_eq
    · rw [h₂.counters_eq, h₁.counters_eq]
      rfl
    · simp only [pushes, List.zipWith_cons_cons, Queue.runCalls, h₁.push_eq, Option.bind_some]
      rw [show List.zipWith _ es hs' = pushes es hs' from rfl, h₂.pushes_eq]
      rfl
    · exact .cons h₁.sent_eq (h₁.mq_open_eq ▸ h₂.sent_eq)
    · exact h₂.mq_open_eq.trans h₁.mq_open_eq
    · rw [h₂.mq_eq, h₁.mq_eq, List.flatMap_cons, List.append_assoc]

theorem Monitor.Initialised.map_builtin {mon : Monitor} (h : mon.Initialised) :
    mon.map = .builtin := by
  have hmap := h.map_eq
  rw [init_operation_map_start] at hmap
  exact (Option.some.inj hmap).symm

theorem HandledAll.counter {es : List (Env × data_t)} {mon mon' : Monitor} {hs : List Handled}
    (h : HandledAll es mon mon' hs) (hzero : mon.counters = .zero) (op : Operation) :
    read_counter mon'.counters op.code =
      UInt64.ofNat ((hs.map fun h => h.msg.op).count op.code) := by
  rw [h.counters_eq, read_counter_foldl, hzero, read_counter_zero, UInt64.zero_add]

end Naarad
