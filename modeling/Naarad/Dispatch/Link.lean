import Naarad.Counters
import Naarad.Message

/-!
# One consumer and its two pipes (`message_queue/consumer.c`)

A link is everything between the dispatcher and one consumer: the pipe that carries messages to it,
the pipe that carries acknowledgements back, the dispatcher's ends of both, and the consumer
process. A pipe is a FIFO of whole messages, its reads and writes do not fail; a read of an empty
pipe whose write ends are closed returns 0, a write to a pipe whose read ends are closed kills the
writer. The histories `sent`, `got` and `processed` are recorded for the statements only.
-/

set_option autoImplicit false

namespace Naarad.Dispatch

/-- Where `consumer` is; `ack` carries `must_stop`, `killed` is the death by `SIGPIPE`. -/
inductive ConsumerPc where
  | read
  | process (msg : Message)
  | ack (must_stop : Bool)
  | closeRead
  | closeWrite
  | ended
  | killed
  deriving DecidableEq

structure Link where
  data : List Message
  acks : List Message
  write_open : Bool
  read_open : Bool
  pc : ConsumerPc
  counters : OperationCounters
  ack_msg : Message
  sent : List Message
  got : List Message
  processed : List Message

/-- Right after the fork; the local `ack_msg` is not initialised. -/
def Link.start (ack_msg : Message) : Link :=
  ⟨[], [], true, true, .read, .zero, ack_msg, [], [], []⟩

namespace ConsumerPc

def reads : ConsumerPc → Bool
  | .closeWrite | .ended | .killed => false
  | _ => true

def writes : ConsumerPc → Bool
  | .ended | .killed => false
  | _ => true

def gone : ConsumerPc → Bool
  | .ended | .killed => true
  | _ => false

def inHand : ConsumerPc → List Message
  | .process msg => [msg]
  | _ => []

/-- The acknowledgements still due for what was read. -/
def owes : ConsumerPc → Nat
  | .process _ | .ack _ => 1
  | _ => 0

theorem writes_of_reads {pc : ConsumerPc} (h : pc.reads = true) : pc.writes = true := by
  cases pc with
  | ended => cases h
  | killed => cases h
  | _ => rfl

end ConsumerPc

namespace Link

/-- One step of `consumer`; `none` is a blocked read or write, or the end. `A` is the capacity of
the pipe of acknowledgements. -/
def consumer (A : Nat) (l : Link) : Option Link :=
  match l.pc with
  | .read =>
    match l.data with
    | msg :: data => some { l with data, got := l.got ++ [msg], pc := .process msg }
    | [] => if l.write_open then none else some { l with pc := .closeRead }
  | .process msg =>
    let l := { l with processed := l.processed ++ [msg] }
    if msg.op = STOP_MESSAG then some { l with pc := .ack true }
    else some { l with counters := increment_counter msg.op l.counters, pc := .ack false }
  | .ack must_stop =>
    if l.read_open then
      if l.acks.length < A then
        some { l with
          ack_msg := { l.ack_msg with op := ACK_MESSAGE }
          acks := l.acks ++ [{ l.ack_msg with op := ACK_MESSAGE }]
          pc := if must_stop then .closeRead else .read }
      else none
    else some { l with pc := .killed }
  | .closeRead => some { l with pc := .closeWrite }
  | .closeWrite => some { l with pc := .ended }
  | .ended => none
  | .killed => none

/-- The dispatcher's `write` of a message; `C` is the capacity of the pipe. -/
def send (C : Nat) (msg : Message) (l : Link) : Option Link :=
  if l.data.length < C then some { l with data := l.data ++ [msg], sent := l.sent ++ [msg] }
  else none

/-- What `select` waits for: an acknowledgement, or the end of file. -/
def readable (l : Link) : Bool := !l.acks.isEmpty || !l.pc.writes

def takeAck (l : Link) : Option Link :=
  match l.acks with
  | _ :: acks => some { l with acks }
  | [] => if l.pc.writes then none else some l

theorem consumer_of_gone {A : Nat} {l : Link} (h : l.pc.writes = false) : l.consumer A = none := by
  unfold consumer
  cases hpc : l.pc with
  | ended => rfl
  | killed => rfl
  | _ =>
    rw [hpc] at h
    cases h

inductive Consumes (A : Nat) (l : Link) : Link → Prop where
  | read {msg data} : l.pc = .read → l.data = msg :: data →
    Consumes A l { l with data, got := l.got ++ [msg], pc := .process msg }
  | endOfFile : l.pc = .read → l.data = [] → l.write_open = false →
    Consumes A l { l with pc := .closeRead }
  | stop {msg} : l.pc = .process msg → msg.op = STOP_MESSAG →
    Consumes A l { l with processed := l.processed ++ [msg], pc := .ack true }
  | count {msg} : l.pc = .process msg → msg.op ≠ STOP_MESSAG →
    Consumes A l { l with
      processed := l.processed ++ [msg]
      counters := increment_counter msg.op l.counters
      pc := .ack false }
  | ack {must_stop} : l.pc = .ack must_stop → l.read_open = true → l.acks.length < A →
    Consumes A l { l with
      ack_msg := { l.ack_msg with op := ACK_MESSAGE }
      acks := l.acks ++ [{ l.ack_msg with op := ACK_MESSAGE }]
      pc := if must_stop then .closeRead else .read }
  | killed {must_stop} : l.pc = .ack must_stop → l.read_open = false →
    Consumes A l { l with pc := .killed }
  | closeRead : l.pc = .closeRead → Consumes A l { l with pc := .closeWrite }
  | closeWrite : l.pc = .closeWrite → Consumes A l { l with pc := .ended }

theorem consumes_of_consumer {A : Nat} {l l' : Link} (h : l.consumer A = some l') :
    Consumes A l l' := by
  unfold consumer at h
  split at h
  case h_1 hpc =>
    split at h
    case h_1 hdata =>
      cases h
      exact .read hpc hdata
    case h_2 hdata =>
      split at h
      · cases h
      · rename_i hopen
        cases h
        exact .endOfFile hpc hdata (Bool.eq_false_iff.mpr hopen)
  case h_2 msg hpc =>
    dsimp only at h
    split at h
    · rename_i hstop
      cases h
      exact .stop hpc hstop
    · rename_i hstop
      cases h
      exact .count hpc hstop
  case h_3 must_stop hpc =>
    split at h
    · rename_i hopen
      split at h
      · rename_i hroom
        cases h
        exact .ack hpc hopen hroom
      · cases h
    · rename_i hopen
      cases h
      exact .killed hpc (Bool.eq_false_iff.mpr hopen)
  case h_4 hpc =>
    cases h
    exact .closeRead hpc
  case h_5 hpc =>
    cases h
    exact .closeWrite hpc
  case h_6 => cases h
  case h_7 => cases h

theorem send_eq_some {C : Nat} {msg : Message} {l l' : Link} :
    l.send C msg = some l' ↔ l.data.length < C ∧
      l' = { l with data := l.data ++ [msg], sent := l.sent ++ [msg] } := by
  unfold send
  split <;> rename_i hroom
  · simp only [hroom, true_and, Option.some.injEq, eq_comm]
  · simp [hroom]

theorem takeAck_eq_some {l l' : Link} (h : l.takeAck = some l') :
    (∃ a acks, l.acks = a :: acks ∧ l' = { l with acks }) ∨
      (l.acks = [] ∧ l.pc.writes = false ∧ l' = l) := by
  unfold takeAck at h
  split at h
  · rename_i a acks hacks
    cases h
    exact Or.inl ⟨a, acks, hacks, rfl⟩
  · rename_i hacks
    split at h
    · cases h
    · rename_i hwrites
      cases h
      exact Or.inr ⟨hacks, Bool.eq_false_iff.mpr hwrites, rfl⟩

theorem consumer_sent {A : Nat} {l l' : Link} (h : l.consumer A = some l') : l'.sent = l.sent := by
  cases consumes_of_consumer h <;> rfl

theorem takeAck_sent {l l' : Link} (h : l.takeAck = some l') : l'.sent = l.sent := by
  rcases takeAck_eq_some h with ⟨_, _, _, rfl⟩ | ⟨_, _, rfl⟩
  · rfl
  · rfl

theorem send_sent {C : Nat} {msg : Message} {l l' : Link} (h : l.send C msg = some l') :
    l'.sent = l.sent ++ [msg] := by
  obtain ⟨_, rfl⟩ := send_eq_some.mp h
  rfl

/-- Nothing is lost or reordered between the dispatcher and the counters. -/
structure Flow (l : Link) : Prop where
  sent_eq : l.got ++ l.data = l.sent
  got_eq : l.got = l.processed ++ l.pc.inHand
  counters_eq : l.counters = ((l.processed.filter fun m => m.op ≠ STOP_MESSAG).map Message.op).foldl
    (fun c o => increment_counter o c) .zero
  acks_op : ∀ a ∈ l.acks, a.op = ACK_MESSAGE

theorem Flow.start (ack_msg : Message) : (Link.start ack_msg).Flow :=
  ⟨rfl, rfl, rfl, fun _ ha => by cases ha⟩

theorem Flow.consumer {A : Nat} {l l' : Link} (h : l.Flow) (hstep : l.consumer A = some l') :
    l'.Flow := by
  obtain ⟨hsent, hgot, hcount, hacks⟩ := h
  cases consumes_of_consumer hstep with
  | read hpc hdata =>
    refine ⟨?_, ?_, hcount, hacks⟩
    · rw [← hsent, hdata]
      simp
    · rw [hgot, hpc]
      simp [ConsumerPc.inHand]
  | endOfFile hpc =>
    rw [hpc] at hgot
    exact ⟨hsent, hgot, hcount, hacks⟩
  | stop hpc hstop =>
    refine ⟨hsent, ?_, ?_, hacks⟩
    · rw [hgot, hpc]
      simp [ConsumerPc.inHand]
    · simp [List.filter_append, hstop, hcount]
  | count hpc hstop =>
    refine ⟨hsent, ?_, ?_, hacks⟩
    · rw [hgot, hpc]
      simp [ConsumerPc.inHand]
    · simp [List.filter_append, hstop, hcount]
  | @ack must_stop hpc =>
    refine ⟨hsent, ?_, hcount, ?_⟩
    · rw [hgot, hpc]
      cases must_stop <;> rfl
    · exact List.forall_mem_append.mpr ⟨hacks, List.forall_mem_singleton.mpr rfl⟩
  | killed hpc =>
    rw [hpc] at hgot
    exact ⟨hsent, hgot, hcount, hacks⟩
  | closeRead hpc =>
    rw [hpc] at hgot
    exact ⟨hsent, hgot, hcount, hacks⟩
  | closeWrite hpc =>
    rw [hpc] at hgot
    exact ⟨hsent, hgot, hcount, hacks⟩

theorem Flow.send {C : Nat} {msg : Message} {l l' : Link} (h : l.Flow)
    (hsend : l.send C msg = some l') : l'.Flow := by
  obtain ⟨_, rfl⟩ := send_eq_some.mp hsend
  refine ⟨?_, h.got_eq, h.counters_eq, h.acks_op⟩
  rw [← List.append_assoc, h.sent_eq]

theorem Flow.takeAck {l l' : Link} (h : l.Flow) (htake : l.takeAck = some l') : l'.Flow := by
  rcases takeAck_eq_some htake with ⟨a, acks, hacks, rfl⟩ | ⟨_, _, rfl⟩
  · refine ⟨h.sent_eq, h.got_eq, h.counters_eq, ?_⟩
    intro b hb
    exact h.acks_op b (hacks ▸ List.mem_cons_of_mem _ hb)
  · exact h

theorem Flow.ends {l : Link} (h : l.Flow) (w r : Bool) :
    Flow { l with write_open := w, read_open := r } :=
  ⟨h.sent_eq, h.got_eq, h.counters_eq, h.acks_op⟩

theorem Flow.counter {l : Link} (h : l.Flow) (op : Operation) :
    read_counter l.counters op.code =
      UInt64.ofNat (l.processed.countP fun m => m.op = op.code) := by
  have hstop : op.code ≠ STOP_MESSAG := by cases op <;> decide
  rw [h.counters_eq, read_counter_foldl, read_counter_zero, UInt64.zero_add]
  congr 1
  rw [List.count_eq_countP, List.countP_map, List.countP_filter]
  apply List.countP_congr
  intro m _
  simp only [Function.comp_apply, beq_iff_eq, decide_eq_true_eq, Bool.and_eq_true, ne_eq,
    decide_not, Bool.not_eq_true', decide_eq_false_iff_not]
  constructor
  · exact fun hm => hm.1
  · exact fun hm => ⟨hm, hm ▸ hstop⟩

/-- The messages sent whose acknowledgement the dispatcher has not read. -/
def owed (l : Link) : Nat := l.data.length + l.pc.owes + l.acks.length

/-- Only the death of the consumer takes an acknowledgement back. -/
theorem owed_consumer {A : Nat} {l l' : Link} (hstep : l.consumer A = some l') :
    l'.owed ≤ l.owed ∧ (l.read_open = true → l'.owed = l.owed) := by
  suffices h : l'.owed = l.owed ∨ (l.read_open = false ∧ l'.owed ≤ l.owed) by
    rcases h with heq | ⟨hclosed, hle⟩
    · exact ⟨Nat.le_of_eq heq, fun _ => heq⟩
    · refine ⟨hle, fun hopen => ?_⟩
      rw [hopen] at hclosed
      cases hclosed
  cases consumes_of_consumer hstep with
  | read hpc hdata => exact Or.inl (by simp only [owed, hpc, hdata, ConsumerPc.owes, List.length_cons])
  | endOfFile hpc => exact Or.inl (by simp only [owed, hpc, ConsumerPc.owes])
  | stop hpc => exact Or.inl (by simp only [owed, hpc, ConsumerPc.owes])
  | count hpc => exact Or.inl (by simp only [owed, hpc, ConsumerPc.owes])
  | @ack must_stop hpc =>
    apply Or.inl
    have howes : (if must_stop then ConsumerPc.closeRead else .read).owes = 0 := by
      cases must_stop <;> rfl
    simp only [owed, howes, List.length_append, List.length_singleton]
    rw [hpc, ConsumerPc.owes]
    omega
  | killed hpc hclosed =>
    apply Or.inr
    simp only [owed, hpc, ConsumerPc.owes]
    exact ⟨hclosed, by omega⟩
  | closeRead hpc => exact Or.inl (by simp only [owed, hpc, ConsumerPc.owes])
  | closeWrite hpc => exact Or.inl (by simp only [owed, hpc, ConsumerPc.owes])

theorem data_consumer {A : Nat} {l l' : Link} (hstep : l.consumer A = some l') :
    l'.data.length ≤ l.data.length := by
  cases consumes_of_consumer hstep with
  | read _ hdata =>
    rw [hdata]
    exact Nat.le_succ _
  | _ => exact Nat.le_refl _

theorem owed_send {C : Nat} {msg : Message} {l l' : Link} (hsend : l.send C msg = some l') :
    l'.owed = l.owed + 1 := by
  obtain ⟨_, rfl⟩ := send_eq_some.mp hsend
  simp only [owed, List.length_append, List.length_singleton]
  omega

end Link

end Naarad.Dispatch
