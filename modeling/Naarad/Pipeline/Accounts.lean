import Naarad.Dispatch.Accounts
import Naarad.Dispatch.Delivery
import Naarad.Pipeline.Refinement
import Naarad.Sinks
import Mathlib.Algebra.BigOperators.ModEq

/-!
# What the monitor has counted and what the consumers have counted

The monitor counts an event before it sends the message, a consumer counts it after the message has
gone through the queue and a pipe. In every state the two differ by the messages that are under way
between them, by those that the queue did not take, and by those of an earlier run.
-/

set_option autoImplicit false

namespace Naarad

open Dispatch LabelledRun Tally RoundRobin

theorem buildMessage_category {map : OperationMap} {stack msg : Message} {e : data_t}
    (h : buildMessage map stack e = some msg) : msg.category = FILE_ACTIVITY_MONITORING := by
  obtain ⟨result, _, hmsg⟩ := Option.bind_eq_some_iff.mp h
  cases Option.some.inj hmsg
  dsimp only
  split
  · split <;> rfl
  · rfl

namespace Pipeline

/-- The messages handled that `send_with_retry` could not put into the queue. -/
def refused (s : Pipeline) : List Message :=
  (s.handled.filter fun h => h.sent.ret ≠ 0).map Handled.msg

/-- The messages that are being sent, or lie in the queue, in the hand of the dispatcher, in a pipe
or in the hand of a consumer. -/
def underway (p : Message → Bool) (s : Pipeline) : Nat :=
  (s.sending.toList.map Sending.msg).countP p + s.sys.mq.countP p +
    s.sys.dispatcher.hand.countP p + total (fun l => l.pending.countP p) s.sys.links

/-- What the monitor and the dispatcher keep of the queue between them. -/
structure Conserved (mq : List Message) (s : Pipeline) : Prop where
  fifo : mq ++ s.monitor.mq = s.sys.received ++ s.sys.mq
  category : ∀ p, s.sending = some p → p.msg.category = FILE_ACTIVITY_MONITORING
  categories : ∀ m ∈ s.monitor.mq, m.category = FILE_ACTIVITY_MONITORING
  staged : s.sys.Staged
  accounted : s.sys.Accounted
  delivering : s.sys.Delivering

variable {mq : List Message} {mon₀ : Monitor} {s t : Pipeline} {M C A : Nat}

theorem Conserved.start (mon : Monitor) (hmon : mon.mq = []) (hmq : ∀ m ∈ mq, Sys.KnownGroup m)
    (stop_msg : Message) (ack_msg : Cid → Message) :
    (Pipeline.start mon mq stop_msg ack_msg).Conserved mq where
  fifo := by
    rw [show (Pipeline.start mon mq stop_msg ack_msg).monitor = mon from rfl, hmon]
    exact List.append_nil _
  category := fun _ h => by cases h
  categories := by
    intro m hm
    rw [show (Pipeline.start mon mq stop_msg ack_msg).monitor = mon from rfl, hmon] at hm
    cases hm
  staged := .start mq stop_msg ack_msg
  accounted := .start hmq stop_msg ack_msg
  delivering := ⟨Sys.start_inTurn mq stop_msg ack_msg, fun _ => .start _⟩

theorem Conserved.inner {lab : Dispatch.Label} {u : Sys} (h : s.Conserved mq)
    (hlab : ∀ msg, lab ≠ .enqueue msg) (hstep : Sys.step C A lab s.sys = some u) :
    Conserved mq { s with sys := u } where
  fifo := h.fifo.trans (Sys.received_append_mq hlab hstep).symm
  category := h.category
  categories := h.categories
  staged := h.staged.step hstep
  accounted := h.accounted.step h.staged (fun msg heq => absurd heq (hlab msg)) hstep
  delivering := ⟨h.delivering.1.step hstep, Sys.flow_step h.delivering.2 hstep⟩

theorem Conserved.accept {p : Sending} (h : s.Conserved mq)
    (hcategory : p.msg.category = FILE_ACTIVITY_MONITORING) : (s.accept p).Conserved mq where
  fifo := by
    unfold Pipeline.accept
    rw [← List.append_assoc, h.fifo, List.append_assoc]
  category := fun _ hnone => by cases hnone
  categories := List.forall_mem_append.mpr ⟨h.categories, List.forall_mem_singleton.mpr hcategory⟩
  staged := ⟨h.staged.stage, h.staged.sends⟩
  accounted := by
    have hstep : Sys.step 0 0 (.enqueue p.msg) s.sys = some _ := rfl
    refine h.accounted.step h.staged ?_ hstep
    intro msg heq
    cases heq
    rw [Sys.KnownGroup, hcategory]
    decide
  delivering := h.delivering

theorem Conserved.of_same {u : Pipeline} (h : s.Conserved mq) (hmonitor : u.monitor.mq = s.monitor.mq)
    (hsys : u.sys = s.sys)
    (hcategory : ∀ p, u.sending = some p → p.msg.category = FILE_ACTIVITY_MONITORING) :
    u.Conserved mq := by
  constructor
  · rw [hmonitor, hsys]
    exact h.fifo
  · exact hcategory
  · rw [hmonitor]
    exact h.categories
  · exact hsys ▸ h.staged
  · exact hsys ▸ h.accounted
  · exact hsys ▸ h.delivering

theorem Conserved.step {l : Label} (h : s.Conserved mq) (hstep : Pipeline.step M C A l s = some t) :
    t.Conserved mq := by
  cases moves_of_step hstep with
  | event _ _ hmsg =>
    refine h.of_same rfl rfl ?_
    intro p hp
    cases hp
    exact buildMessage_category hmsg
  | refuse => exact h.of_same rfl rfl fun _ hnone => by cases hnone
  | @sent p hsending => exact h.accept (p := p.tried .sent) (h.category p hsending)
  | @again p hsending =>
    refine h.of_same rfl rfl ?_
    intro q hq
    cases hq
    exact h.category p hsending
  | giveUp => exact h.of_same rfl rfl fun _ hnone => by cases hnone
  | error => exact h.of_same rfl rfl fun _ hnone => by cases hnone
  | dispatcher hsys => exact h.inner (fun _ heq => by cases heq) hsys
  | consumer hsys => exact h.inner (fun _ heq => by cases heq) hsys

/-- What the calls of `handle_event` have made of `mon₀`, and the one under way. -/
structure Calls (mon₀ : Monitor) (s : Pipeline) (es : List (Env × data_t)) (mon : Monitor) : Prop where
  handled : HandledAll es mon₀ mon s.handled
  mq : s.monitor.mq = mon.mq
  sending : s.sending = none ∧ es.map Prod.snd = s.events ∧ s.monitor.counters = mon.counters ∨
    ∃ p e, s.sending = some p ∧ es.map Prod.snd ++ [e] = s.events ∧ MessageOf e p.msg ∧
      s.monitor.counters = increment_counter p.msg.op mon.counters

theorem Sequential.calls (h : s.Sequential mon₀) (hmap : mon₀.map = .builtin) :
    ∃ es mon, Calls mon₀ s es mon := by
  cases h with
  | idle es hidle hes hall =>
    exact ⟨es, s.monitor, handleAll_spec hmap hall, rfl, Or.inl ⟨hidle, hes, rfl⟩⟩
  | @sending es mon stack _ e p _ hsome hes hall hbuild _ hmon =>
    have hspec := handleAll_spec hmap hall
    refine ⟨es, mon, hspec, by rw [hmon], Or.inr ⟨p, e, hsome, hes, ?_, by rw [hmon]⟩⟩
    obtain ⟨msg, hmsg, hof⟩ := buildMessage_spec stack e
    rw [hspec.map_eq, hmap, hmsg] at hbuild
    exact Option.some.inj hbuild ▸ hof

variable {es : List (Env × data_t)} {mon : Monitor}

theorem Calls.countP_handled (h : Calls mon₀ s es mon) (op : Operation) :
    (es.map Prod.snd).countP (fun e => mappedOp e.operation.str = op.code) =
      (s.handled.map Handled.msg).countP (fun m => m.op = op.code) := by
  have hcount := h.handled.count op.code
  rw [List.count_eq_countP, List.countP_map] at hcount
  rw [List.countP_map, List.countP_map]
  exact hcount.symm

/-- The events counted are those handled and the one that is being sent. -/
theorem Calls.countP_events (h : Calls mon₀ s es mon) (op : Operation) :
    s.events.countP (fun e => mappedOp e.operation.str = op.code) =
      (s.handled.map Handled.msg).countP (fun m => m.op = op.code) +
        (s.sending.toList.map Sending.msg).countP (fun m => m.op = op.code) := by
  rcases h.sending with ⟨hnone, hes, _⟩ | ⟨p, e, hsome, hes, hof, _⟩
  · rw [← hes, h.countP_handled, hnone]
    rfl
  · rw [← hes, List.countP_append, h.countP_handled, hsome]
    simp only [List.countP_singleton, hof.op, Option.toList_some, List.map_cons, List.map_nil]

theorem Calls.counter (h : Calls mon₀ s es mon) (hzero : mon₀.counters = .zero) (op : Operation) :
    read_counter s.monitor.counters op.code =
      UInt64.ofNat (s.events.countP fun e => mappedOp e.operation.str = op.code) := by
  have hcounter := h.handled.counter hzero op
  rw [h.handled.count op.code] at hcounter
  have hmap : (es.map Prod.snd).countP (fun e => mappedOp e.operation.str = op.code) =
      es.countP (fun e => mappedOp e.2.operation.str = op.code) := List.countP_map ..
  rcases h.sending with ⟨_, hes, hmon⟩ | ⟨p, e, _, hes, hof, hmon⟩
  · rw [hmon, hcounter, ← hes, hmap]
  · rw [hmon, read_counter_increment, hcounter, ← hes, List.countP_append, hmap, hof.op,
      List.countP_singleton, UInt64.ofNat_add]
    by_cases hop : mappedOp e.operation.str = op.code
    · simp [hop]
    · simp [hop]

theorem Calls.countP_accepted (h : Calls mon₀ s es mon) (hnil : mon₀.mq = [])
    (p : Message → Bool) :
    (s.handled.map Handled.msg).countP p = s.monitor.mq.countP p + s.refused.countP p := by
  rw [h.mq, h.handled.mq_eq, hnil, List.nil_append, flatMap_accepted h.handled.disciplined, refused,
    List.countP_map, List.countP_map, List.countP_map,
    List.countP_eq_countP_filter_add _ _ fun x => x.sent.ret = 0]
  simp only [ne_eq, decide_not]

theorem Conserved.countP_messages (h : s.Conserved mq) (hcalls : Calls mon₀ s es mon)
    (hnil : mon₀.mq = []) (op : Operation) :
    s.events.countP (fun e => mappedOp e.operation.str = op.code) +
        mq.countP (fun m => m.op = op.code) =
      total (fun l => l.processed.countP fun m => m.op = op.code) s.sys.links +
        s.underway (fun m => m.op = op.code) + s.refused.countP fun m => m.op = op.code := by
  have hstop : ∀ m, IsStop m → decide (m.op = op.code) = false := by
    intro m hm
    rw [show m.op = STOP_MESSAG from hm]
    cases op <;> decide
  have hfifo := congrArg (List.countP fun m => m.op = op.code) h.fifo
  rw [List.countP_append, List.countP_append] at hfifo
  have hreceived := h.accounted.received _ hstop
  have hsent : total (fun l => l.sent.countP fun m => m.op = op.code) s.sys.links =
      total (fun l => l.processed.countP fun m => m.op = op.code) s.sys.links +
        total (fun l => l.pending.countP fun m => m.op = op.code) s.sys.links := by
    rw [← total_add]
    exact Finset.sum_congr rfl fun c _ => (h.delivering.2 c).countP_sent
  have hevents := hcalls.countP_events op
  have haccepted := hcalls.countP_accepted hnil fun m => m.op = op.code
  unfold underway
  omega

end Pipeline

/-- In every state of every run: the events of an operation that the monitor has counted, with the
messages of an earlier run, are those that the consumers have processed, those under way and those
refused by the queue; the counters say so modulo `2 ^ 64`. -/
theorem counts_reconcile {M C A : Nat} {mon₀ : Monitor} {mq : List Message} {stop_msg : Message}
    {ack_msg : Cid → Message} {ls : List Pipeline.Label} {s : Pipeline} (hmon : mon₀.Initialised)
    (hmq : ∀ m ∈ mq, Sys.KnownGroup m)
    (hrun : exec (Pipeline.step M C A) ls (.start mon₀ mq stop_msg ack_msg) = some s)
    (op : Operation) :
    s.events.countP (fun e => mappedOp e.operation.str = op.code) +
        mq.countP (fun m => m.op = op.code) =
      total (fun l => l.processed.countP fun m => m.op = op.code) s.sys.links +
        s.underway (fun m => m.op = op.code) + s.refused.countP (fun m => m.op = op.code) ∧
    (read_counter s.monitor.counters op.code).toNat + mq.countP (fun m => m.op = op.code) ≡
      total (fun l => (read_counter l.counters op.code).toNat) s.sys.links +
        s.underway (fun m => m.op = op.code) +
        s.refused.countP (fun m => m.op = op.code) [MOD 2 ^ 64] := by
  have hseq : s.Sequential mon₀ :=
    exec_invariant (fun _ _ _ h hstep => h.step hstep) (.start mon₀ mq stop_msg ack_msg) hrun
  have hconserved : s.Conserved mq :=
    exec_invariant (fun _ _ _ h hstep => h.step hstep)
      (.start mon₀ hmon.mq_eq hmq stop_msg ack_msg) hrun
  obtain ⟨es, mon, hcalls⟩ := hseq.calls hmon.map_builtin
  have hnat := hconserved.countP_messages hcalls hmon.mq_eq op
  refine ⟨hnat, ?_⟩
  have hevents : (read_counter s.monitor.counters op.code).toNat ≡
      s.events.countP (fun e => mappedOp e.operation.str = op.code) [MOD 2 ^ 64] := by
    rw [hcalls.counter hmon.counters_eq, UInt64.toNat_ofNat']
    exact Nat.mod_modEq _ _
  have hprocessed : total (fun l => (read_counter l.counters op.code).toNat) s.sys.links ≡
      total (fun l => l.processed.countP fun m => m.op = op.code) s.sys.links [MOD 2 ^ 64] := by
    apply Nat.ModEq.sum
    intro c _
    dsimp only
    rw [(hconserved.delivering.2 c).counter, UInt64.toNat_ofNat']
    exact Nat.mod_modEq _ _
  calc (read_counter s.monitor.counters op.code).toNat + mq.countP (fun m => m.op = op.code)
      ≡ s.events.countP (fun e => mappedOp e.operation.str = op.code) +
          mq.countP (fun m => m.op = op.code) [MOD 2 ^ 64] := hevents.add_right _
    _ = _ := hnat
    _ ≡ _ [MOD 2 ^ 64] := (hprocessed.symm.add_right _).add_right _

theorem counts_reconcile_sample : ∃ s,
    exec (Pipeline.step 10 1 1) Pipeline.openProcessed Pipeline.freshStart = some s ∧
    s.events.countP (fun e => mappedOp e.operation.str = Operation.open.code) +
        [].countP (fun m : Message => m.op = Operation.open.code) =
      total (fun l => l.processed.countP fun m => m.op = Operation.open.code) s.sys.links +
        s.underway (fun m => m.op = Operation.open.code) +
        s.refused.countP (fun m => m.op = Operation.open.code) ∧
    (read_counter s.monitor.counters Operation.open.code).toNat +
        [].countP (fun m : Message => m.op = Operation.open.code) ≡
      total (fun l => (read_counter l.counters Operation.open.code).toNat) s.sys.links +
        s.underway (fun m => m.op = Operation.open.code) +
        s.refused.countP (fun m => m.op = Operation.open.code) [MOD 2 ^ 64] := by
  obtain ⟨s, hrun⟩ := Option.isSome_iff_exists.mp Pipeline.openProcessed_runs
  refine ⟨s, hrun, ?_⟩
  exact counts_reconcile (Monitor.fresh_initialised 0) (fun _ hm => by cases hm) hrun .open

/-- The messages that the queue has taken, after those of an earlier run. -/
def Pipeline.accepted (mq : List Message) (s : Pipeline) : List Message :=
  mq ++ (s.handled.filter fun h => h.sent.ret = 0).map Handled.msg

def FileActivity (msg : Message) : Prop := msg.category = FILE_ACTIVITY_MONITORING

theorem group_fileActivity {xs : List Message} (h : ∀ m ∈ xs, FileActivity m)
    (g : Fin NUM_GROUPS) : group g xs = if g.val = 0 then xs else [] := by
  by_cases hg : g.val = 0
  · rw [if_pos hg]
    apply List.filter_eq_self.mpr
    intro m hm
    rw [h m hm, hg]
    rfl
  · rw [if_neg hg]
    apply List.filter_eq_nil_iff.mpr
    intro m hm heq
    rw [h m hm] at heq
    exact hg (of_decide_eq_true heq).symm

/-- What the queue has taken is received in the order of the events, and at the top of the receive
loop each of the two consumers for file activity has been given every second message of it; the
other consumers have been given nothing. -/
theorem events_dealt_in_order {M C A : Nat} {mon₀ : Monitor} {mq : List Message}
    {stop_msg : Message} {ack_msg : Cid → Message} {ls : List Pipeline.Label} {s : Pipeline}
    (hmon : mon₀.Initialised) (hmq : ∀ m ∈ mq, FileActivity m)
    (hrun : exec (Pipeline.step M C A) ls (.start mon₀ mq stop_msg ack_msg) = some s) :
    s.accepted mq = s.sys.received ++ s.sys.mq ∧
    (s.sys.dispatcher = .receive → ∀ c : Cid, (s.sys.links c).got ++ (s.sys.links c).data =
      if c.1.val = 0 then share NUM_CONSUMERS_PER_GROUP c.2.val s.sys.received else []) := by
  have hknown : ∀ m ∈ mq, Sys.KnownGroup m := by
    intro m hm
    rw [Sys.KnownGroup, hmq m hm]
    decide
  have hseq : s.Sequential mon₀ :=
    exec_invariant (fun _ _ _ h hstep => h.step hstep) (.start mon₀ mq stop_msg ack_msg) hrun
  have hconserved : s.Conserved mq :=
    exec_invariant (fun _ _ _ h hstep => h.step hstep)
      (.start mon₀ hmon.mq_eq hknown stop_msg ack_msg) hrun
  obtain ⟨es, mon, hcalls⟩ := hseq.calls hmon.map_builtin
  have haccepted : s.accepted mq = mq ++ s.monitor.mq := by
    rw [hcalls.mq, hcalls.handled.mq_eq, hmon.mq_eq, List.nil_append,
      flatMap_accepted hcalls.handled.disciplined]
    rfl
  refine ⟨haccepted.trans hconserved.fifo, ?_⟩
  intro htop c
  have hreceived : ∀ m ∈ s.sys.received, FileActivity m := by
    intro m hm
    have hmem : m ∈ mq ++ s.monitor.mq := by
      rw [hconserved.fifo]
      exact List.mem_append_left _ hm
    rcases List.mem_append.mp hmem with hold | hnew
    · exact hmq m hold
    · exact hconserved.categories m hnew
  have hturn := hconserved.delivering.1
  unfold Sys.InTurn at hturn
  rw [htop] at hturn
  rw [(hconserved.delivering.2 c).sent_eq, hturn.sent, group_fileActivity hreceived]
  by_cases hg : c.1.val = 0
  · rw [if_pos hg, if_pos hg]
  · rw [if_neg hg, if_neg hg]
    rfl

theorem events_dealt_in_order_sample : ∃ s,
    exec (Pipeline.step 10 1 1) Pipeline.openProcessed Pipeline.freshStart = some s ∧
    s.accepted [] = s.sys.received ++ s.sys.mq ∧
    (s.sys.dispatcher = .receive → ∀ c : Cid, (s.sys.links c).got ++ (s.sys.links c).data =
      if c.1.val = 0 then share NUM_CONSUMERS_PER_GROUP c.2.val s.sys.received else []) := by
  obtain ⟨s, hrun⟩ := Option.isSome_iff_exists.mp Pipeline.openProcessed_runs
  refine ⟨s, hrun, ?_⟩
  exact events_dealt_in_order (Monitor.fresh_initialised 0) (fun _ hm => by cases hm) hrun

end Naarad
