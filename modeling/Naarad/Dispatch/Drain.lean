import Naarad.Dispatch.Capacity
import Naarad.Dispatch.Delivery
import Naarad.Dispatch.Phases
import Naarad.Dispatch.Deaths
import Naarad.Lib.Tally
import Mathlib.Data.Fintype.Prod

/-!
# The dispatcher and its consumers come to rest

Without new messages every step uses up some of the work that is left: a message of the queue has to
be received, written, waited for and processed, and the stop messages and the closing of the pipes
come once. As long as some message is unprocessed, some step is possible. So what has been accepted
is processed, after a number of steps that the state bounds.
-/

set_option autoImplicit false

namespace Naarad.Dispatch

open LabelledRun Tally RoundRobin

/-- The steps that a consumer has left at most when nothing more is sent. -/
def ConsumerPc.work : ConsumerPc → Nat
  | .process _ => 5
  | .ack _ => 4
  | .read => 3
  | .closeRead => 2
  | .closeWrite => 1
  | .ended => 0
  | .killed => 0

/-- Each message in the pipe is read, processed and acknowledged. -/
def Link.work (l : Link) : Nat := 3 * l.data.length + l.pc.work

/-- The consumers from `c` on. -/
def Cid.left (c : Cid) : Nat := NUM_GROUPS * NUM_CONSUMERS_PER_GROUP - c.index

/-- A stop message is written, waited for, read and processed, and two ends are closed for each
consumer. -/
def stopWork (c : Cid) : Nat := 6 * c.left + 2 * firstConsumer.left

def nextStopWork (c : Cid) : Nat := 6 * (c.left - 1) + 2 * firstConsumer.left

def DispatcherPc.work : DispatcherPc → Nat
  | .receive => stopWork firstConsumer + 1
  | .write (.dispatch _) _ => stopWork firstConsumer + 7
  | .select (.dispatch _) _ => stopWork firstConsumer + 3
  | .readAck (.dispatch _) _ => stopWork firstConsumer + 2
  | .write (.stop c) _ => stopWork c
  | .select (.stop c) _ => nextStopWork c + 2
  | .readAck (.stop c) _ => nextStopWork c + 1
  | .closeRead c => 2 * c.left
  | .closeWrite c => 2 * c.left - 1
  | .exited => 0
  | .fault => 0
  | .killed => 0

namespace Sys

/-- The work that is left when no more messages come. -/
def work (s : Sys) : Nat := 7 * s.mq.length + s.dispatcher.work + total Link.work s.links

theorem left_pos (c : Cid) : 0 < c.left := by
  have hi := c.1.isLt
  have hj := c.2.isLt
  simp only [Cid.left, Cid.index, NUM_GROUPS, NUM_CONSUMERS_PER_GROUP] at *
  omega

theorem left_next {c d : Cid} (h : nextConsumer c = some d) : d.left = c.left - 1 := by
  unfold Cid.left
  rw [nextConsumer_some h]
  omega

/-- Neither a new message nor the giving up of `mq_receive`. -/
def Spends (lab : Label) (s : Sys) : Prop :=
  match lab with
  | .enqueue _ => False
  | .dispatcher o => s.dispatcher = .receive → o ≠ .timeout
  | .consumer _ => True

theorem work_consumer {A : Nat} {l l' : Link} (h : l.consumer A = some l') : l'.work < l.work := by
  unfold Link.work
  cases Link.consumes_of_consumer h with
  | read hpc hdata =>
    simp only [hpc, hdata, ConsumerPc.work, List.length_cons]
    omega
  | endOfFile hpc =>
    rw [hpc]
    exact Nat.lt_succ_self _
  | stop hpc =>
    rw [hpc]
    exact Nat.lt_succ_self _
  | count hpc =>
    rw [hpc]
    exact Nat.lt_succ_self _
  | @ack must_stop hpc =>
    rw [hpc]
    apply Nat.add_lt_add_left
    cases must_stop with
    | true => exact show 2 < 4 by decide
    | false => exact show 3 < 4 by decide
  | killed hpc =>
    rw [hpc]
    exact Nat.add_lt_add_left (show 0 < 4 by decide) _
  | closeRead hpc =>
    rw [hpc]
    exact Nat.lt_succ_self _
  | closeWrite hpc =>
    rw [hpc]
    exact Nat.lt_succ_self _

theorem total_setLink {s : Sys} {c : Cid} {l : Link} :
    total Link.work (s.setLink c l).links + (s.links c).work =
      total Link.work s.links + l.work :=
  total_update Link.work s.links c l

theorem total_setLink_same {s : Sys} {c : Cid} {l : Link} (h : l.work = (s.links c).work) :
    total Link.work (s.setLink c l).links = total Link.work s.links := by
  have htotal := total_setLink (s := s) (c := c) (l := l)
  omega

theorem work_finishRound (r : Round) (msg : Message) (s : Sys) :
    (s.finishRound r).work + 1 ≤
      7 * s.mq.length + (DispatcherPc.readAck r msg).work + total Link.work s.links := by
  unfold finishRound work
  cases r with
  | dispatch g =>
    dsimp only [DispatcherPc.work]
    omega
  | stop c =>
    dsimp only
    cases hnext : nextConsumer c with
    | some d =>
      have hleft := left_next hnext
      simp only [DispatcherPc.work, stopWork, nextStopWork, hleft]
      omega
    | none =>
      simp only [DispatcherPc.work, nextStopWork]
      omega

theorem work_afterClose (c : Cid) : (afterClose c).work + 1 ≤ (DispatcherPc.closeWrite c).work := by
  have hpos := left_pos c
  unfold afterClose
  cases hnext : nextConsumer c with
  | some d =>
    have hleft := left_next hnext
    simp only [DispatcherPc.work, hleft]
    omega
  | none =>
    simp only [DispatcherPc.work]
    omega

theorem work_receive (msg : Message) (mq : List Message) (s : Sys) :
    (s.receive msg mq).work + 1 ≤ 7 * (mq.length + 1) + DispatcherPc.receive.work +
      total Link.work s.links := by
  have hstop : stopWork firstConsumer < DispatcherPc.receive.work := Nat.lt_succ_self _
  unfold receive startStop work
  dsimp only
  split
  · simp only [DispatcherPc.work] at hstop ⊢
    omega
  · split
    · simp only [DispatcherPc.work] at hstop ⊢
      omega
    · simp only [DispatcherPc.work] at hstop ⊢
      omega

theorem work_select (r : Round) (msg : Message) :
    (DispatcherPc.select r msg).work + 4 ≤ (DispatcherPc.write r msg).work := by
  cases r with
  | dispatch g => exact Nat.le_refl _
  | stop c =>
    have hpos := left_pos c
    simp only [DispatcherPc.work, stopWork, nextStopWork]
    omega

theorem work_step {C A : Nat} {lab : Label} {s t : Sys} (hspends : Spends lab s)
    (hstep : step C A lab s = some t) : t.work < s.work := by
  cases moves_of_step hstep with
  | enqueue => exact hspends.elim
  | @receive msg mq hpc hmq =>
    have hle := work_receive msg mq s
    unfold work at hle ⊢
    rw [hpc, hmq, List.length_cons]
    exact hle
  | again hpc => exact absurd rfl (hspends hpc)
  | leave hpc =>
    unfold work
    rw [hpc]
    exact Nat.add_lt_add_right (Nat.lt_succ_self _) _
  | @write r msg l hpc _ hl =>
    have htotal := total_setLink (s := s) (c := r.consumer s.current_consumer) (l := l)
    have hselect := work_select r msg
    have hgrows : l.work = (s.links (r.consumer s.current_consumer)).work + 3 := by
      obtain ⟨_, rfl⟩ := Link.send_eq_some.mp hl
      simp only [Link.work, List.length_append, List.length_singleton]
      omega
    unfold work
    rw [hpc]
    dsimp only [setLink] at htotal ⊢
    omega
  | @die r msg hpc =>
    have hselect := work_select r msg
    have htotal : total Link.work s.die.links = total Link.work s.links :=
      total_congr fun _ => rfl
    unfold work
    rw [hpc, htotal]
    simp only [die, DispatcherPc.work] at hselect ⊢
    omega
  | @ready r msg hpc =>
    have hlower : (DispatcherPc.readAck r msg).work + 1 = (DispatcherPc.select r msg).work := by
      cases r <;> rfl
    unfold work
    rw [hpc]
    dsimp only
    omega
  | @giveUp r msg o hpc =>
    have hle := work_finishRound r msg s
    have hlower : (DispatcherPc.readAck r msg).work + 1 = (DispatcherPc.select r msg).work := by
      cases r <;> rfl
    unfold work at hle ⊢
    rw [hpc]
    omega
  | @readAck r msg l hpc hl =>
    have hle := work_finishRound r msg (s.setLink (r.consumer s.current_consumer) l)
    have hsame : total Link.work (s.setLink (r.consumer s.current_consumer) l).links =
        total Link.work s.links := by
      apply total_setLink_same
      rcases Link.takeAck_eq_some hl with ⟨_, _, _, rfl⟩ | ⟨_, _, rfl⟩
      · rfl
      · rfl
    rw [hsame] at hle
    unfold work at hle ⊢
    rw [hpc]
    exact hle
  | @closeRead c hpc =>
    have hsame : total Link.work (s.setLink c { s.links c with read_open := false }).links =
        total Link.work s.links := total_setLink_same rfl
    have hpos := left_pos c
    unfold work
    rw [hpc, hsame]
    simp only [DispatcherPc.work, setLink]
    omega
  | @closeWrite c hpc =>
    have hsame : total Link.work (s.setLink c { s.links c with write_open := false }).links =
        total Link.work s.links := total_setLink_same rfl
    have hlower := work_afterClose c
    unfold work
    rw [hpc, hsame]
    dsimp only [setLink]
    omega
  | @consumer c l hl =>
    have htotal := total_setLink (s := s) (c := c) (l := l)
    have hlower := work_consumer hl
    unfold work
    dsimp only [setLink] at htotal ⊢
    omega

/-- When the dispatcher goes to read an acknowledgement, there is something to read. -/
def Answered (s : Sys) : Prop :=
  ∀ r msg, s.dispatcher = .readAck r msg → (s.links (r.consumer s.current_consumer)).Readable

theorem Answered.step {C A : Nat} {lab : Label} {s t : Sys} (h : s.Answered)
    (hstep : Sys.step C A lab s = some t) : t.Answered := by
  intro r msg hread
  cases moves_of_step hstep with
  | enqueue => exact h r msg hread
  | receive => exact absurd hread receive_not_readAck
  | again => exact h r msg hread
  | leave => cases hread
  | write => cases hread
  | die => cases hread
  | ready _ hready =>
    cases hread
    exact Link.readable_iff.mp hready
  | giveUp => exact absurd hread finishRound_not_readAck
  | readAck => exact absurd hread finishRound_not_readAck
  | closeRead => cases hread
  | @closeWrite c =>
    unfold afterClose at hread
    dsimp only at hread
    split at hread <;> cases hread
  | @consumer d l hl =>
    have hwas := h r msg hread
    show ((s.setLink d l).links (r.consumer s.current_consumer)).Readable
    apply setLink_cases
    · rintro rfl
      exact hwas.consumer hl
    · exact fun _ => hwas

end Sys

/-- A consumer that cannot step waits for a message, or for room for its acknowledgement. -/
theorem Link.stuck {A : Nat} {l : Link} (h : l.consumer A = none) :
    l.pc.gone = true ∨ (l.pc = .read ∧ l.data = [] ∧ l.write_open = true) ∨
      ∃ must_stop, l.pc = .ack must_stop ∧ l.read_open = true ∧ A ≤ l.acks.length := by
  unfold consumer at h
  split at h
  case h_1 hpc =>
    split at h
    · cases h
    · rename_i hdata
      split at h
      · rename_i hopen
        exact Or.inr (Or.inl ⟨hpc, hdata, hopen⟩)
      · cases h
  case h_2 hpc =>
    dsimp only at h
    split at h <;> cases h
  case h_3 must_stop hpc =>
    split at h
    · rename_i hopen
      split at h
      · cases h
      · rename_i hroom
        exact Or.inr (Or.inr ⟨must_stop, hpc, hopen, Nat.le_of_not_lt hroom⟩)
    · cases h
  case h_4 => cases h
  case h_5 => cases h
  case h_6 hpc =>
    rw [hpc]
    exact Or.inl rfl
  case h_7 hpc =>
    rw [hpc]
    exact Or.inl rfl

theorem Link.processed_of_stuck {C A : Nat} {l : Link} (hCA : C ≤ A) (hflow : l.Flow)
    (hbounded : l.Bounded C false) (h : l.consumer A = none) : l.pc.gone = true ∨ l.processed = l.sent := by
  have hparts := hflow.processed_append
  rcases Link.stuck h with hgone | ⟨hpc, hdata, _⟩ | ⟨must_stop, hpc, _, hacks⟩
  · exact Or.inl hgone
  · rw [hpc, hdata] at hparts
    exact Or.inr ((List.append_nil _).symm.trans hparts)
  · -- the acknowledgements in the pipe leave no room for an unread message
    have hdata : l.data = [] := by
      have howed := hbounded.2
      rw [Link.owed, hpc] at howed
      simp only [ConsumerPc.owes, Bool.false_eq_true, if_false] at howed
      apply List.length_eq_zero_iff.mp
      omega
    rw [hpc, hdata] at hparts
    exact Or.inr ((List.append_nil _).symm.trans hparts)

namespace Sys

variable {C A : Nat} {s : Sys}

/-- The dispatcher waits for a message or has left its loop, and every consumer that is not gone has
processed what it was sent. While the loop goes on, that is its share of everything received. -/
structure AtRest (s : Sys) : Prop where
  dispatcher : s.dispatcher = .receive ∧ s.mq = [] ∨ s.dispatcher = .exited ∨
    s.dispatcher = .fault
  consumers : ∀ c, (s.links c).pc.gone = true ∨ (s.links c).processed = (s.links c).sent
  shares : s.dispatcher = .receive → ∀ c, (s.links c).processed =
    share NUM_CONSUMERS_PER_GROUP c.2.val (group c.1 s.received)

/-- No message comes, `mq_receive` does not give up, and `select` does not fail. -/
def Proceeds (lab : Label) (s : Sys) : Prop := Spends lab s ∧ SelectWorks lab s

/-- What the progress of the system rests on. -/
structure Live (C : Nat) (s : Sys) : Prop where
  staged : s.Staged
  bounded : s.Bounded C
  answered : s.Answered
  delivering : s.Delivering

theorem Live.step {lab : Label} {t : Sys} (h : s.Live C) (hworks : SelectWorks lab s)
    (hstep : Sys.step C A lab s = some t) : t.Live C where
  staged := h.staged.step hstep
  bounded := h.bounded.step hworks hstep
  answered := h.answered.step hstep
  delivering := ⟨h.delivering.1.step hstep, flow_step h.delivering.2 hstep⟩

theorem Live.start (C : Nat) (mq : List Message) (stop_msg : Message) (ack_msg : Cid → Message) :
    (start mq stop_msg ack_msg).Live C where
  staged := .start mq stop_msg ack_msg
  bounded := start_bounded C mq stop_msg ack_msg
  answered := fun _ _ hread => by cases hread
  delivering := ⟨start_inTurn mq stop_msg ack_msg, fun _ => .start _⟩

/-- Nor does any other system call of the dispatcher fail. -/
def Succeeds (lab : Label) (s : Sys) : Prop := Spends lab s ∧ lab ≠ .dispatcher .error

theorem Succeeds.proceeds {lab : Label} (h : Succeeds lab s) : Proceeds lab s :=
  ⟨h.1, fun herror => absurd herror h.2⟩

theorem moves_of_dispatch_ok (h : ∃ t, s.dispatch C .ok = some t) :
    ∃ lab t, Succeeds lab s ∧ Sys.step C A lab s = some t := by
  obtain ⟨t, ht⟩ := h
  exact ⟨.dispatcher .ok, t, ⟨fun _ => by decide, by decide⟩, ht⟩

theorem Live.atRest (h : s.Live C)
    (hdispatcher : s.dispatcher = .receive ∧ s.mq = [] ∨ s.dispatcher = .exited ∨
      s.dispatcher = .fault)
    (hconsumers : ∀ c, (s.links c).pc.gone = true ∨ (s.links c).processed = (s.links c).sent) :
    s.AtRest := by
  refine ⟨hdispatcher, hconsumers, ?_⟩
  intro htop c
  have hstage := h.staged.stage c
  rw [htop] at hstage
  have hturn := h.delivering.1
  unfold InTurn at hturn
  rw [htop] at hturn
  rw [← hturn.sent c]
  apply (hconsumers c).resolve_left
  rcases Link.Stage.serving hstage with hpc | ⟨msg, hpc⟩ | hpc
  all_goals
    rw [hpc]
    exact Bool.false_ne_true

/-- With every consumer stuck, the dispatcher can step or there is nothing to do. -/
theorem Live.dispatcher_moves (h : s.Live C) (hC : 1 ≤ C) (hCA : C ≤ A)
    (hstuck : ∀ c, (s.links c).consumer A = none) :
    s.AtRest ∨ ∃ lab t, Succeeds lab s ∧ Sys.step C A lab s = some t := by
  have hrest : s.awaits = none →
      ∀ c, (s.links c).pc.gone = true ∨ (s.links c).processed = (s.links c).sent := by
    intro hawaits c
    have hbounded := h.bounded c
    rw [hawaits] at hbounded
    exact Link.processed_of_stuck hCA (h.delivering.2 c) hbounded (hstuck c)
  cases hpc : s.dispatcher with
  | receive =>
    have hawaits : s.awaits = none := awaits_of_pc hpc
    cases hmq : s.mq with
    | nil => exact Or.inl (h.atRest (Or.inl ⟨hpc, hmq⟩) (hrest hawaits))
    | cons msg mq =>
      apply Or.inr (moves_of_dispatch_ok _)
      simp only [dispatch, hpc, hmq]
      exact ⟨_, rfl⟩
  | write r msg =>
    have hstage := h.staged.stage (r.consumer s.current_consumer)
    rw [hpc, phase_write_self] at hstage
    have hreads := hstage.running_reads
    have hbounded := (h.bounded (r.consumer s.current_consumer)).2
    rw [show s.awaits = none from awaits_of_pc hpc] at hbounded
    have hroom : (s.links (r.consumer s.current_consumer)).data.length < C := by
      by_contra hfull
      rcases Link.stuck (hstuck (r.consumer s.current_consumer)) with
        hgone | ⟨_, hdata, _⟩ | ⟨must_stop, hack, _, hacks⟩
      · rcases hstage.serving with hread | ⟨m, hread⟩ | hread
        all_goals
          rw [hread] at hgone
          cases hgone
      · rw [hdata, List.length_nil] at hfull
        omega
      · simp only [Link.owed, hack, ConsumerPc.owes, reduceCtorEq, decide_false,
          Bool.false_eq_true, if_false] at hbounded
        omega
    apply Or.inr (moves_of_dispatch_ok _)
    simp only [dispatch, hpc, hreads, if_true, Link.send_eq_some.mpr ⟨hroom, rfl⟩]
    exact ⟨_, rfl⟩
  | select r msg =>
    right
    by_cases hready : (s.links (r.consumer s.current_consumer)).readable = true
    · apply moves_of_dispatch_ok
      simp only [dispatch, hpc, hready, if_true]
      exact ⟨_, rfl⟩
    · refine ⟨.dispatcher .timeout, s.finishRound r, ⟨?_, by decide⟩, ?_⟩
      · intro hreceive
        rw [hpc] at hreceive
        cases hreceive
      · simp only [Sys.step, dispatch, hpc, hready]
        rfl
  | readAck r msg =>
    obtain ⟨l, hl⟩ := (h.answered r msg hpc).taken
    apply Or.inr (moves_of_dispatch_ok _)
    simp only [dispatch, hpc, hl]
    exact ⟨_, rfl⟩
  | closeRead c =>
    apply Or.inr (moves_of_dispatch_ok _)
    simp only [dispatch, hpc]
    exact ⟨_, rfl⟩
  | closeWrite c =>
    apply Or.inr (moves_of_dispatch_ok _)
    simp only [dispatch, hpc]
    exact ⟨_, rfl⟩
  | exited => exact Or.inl (h.atRest (Or.inr (Or.inl hpc)) (hrest (awaits_of_pc hpc)))
  | fault => exact Or.inl (h.atRest (Or.inr (Or.inr hpc)) (hrest (awaits_of_pc hpc)))
  | killed =>
    have hsends := h.staged.sends
    rw [hpc] at hsends
    exact hsends.elim

theorem Live.moves (h : s.Live C) (hC : 1 ≤ C) (hCA : C ≤ A) :
    s.AtRest ∨ ∃ lab t, Succeeds lab s ∧ Sys.step C A lab s = some t := by
  by_cases hmoves : ∃ c l, (s.links c).consumer A = some l
  · obtain ⟨c, l, hl⟩ := hmoves
    refine Or.inr ⟨.consumer c, s.setLink c l, ⟨trivial, ?_⟩, ?_⟩
    · intro herror
      cases herror
    · exact Option.map_eq_some_iff.mpr ⟨l, hl, rfl⟩
  · apply h.dispatcher_moves hC hCA
    intro c
    by_contra hne
    obtain ⟨l, hl⟩ := Option.ne_none_iff_exists'.mp hne
    exact hmoves ⟨c, l, hl⟩

theorem live_of_run {mq : List Message} {stop_msg : Message} {ack_msg : Cid → Message}
    {ls : List Label} (hrun : exec (Sys.step C A) ls (.start mq stop_msg ack_msg) = some s)
    (hselect : Along (Sys.step C A) SelectWorks ls (.start mq stop_msg ack_msg)) : s.Live C :=
  exec_induct (fun _ _ _ h hworks hstep => h.step hworks hstep)
    (Live.start C mq stop_msg ack_msg) hselect hrun

end Sys

/-- From every state of a run in which `select` works: until the next message comes only so many
steps are possible as there is work left, and however they are taken, they can be continued until
all that was accepted is processed. The pipes of the acknowledgements must not be the smaller
ones. -/
theorem drains {C A : Nat} {mq : List Message} {stop_msg : Message} {ack_msg : Cid → Message}
    {ls : List Label} {s : Sys} (hC : 1 ≤ C) (hCA : C ≤ A)
    (hrun : exec (Sys.step C A) ls (.start mq stop_msg ack_msg) = some s)
    (hselect : Along (Sys.step C A) Sys.SelectWorks ls (.start mq stop_msg ack_msg)) :
    (∀ ks t, exec (Sys.step C A) ks s = some t → Along (Sys.step C A) Sys.Spends ks s →
      ks.length + t.work ≤ s.work) ∧
    ∀ ks t, exec (Sys.step C A) ks s = some t → Along (Sys.step C A) Sys.Proceeds ks s →
      ∃ ms u, exec (Sys.step C A) ms t = some u ∧ Along (Sys.step C A) Sys.Proceeds ms t ∧
        u.AtRest := by
  constructor
  · intro ks t hks hspends
    exact exec_length_le (fun _ _ _ hok hstep => Sys.work_step hok hstep) hspends hks
  · intro ks t hks hproceeds
    have hlive : t.Live C := by
      apply exec_induct (P := Sys.Live C) _ (Sys.live_of_run hrun hselect) hproceeds hks
      exact fun _ _ _ h hok hstep => h.step hok.2 hstep
    refine exec_settles (fun _ _ _ hok hstep => Sys.work_step hok.1 hstep)
      (fun _ _ _ h hok hstep => h.step hok.2 hstep) ?_ hlive
    intro s h
    rcases h.moves hC hCA with hrest | ⟨lab, t, hsucceeds, hstep⟩
    · exact Or.inl hrest
    · exact Or.inr ⟨lab, t, hsucceeds.proceeds, hstep⟩

/-- Two messages for the first group, both timed out, lie in the pipes. -/
theorem drains_sample :
    ∃ s, exec (Sys.step 2 2) (timedOutRound ++ timedOutRound) firstStart = some s ∧
      (∀ ks t, exec (Sys.step 2 2) ks s = some t → Along (Sys.step 2 2) Sys.Spends ks s →
        ks.length + t.work ≤ s.work) ∧
      ∀ ks t, exec (Sys.step 2 2) ks s = some t → Along (Sys.step 2 2) Sys.Proceeds ks s →
        ∃ ms u, exec (Sys.step 2 2) ms t = some u ∧ Along (Sys.step 2 2) Sys.Proceeds ms t ∧
          u.AtRest := by
  refine ⟨_, rfl, ?_⟩
  exact drains (by decide) (by decide)
    (show exec (Sys.step 2 2) (timedOutRound ++ timedOutRound) firstStart = some _ from rfl)
    (by decide)

end Naarad.Dispatch
