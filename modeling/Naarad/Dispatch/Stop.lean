import Naarad.Dispatch.Phases

/-!
# The stop message and the backlog

After the stop messages the dispatcher closes its pipes without looking whether their consumers have
caught up. A consumer that still owes the acknowledgement of an ordinary message then dies at it,
before it reads the stop message; every other consumer has drained its pipe when it ends.
-/

set_option autoImplicit false

namespace Naarad.Dispatch

open LabelledRun

namespace Link

/-- Every message sent has been processed, the last of them is the stop message, and the counters
are those of these messages. -/
structure Drained (l : Link) : Prop where
  processed : l.processed = l.sent
  stops : StopsAt l.sent
  counters : ∀ op : Operation, read_counter l.counters op.code =
    UInt64.ofNat (l.sent.countP fun m => m.op = op.code)

/-- No ordinary message is unread, in the consumer's hand, or about to be acknowledged. -/
def CaughtUp (l : Link) : Prop :=
  (∀ m ∈ l.data, IsStop m) ∧
    match l.pc with
    | .process msg => IsStop msg
    | .ack must_stop => must_stop = true
    | _ => True

instance (l : Link) : Decidable l.CaughtUp :=
  have : Decidable (match l.pc with
      | .process msg => IsStop msg
      | .ack must_stop => must_stop = true
      | _ => True) := by
    split <;> infer_instance
  inferInstanceAs (Decidable (_ ∧ _))

variable {A : Nat} {ph : Phase} {l l' : Link}

theorem Stage.drained (h : l.Stage ph) (hph : ph ≠ .running) (hstop : ∃ m ∈ l.processed, IsStop m) :
    l.Drained := by
  have hsent := h.sent
  rw [if_neg hph] at hsent
  obtain ⟨hall, _, _⟩ := h.flow.all_processed hsent hstop
  refine ⟨hall, hsent, ?_⟩
  intro op
  rw [h.flow.counter, hall]

def Ending (l : Link) : Prop :=
  l.CaughtUp ∧ (l.pc = .killed → ∃ m ∈ l.processed, IsStop m)

theorem Ending.consumer (h : l.Ending) (hprogress : l.Progress)
    (hstep : l.consumer A = some l') : l'.Ending := by
  obtain ⟨⟨hdata, hhand⟩, _⟩ := h
  unfold Progress at hprogress
  cases consumes_of_consumer hstep with
  | @read msg data hpc hcons =>
    rw [hcons] at hdata
    refine ⟨⟨?_, hdata msg List.mem_cons_self⟩, ?_⟩
    · intro m hm
      exact hdata m (List.mem_cons_of_mem _ hm)
    · intro hkilled
      cases hkilled
  | endOfFile => exact ⟨⟨hdata, trivial⟩, fun hkilled => by cases hkilled⟩
  | stop => exact ⟨⟨hdata, rfl⟩, fun hkilled => by cases hkilled⟩
  | count hpc hord =>
    rw [hpc] at hhand
    exact absurd hhand hord
  | @ack must_stop hpc =>
    rw [hpc] at hhand
    obtain rfl : must_stop = true := hhand
    exact ⟨⟨hdata, trivial⟩, fun hkilled => by cases hkilled⟩
  | @killed must_stop hpc =>
    rw [hpc] at hhand hprogress
    obtain rfl : must_stop = true := hhand
    exact ⟨⟨hdata, trivial⟩, fun _ => hprogress⟩
  | closeRead => exact ⟨⟨hdata, trivial⟩, fun hkilled => by cases hkilled⟩
  | closeWrite => exact ⟨⟨hdata, trivial⟩, fun hkilled => by cases hkilled⟩

/-- The consumer will die at the acknowledgement of an ordinary message. -/
def Doomed (l : Link) : Prop :=
  l.read_open = false ∧ (∀ m ∈ l.processed, ¬ IsStop m) ∧
    match l.pc with
    | .read => ∃ msg data, l.data = msg :: data ∧ ¬ IsStop msg
    | .process msg => ¬ IsStop msg
    | .ack must_stop => must_stop = false
    | .killed => True
    | _ => False

theorem Doomed.consumer (h : l.Doomed) (hstep : l.consumer A = some l') : l'.Doomed := by
  obtain ⟨hclosed, hprocessed, hwhere⟩ := h
  cases consumes_of_consumer hstep with
  | @read msg data hpc hdata =>
    rw [hpc] at hwhere
    obtain ⟨msg', data', heq, hord⟩ := hwhere
    rw [hdata] at heq
    obtain ⟨rfl, rfl⟩ := List.cons.inj heq
    exact ⟨hclosed, hprocessed, hord⟩
  | endOfFile hpc hdata =>
    rw [hpc] at hwhere
    obtain ⟨msg, data, heq, _⟩ := hwhere
    rw [hdata] at heq
    cases heq
  | stop hpc hstop =>
    rw [hpc] at hwhere
    exact absurd hstop hwhere
  | @count msg hpc hord =>
    refine ⟨hclosed, ?_, rfl⟩
    exact List.forall_mem_append.mpr ⟨hprocessed, List.forall_mem_singleton.mpr hord⟩
  | ack hpc hopen =>
    rw [hclosed] at hopen
    cases hopen
  | killed => exact ⟨hclosed, hprocessed, trivial⟩
  | closeRead hpc =>
    rw [hpc] at hwhere
    cases hwhere
  | closeWrite hpc =>
    rw [hpc] at hwhere
    cases hwhere

theorem Doomed.not_drained (h : l.Doomed) : ¬ l.Drained := by
  intro hdrained
  obtain ⟨ordinary, stop, heq, hstop, _⟩ := hdrained.stops
  refine h.2.1 stop ?_ hstop
  rw [hdrained.processed, heq]
  exact List.mem_append_right _ (List.mem_singleton_self _)

theorem head_ordinary {xs ys : List Message} (h : StopsAt (xs ++ ys))
    (hord : ∃ m ∈ ys, ¬ IsStop m) : ∃ msg data, ys = msg :: data ∧ ¬ IsStop msg := by
  cases ys with
  | nil =>
    obtain ⟨m, hm, _⟩ := hord
    cases hm
  | cons msg data =>
    refine ⟨msg, data, rfl, ?_⟩
    intro hstop
    -- a stop message is the last one
    have hlast : StopsAt ((xs ++ [msg]) ++ data) := by
      rw [List.append_assoc]
      exact h
    have hnil := eq_nil_of_stopsAt hlast
      ⟨msg, List.mem_append_right _ (List.mem_singleton_self _), hstop⟩
    obtain ⟨m, hm, hm'⟩ := hord
    rw [hnil] at hm
    exact hm' (List.mem_singleton.mp hm ▸ hstop)

theorem Stage.doomed (h : l.Stage .stopped) (hbehind : ¬ l.CaughtUp) :
    Doomed { l with read_open := false } := by
  have hsent : StopsAt l.sent := h.sent
  have hprogress := h.progress
  unfold Progress at hprogress
  have hsplit : StopsAt ((l.processed ++ l.pc.inHand) ++ l.data) := by
    rw [List.append_assoc, h.flow.processed_append]
    exact hsent
  have hdone : ∀ {pc : ConsumerPc}, l.pc = pc → (∃ m ∈ l.processed, IsStop m) →
      (match pc with
        | .process msg => IsStop msg
        | .ack must_stop => must_stop = true
        | _ => True) → False := by
    intro pc hpc hstop hhand
    obtain ⟨_, _, hdata⟩ := h.flow.all_processed hsent hstop
    refine hbehind ⟨?_, hpc ▸ hhand⟩
    intro m hm
    rw [hdata] at hm
    cases hm
  cases hpc : l.pc with
  | read =>
    rw [hpc] at hprogress
    refine ⟨rfl, hprogress, ?_⟩
    apply head_ordinary hsplit
    · by_contra hnone
      refine hbehind ⟨?_, by rw [hpc]; trivial⟩
      intro m hm
      by_contra hm'
      exact hnone ⟨m, hm, hm'⟩
  | process msg =>
    rw [hpc] at hprogress
    refine ⟨rfl, hprogress, ?_⟩
    intro hstop
    -- with the stop message in hand, nothing is left in the pipe
    have hdata : l.data = [] := by
      apply eq_nil_of_stopsAt hsplit
      refine ⟨msg, List.mem_append_right _ ?_, hstop⟩
      rw [hpc]
      exact List.mem_singleton_self _
    refine hbehind ⟨?_, by rw [hpc]; exact hstop⟩
    intro m hm
    rw [hdata] at hm
    cases hm
  | ack must_stop =>
    rw [hpc] at hprogress
    cases must_stop with
    | true => exact (hdone hpc hprogress rfl).elim
    | false => exact ⟨rfl, hprogress, rfl⟩
  | closeRead =>
    rw [hpc] at hprogress
    exact (hdone hpc hprogress trivial).elim
  | closeWrite =>
    rw [hpc] at hprogress
    exact (hdone hpc hprogress trivial).elim
  | ended =>
    rw [hpc] at hprogress
    exact (hdone hpc hprogress trivial).elim
  | killed =>
    rw [hpc] at hprogress
    exact absurd (hprogress.symm.trans h.read_open) (by decide)

/-- How many steps an abandoned consumer has left at most. -/
def left (l : Link) : Nat :=
  match l.pc with
  | .read => 3
  | .process _ | .closeRead => 2
  | .ack _ | .closeWrite => 1
  | .ended | .killed => 0

theorem abandoned_step (A : Nat) (hread : l.read_open = false) (hwrite : l.write_open = false)
    (hgone : l.pc.gone = false) :
    ∃ l', l.consumer A = some l' ∧ l'.left < l.left ∧ l'.read_open = false ∧
      l'.write_open = false := by
  unfold consumer left
  cases hpc : l.pc with
  | read =>
    cases hdata : l.data with
    | nil =>
      rw [hwrite]
      exact ⟨_, rfl, Nat.lt_add_one _, hread, rfl⟩
    | cons msg data => exact ⟨_, rfl, Nat.lt_add_one _, hread, hwrite⟩
  | process msg =>
    by_cases hstop : msg.op = STOP_MESSAG
    · exact ⟨_, if_pos hstop, Nat.lt_add_one _, hread, hwrite⟩
    · exact ⟨_, if_neg hstop, Nat.lt_add_one _, hread, hwrite⟩
  | ack must_stop =>
    rw [hread]
    exact ⟨_, rfl, Nat.lt_add_one _, rfl, hwrite⟩
  | closeRead => exact ⟨_, rfl, Nat.lt_add_one _, hread, hwrite⟩
  | closeWrite => exact ⟨_, rfl, Nat.lt_add_one _, hread, hwrite⟩
  | ended =>
    rw [hpc] at hgone
    cases hgone
  | killed =>
    rw [hpc] at hgone
    cases hgone

end Link

def Phase.late : Phase → Bool
  | .readClosed | .closed => true
  | _ => false

theorem select_not_late (r : Round) (msg : Message) (c : Cid) :
    ((DispatcherPc.select r msg).phase c).late = false := by
  cases r with
  | dispatch g => rfl
  | stop d =>
    dsimp only [DispatcherPc.phase]
    split <;> rfl

namespace Sys

/-- When this step closes the pipe of acknowledgements of a consumer, the consumer has caught up. -/
def DrainsFirst (lab : Label) (s : Sys) : Prop :=
  match s.dispatcher, lab with
  | .closeRead c, .dispatcher .ok => (s.links c).CaughtUp
  | _, _ => True

instance (lab : Label) (s : Sys) : Decidable (DrainsFirst lab s) := by
  unfold DrainsFirst
  split <;> infer_instance

/-- Every link is where its phase says, and the abandoned consumers had caught up. -/
structure Draining (s : Sys) : Prop where
  staged : s.Staged
  ending : ∀ c, (s.dispatcher.phase c).late = true → (s.links c).Ending

theorem Draining.start (mq : List Message) (stop_msg : Message) (ack_msg : Cid → Message) :
    (Sys.start mq stop_msg ack_msg).Draining := by
  refine ⟨.start mq stop_msg ack_msg, ?_⟩
  intro c hlate
  cases hlate

theorem Draining.step {C A : Nat} {lab : Label} {s t : Sys} (h : s.Draining)
    (hdrains : DrainsFirst lab s) (hstep : Sys.step C A lab s = some t) : t.Draining := by
  have hstaged := h.staged.step hstep
  refine ⟨hstaged, ?_⟩
  intro c hlate
  cases moves_of_step hstep with
  | enqueue => exact h.ending c hlate
  | receive =>
    rw [phase_receive] at hlate
    cases hlate
  | again => exact h.ending c hlate
  | leave =>
    rw [show s.startStop.dispatcher.phase c = .running from phase_firstStop _ c] at hlate
    cases hlate
  | @write r msg =>
    rw [show DispatcherPc.phase c _ = (DispatcherPc.select r msg).phase c from rfl,
      select_not_late] at hlate
    cases hlate
  | die => exact hstaged.sends.elim
  | @ready r msg =>
    have hphase : (DispatcherPc.readAck r msg).phase c = (DispatcherPc.select r msg).phase c := by
      cases r <;> rfl
    dsimp only at hlate
    rw [hphase, select_not_late] at hlate
    cases hlate
  | @giveUp r msg =>
    rw [phase_finishRound r msg, select_not_late] at hlate
    cases hlate
  | @readAck r msg =>
    rw [phase_finishRound r msg, select_not_late] at hlate
    cases hlate
  | @closeRead d hpc =>
    dsimp only at hlate ⊢
    by_cases hc : c = d
    · subst hc
      rw [setLink_self]
      have hcaught : (s.links c).CaughtUp := by
        unfold DrainsFirst at hdrains
        rw [hpc] at hdrains
        exact hdrains
      refine ⟨hcaught, ?_⟩
      intro hkilled
      have hstage := h.staged.stage c
      rw [hpc, phase_closeRead_self] at hstage
      have hprogress := hstage.progress
      unfold Link.Progress at hprogress
      rw [show (s.links c).pc = .killed from hkilled] at hprogress
      exact absurd (hprogress.symm.trans hstage.read_open) (by decide)
    · rw [setLink_of_ne hc]
      rw [phase_closeRead_of_ne hc, ← hpc] at hlate
      exact h.ending c hlate
  | @closeWrite d hpc =>
    dsimp only at hlate ⊢
    apply setLink_cases (P := Link.Ending)
    · rintro rfl
      exact h.ending c (by rw [hpc, phase_closeWrite_self]; rfl)
    · intro hc
      rw [phase_closeWrite_of_ne hc, ← hpc] at hlate
      exact h.ending c hlate
  | @consumer d l hl =>
    apply setLink_cases (P := Link.Ending)
    · rintro rfl
      exact (h.ending c hlate).consumer (h.staged.stage c).progress hl
    · exact fun _ => h.ending c hlate

theorem Draining.drained {s : Sys} (h : s.Draining) {c : Cid}
    (hgone : (s.links c).pc.gone = true) : (s.links c).Drained := by
  have hstage := h.staged.stage c
  have hprogress := hstage.progress
  have hstop : ∃ m ∈ (s.links c).processed, IsStop m := by
    unfold Link.Progress at hprogress
    cases hpc : (s.links c).pc with
    | ended =>
      rw [hpc] at hprogress
      exact hprogress
    | killed =>
      rw [hpc] at hprogress
      have hlate : (s.dispatcher.phase c).late = true := by
        have hopen := hstage.read_open
        rw [hprogress] at hopen
        cases hphase : s.dispatcher.phase c <;> rw [hphase] at hopen <;> simp at hopen <;> rfl
      exact (h.ending c hlate).2 hpc
    | _ =>
      rw [hpc] at hgone
      cases hgone
  refine hstage.drained ?_ hstop
  intro hrunning
  rw [hrunning] at hstage
  obtain ⟨m, hm, hm'⟩ := hstop
  have hsent := hstage.sent
  rw [if_pos rfl] at hsent
  exact hsent m (hstage.flow.mem_sent hm) hm'

theorem consumer_ends (C A : Nat) {s : Sys} {c : Cid} {n : Nat}
    (hread : (s.links c).read_open = false) (hwrite : (s.links c).write_open = false)
    (hleft : (s.links c).left ≤ n) :
    ∃ k u, exec (Sys.step C A) (List.replicate k (.consumer c)) s = some u ∧
      (u.links c).pc.gone = true := by
  induction n generalizing s with
  | zero =>
    refine ⟨0, s, rfl, ?_⟩
    cases hgone : (s.links c).pc.gone with
    | true => rfl
    | false =>
      obtain ⟨_, _, hlt, _⟩ := Link.abandoned_step A hread hwrite hgone
      omega
  | succ n ih =>
    cases hgone : (s.links c).pc.gone with
    | true => exact ⟨0, s, rfl, hgone⟩
    | false =>
      obtain ⟨l, hl, hlt, hread', hwrite'⟩ := Link.abandoned_step A hread hwrite hgone
      have hself := setLink_self s c l
      obtain ⟨k, u, hrun, hu⟩ := ih (s := s.setLink c l) (by rw [hself]; exact hread')
        (by rw [hself]; exact hwrite') (by rw [hself]; omega)
      refine ⟨k + 1, u, ?_, hu⟩
      rw [List.replicate_succ]
      refine exec_cons.mpr ⟨s.setLink c l, ?_, hrun⟩
      exact Option.map_eq_some_iff.mpr ⟨l, hl, rfl⟩

theorem doomed_step {C A : Nat} {lab : Label} {s t : Sys} {c : Cid} (h : (s.links c).Doomed)
    (hstep : Sys.step C A lab s = some t) : (t.links c).Doomed := by
  apply links_step (P := Link.Doomed) c _ _ _ _ _ h hstep
  · intro l l' msg hl _ hsend
    obtain ⟨_, rfl⟩ := Link.send_eq_some.mp hsend
    obtain ⟨hclosed, hprocessed, hwhere⟩ := hl
    refine ⟨hclosed, hprocessed, ?_⟩
    cases hpc : l.pc with
    | read =>
      rw [hpc] at hwhere
      obtain ⟨msg', data, hdata, hord⟩ := hwhere
      refine ⟨msg', data ++ [msg], ?_, hord⟩
      rw [hdata]
      rfl
    | _ =>
      rw [hpc] at hwhere
      exact hwhere
  · intro l l' hl htake
    rcases Link.takeAck_eq_some htake with ⟨_, _, _, rfl⟩ | ⟨_, _, rfl⟩
    · exact hl
    · exact hl
  · intro l l' hl hconsume
    exact hl.consumer hconsume
  · intro l hl
    exact ⟨rfl, hl.2⟩
  · intro l hl
    exact hl

theorem doomed_of_behind {C A : Nat} {lab : Label} {s t : Sys} (h : s.Staged)
    (hbehind : ¬ DrainsFirst lab s) (hstep : Sys.step C A lab s = some t) :
    ∃ c, (t.links c).Doomed := by
  unfold DrainsFirst at hbehind
  split at hbehind
  · rename_i c hpc
    refine ⟨c, ?_⟩
    have hstage := h.stage c
    rw [hpc, phase_closeRead_self] at hstage
    have hclose : t = { s.setLink c { s.links c with read_open := false } with
        dispatcher := .closeWrite c } := by
      simp only [Sys.step, dispatch, hpc] at hstep
      exact (Option.some.inj hstep).symm
    rw [hclose]
    dsimp only
    rw [setLink_self]
    exact hstage.doomed hbehind
  · exact absurd trivial hbehind

end Sys

/-- If every consumer has caught up when the dispatcher closes its pipe of acknowledgements, then a
consumer that has ended has processed everything up to its stop message, and every consumer ends
once the dispatcher has exited; one that has not caught up never gets there. -/
theorem stop_drains {C A : Nat} {mq : List Message} {stop_msg : Message} {ack_msg : Cid → Message}
    {ls : List Label} {s : Sys}
    (hrun : exec (Sys.step C A) ls (.start mq stop_msg ack_msg) = some s)
    (hok : Along (Sys.step C A) Sys.DrainsFirst ls (.start mq stop_msg ack_msg)) :
    (∀ c, (s.links c).pc.gone = true → (s.links c).Drained) ∧
    (s.dispatcher = .exited → ∀ c, ∃ k u,
      exec (Sys.step C A) (List.replicate k (.consumer c)) s = some u ∧
        (u.links c).pc.gone = true ∧ (u.links c).Drained) ∧
    (∀ lab t, ¬ Sys.DrainsFirst lab s → Sys.step C A lab s = some t →
      ∃ c, ∀ ks u, exec (Sys.step C A) ks t = some u → ¬ (u.links c).Drained) := by
  have hdraining : s.Draining := exec_induct (fun _ _ _ h hl hstep => h.step hl hstep)
    (Sys.Draining.start mq stop_msg ack_msg) hok hrun
  refine ⟨fun c hgone => hdraining.drained hgone, ?_, ?_⟩
  · intro hexited c
    have hstage := hdraining.staged.stage c
    rw [hexited] at hstage
    obtain ⟨k, u, hends, hgone⟩ := Sys.consumer_ends C A (s := s) (c := c) hstage.read_open
      hstage.write_open (Nat.le_refl _)
    have hfinal : u.Draining := by
      refine exec_induct (fun _ _ _ h hl hstep => h.step hl hstep) hdraining ?_ hends
      apply along_of_forall
      intro lab hlab t
      rw [List.eq_of_mem_replicate hlab]
      unfold Sys.DrainsFirst
      split <;> trivial
    exact ⟨k, u, hends, hgone, hfinal.drained hgone⟩
  · intro lab t hbehind hstep
    obtain ⟨c, hdoomed⟩ := Sys.doomed_of_behind hdraining.staged hbehind hstep
    refine ⟨c, fun ks u hks => ?_⟩
    exact (exec_invariant (P := fun v : Sys => (v.links c).Doomed)
      (fun _ _ _ h hs => Sys.doomed_step h hs) hdoomed hks).not_drained

def allConsumers : List Cid :=
  (List.finRange NUM_GROUPS).flatMap fun g =>
    (List.finRange NUM_CONSUMERS_PER_GROUP).map fun j => (g, j)

def stopRun (rounds : Cid → List Label) : List Label :=
  [.enqueue { Message.zero with op := STOP_MESSAG }, .dispatcher .ok] ++
    allConsumers.flatMap rounds ++ List.replicate 16 (.dispatcher .ok)

def drainedRun : List Label :=
  [.enqueue Message.zero, .dispatcher .ok, .dispatcher .ok] ++
    List.replicate 3 (.consumer firstConsumer) ++ [.dispatcher .ok, .dispatcher .ok] ++
    stopRun (fun c => [.dispatcher .ok, .consumer c, .consumer c, .consumer c, .dispatcher .ok,
      .dispatcher .ok]) ++ [.consumer firstConsumer, .consumer firstConsumer]

theorem stop_drains_all : ∃ s, exec (Sys.step 1 1) drainedRun firstStart = some s ∧
    (s.links firstConsumer).pc.gone = true ∧ (s.links firstConsumer).Drained := by
  have hgone : (exec (Sys.step 1 1) drainedRun firstStart).map
      (fun s => (s.links firstConsumer).pc.gone) = some true := by decide +kernel
  obtain ⟨s, hrun, hgone⟩ := Option.map_eq_some_iff.mp hgone
  refine ⟨s, hrun, hgone, ?_⟩
  exact (stop_drains hrun (by decide +kernel)).1 firstConsumer hgone

/-- One message whose acknowledgement times out, and then stop messages that all time out; after the
pipes are closed the first consumer comes to the message. -/
def backlogRun : List Label :=
  timedOutRound ++ stopRun (fun _ => [.dispatcher .ok, .dispatcher .timeout]) ++
    List.replicate 3 (.consumer firstConsumer)

/-- The consumer dies at the acknowledgement of that message, with its stop message unread. -/
theorem backlog_lost : ∃ s, exec (Sys.step 2 1) backlogRun firstStart = some s ∧
    (s.links firstConsumer).pc.gone = true ∧ (s.links firstConsumer).got.length = 1 ∧
    (s.links firstConsumer).sent.length = 2 ∧ ¬ (s.links firstConsumer).Drained := by
  have hlost : (exec (Sys.step 2 1) backlogRun firstStart).map (fun s =>
      ((s.links firstConsumer).pc.gone, (s.links firstConsumer).got.length,
        (s.links firstConsumer).sent.length, (s.links firstConsumer).processed.length)) =
      some (true, 1, 2, 1) := by decide +kernel
  obtain ⟨s, hrun, hlost⟩ := Option.map_eq_some_iff.mp hlost
  simp only [Prod.mk.injEq] at hlost
  obtain ⟨hgone, hgot, hsent, hprocessed⟩ := hlost
  refine ⟨s, hrun, hgone, hgot, hsent, ?_⟩
  intro hdrained
  have hlen := congrArg List.length hdrained.processed
  omega

end Naarad.Dispatch
