import Naarad.Dispatch.Rounds

/-!
# The life of a link

For one consumer the dispatcher's program falls into four phases: before its stop message, after it,
with the pipe of acknowledgements closed, and with both pipes closed. What the consumer can be doing
follows from the phase and from whether it has processed the stop message.
-/

set_option autoImplicit false

namespace Naarad.Dispatch

open LabelledRun

inductive Phase where
  | running
  | stopped
  | readClosed
  | closed
  deriving DecidableEq

def DispatcherPc.phase (c : Cid) : DispatcherPc → Phase
  | .write (.stop d) _ => if c.index < d.index then .stopped else .running
  | .select (.stop d) _ => if c.index ≤ d.index then .stopped else .running
  | .readAck (.stop d) _ => if c.index ≤ d.index then .stopped else .running
  | .closeRead d => if c.index < d.index then .closed else .stopped
  | .closeWrite d =>
    if c.index < d.index then .closed else if c.index = d.index then .readClosed else .stopped
  | .exited => .closed
  | _ => .running

def IsStop (msg : Message) : Prop := msg.op = STOP_MESSAG

instance : DecidablePred IsStop := fun msg => inferInstanceAs (Decidable (msg.op = _))

def StopsAt (xs : List Message) : Prop :=
  ∃ ordinary stop, xs = ordinary ++ [stop] ∧ IsStop stop ∧ ∀ m ∈ ordinary, ¬ IsStop m

namespace Link

/-- What the consumer has processed, by where it is. -/
def Progress (l : Link) : Prop :=
  match l.pc with
  | .read | .process _ | .ack false => ∀ m ∈ l.processed, ¬ IsStop m
  | .ack true | .closeRead | .closeWrite | .ended => ∃ m ∈ l.processed, IsStop m
  | .killed => l.read_open = false

structure Stage (ph : Phase) (l : Link) : Prop where
  flow : l.Flow
  sent : if ph = .running then ∀ m ∈ l.sent, ¬ IsStop m else StopsAt l.sent
  write_open : l.write_open = decide (ph ≠ .closed)
  read_open : l.read_open = decide (ph = .running ∨ ph = .stopped)
  progress : l.Progress

variable {C A : Nat} {ph : Phase} {l l' : Link}

theorem Flow.processed_append (h : l.Flow) : l.processed ++ (l.pc.inHand ++ l.data) = l.sent := by
  rw [← h.sent_eq, h.got_eq, List.append_assoc]

theorem Flow.mem_sent (h : l.Flow) {m : Message} (hm : m ∈ l.processed) : m ∈ l.sent := by
  rw [← h.processed_append]
  exact List.mem_append_left _ hm

theorem eq_nil_of_stopsAt {xs ys : List Message} (h : StopsAt (xs ++ ys)) (hx : ∃ m ∈ xs, IsStop m) :
    ys = [] := by
  obtain ⟨ordinary, stop, heq, _, hord⟩ := h
  obtain ⟨m, hm, hstop⟩ := hx
  by_contra hne
  -- the stop message would be among the ordinary ones
  obtain ⟨ys', y, rfl⟩ := List.eq_nil_or_concat ys |>.resolve_left hne
  rw [List.concat_eq_append, ← List.append_assoc] at heq
  obtain ⟨hinit, _⟩ := List.append_inj' heq rfl
  exact hord m (hinit ▸ List.mem_append_left _ hm) hstop

theorem Flow.all_processed (h : l.Flow) (hsent : StopsAt l.sent)
    (hstop : ∃ m ∈ l.processed, IsStop m) :
    l.processed = l.sent ∧ l.pc.inHand = [] ∧ l.data = [] := by
  have hparts := h.processed_append
  rw [← hparts] at hsent
  have hrest := eq_nil_of_stopsAt hsent hstop
  rw [hrest, List.append_nil] at hparts
  obtain ⟨hhand, hdata⟩ := List.append_eq_nil_iff.mp hrest
  exact ⟨hparts, hhand, hdata⟩

theorem Stage.serving (h : l.Stage .running) :
    l.pc = .read ∨ (∃ msg, l.pc = .process msg) ∨ l.pc = .ack false := by
  have hnone : ¬ ∃ m ∈ l.processed, IsStop m := by
    rintro ⟨m, hm, hstop⟩
    have hsent := h.sent
    rw [if_pos rfl] at hsent
    exact hsent m (h.flow.mem_sent hm) hstop
  have hprogress := h.progress
  unfold Progress at hprogress
  cases hpc : l.pc with
  | read => exact Or.inl rfl
  | process msg => exact Or.inr (Or.inl ⟨msg, rfl⟩)
  | ack must_stop =>
    rw [hpc] at hprogress
    cases must_stop with
    | true => exact absurd hprogress hnone
    | false => exact Or.inr (Or.inr rfl)
  | killed =>
    rw [hpc] at hprogress
    exact absurd (hprogress.symm.trans h.read_open) (by decide)
  | _ =>
    rw [hpc] at hprogress
    exact absurd hprogress hnone

theorem Stage.running_reads (h : l.Stage .running) : l.pc.reads = true := by
  rcases h.serving with hpc | ⟨msg, hpc⟩ | hpc
  all_goals
    rw [hpc]
    rfl

theorem Stage.consumer (h : l.Stage ph) (hstep : l.consumer A = some l') : l'.Stage ph := by
  have hflow' := h.flow.consumer hstep
  obtain ⟨hflow, hsent, hwrite, hread, hprogress⟩ := h
  unfold Progress at hprogress
  cases consumes_of_consumer hstep with
  | read hpc =>
    rw [hpc] at hprogress
    exact ⟨hflow', hsent, hwrite, hread, hprogress⟩
  | endOfFile hpc hdata hclosed =>
    exfalso
    -- the pipe is closed after the stop message, which is then still unread
    have hnone : ∀ m ∈ l.processed, ¬ IsStop m := by
      rw [hpc] at hprogress
      exact hprogress
    have hparts := hflow.processed_append
    rw [hpc, hdata, show ConsumerPc.read.inHand = [] from rfl, List.append_nil,
      List.append_nil] at hparts
    have hph : ph = .closed := by
      rw [hclosed] at hwrite
      exact Decidable.not_not.mp (of_decide_eq_false hwrite.symm)
    subst hph
    obtain ⟨ordinary, stop, heq, hstop, _⟩ : StopsAt l.sent := hsent
    refine hnone stop ?_ hstop
    rw [hparts, heq]
    exact List.mem_append_right _ (List.mem_singleton_self _)
  | @stop msg hpc hstop =>
    refine ⟨hflow', hsent, hwrite, hread, ?_⟩
    exact ⟨msg, List.mem_append_right _ (List.mem_singleton_self _), hstop⟩
  | @count msg hpc hstop =>
    rw [hpc] at hprogress
    have hnone : ∀ m ∈ l.processed, ¬ IsStop m := hprogress
    have hord : ¬ IsStop msg := hstop
    refine ⟨hflow', hsent, hwrite, hread, ?_⟩
    exact List.forall_mem_append.mpr ⟨hnone, List.forall_mem_singleton.mpr hord⟩
  | @ack must_stop hpc =>
    rw [hpc] at hprogress
    cases must_stop with
    | true => exact ⟨hflow', hsent, hwrite, hread, hprogress⟩
    | false => exact ⟨hflow', hsent, hwrite, hread, hprogress⟩
  | killed hpc hclosed => exact ⟨hflow', hsent, hwrite, hread, hclosed⟩
  | closeRead hpc =>
    rw [hpc] at hprogress
    exact ⟨hflow', hsent, hwrite, hread, hprogress⟩
  | closeWrite hpc =>
    rw [hpc] at hprogress
    exact ⟨hflow', hsent, hwrite, hread, hprogress⟩

theorem Stage.send {msg : Message} (h : l.Stage .running) (hsend : l.send C msg = some l') :
    l'.Stage (if IsStop msg then .stopped else .running) := by
  have hflow' := h.flow.send hsend
  obtain ⟨_, rfl⟩ := send_eq_some.mp hsend
  have hsent := h.sent
  rw [if_pos rfl] at hsent
  by_cases hstop : IsStop msg
  · rw [if_pos hstop]
    exact ⟨hflow', ⟨l.sent, msg, rfl, hstop, hsent⟩, h.write_open, h.read_open, h.progress⟩
  · rw [if_neg hstop]
    refine ⟨hflow', ?_, h.write_open, h.read_open, h.progress⟩
    rw [if_pos rfl]
    exact List.forall_mem_append.mpr ⟨hsent, List.forall_mem_singleton.mpr hstop⟩

theorem Stage.takeAck (h : l.Stage ph) (htake : l.takeAck = some l') : l'.Stage ph := by
  have hflow' := h.flow.takeAck htake
  rcases takeAck_eq_some htake with ⟨_, _, _, rfl⟩ | ⟨_, _, rfl⟩
  · exact ⟨hflow', h.sent, h.write_open, h.read_open, h.progress⟩
  · exact h

theorem Stage.closeRead (h : l.Stage .stopped) : Stage .readClosed { l with read_open := false } := by
  refine ⟨h.flow.ends l.write_open false, h.sent, h.write_open, rfl, ?_⟩
  have hprogress := h.progress
  unfold Progress at hprogress ⊢
  dsimp only
  cases hpc : l.pc with
  | killed => rfl
  | ack must_stop =>
    rw [hpc] at hprogress
    cases must_stop <;> exact hprogress
  | _ =>
    rw [hpc] at hprogress
    exact hprogress

theorem Stage.closeWrite (h : l.Stage .readClosed) : Stage .closed { l with write_open := false } :=
  ⟨h.flow.ends false l.read_open, h.sent, rfl, h.read_open, h.progress⟩

end Link

theorem index_injective {c d : Cid} (h : c.index = d.index) : c = d := by
  obtain ⟨⟨i, hi⟩, ⟨j, hj⟩⟩ := c
  obtain ⟨⟨i', hi'⟩, ⟨j', hj'⟩⟩ := d
  simp only [Cid.index, NUM_CONSUMERS_PER_GROUP] at h hj hj'
  obtain ⟨rfl, rfl⟩ : i = i' ∧ j = j' := by omega
  rfl

theorem nextConsumer_some {c d : Cid} (h : nextConsumer c = some d) : d.index = c.index + 1 := by
  unfold nextConsumer at h
  split at h
  · cases h
    simp only [Cid.index]
    omega
  · split at h
    · cases h
      have hj := c.2.isLt
      simp only [Cid.index, NUM_CONSUMERS_PER_GROUP] at *
      omega
    · cases h

theorem nextConsumer_none {c : Cid} (h : nextConsumer c = none) (d : Cid) : d.index ≤ c.index := by
  unfold nextConsumer at h
  split at h
  · cases h
  · split at h
    · cases h
    · have hi := d.1.isLt
      have hj := d.2.isLt
      have hi' := c.1.isLt
      have hj' := c.2.isLt
      simp only [Cid.index, NUM_CONSUMERS_PER_GROUP, NUM_GROUPS] at *
      omega

namespace Sys

theorem phase_finishRound (r : Round) (msg : Message) (s : Sys) (c : Cid) :
    (s.finishRound r).dispatcher.phase c = (DispatcherPc.select r msg).phase c := by
  unfold finishRound
  cases r with
  | dispatch g => rfl
  | stop d =>
    dsimp only
    cases hnext : nextConsumer d with
    | some d' =>
      dsimp only [DispatcherPc.phase]
      rw [nextConsumer_some hnext]
      simp only [Nat.lt_succ_iff]
    | none =>
      dsimp only [DispatcherPc.phase]
      rw [if_pos (nextConsumer_none hnext c)]
      exact if_neg (Nat.not_lt_zero _)

theorem phase_afterClose (c d : Cid) :
    (afterClose d).phase c = if c.index ≤ d.index then .closed else .stopped := by
  unfold afterClose
  cases hnext : nextConsumer d with
  | some d' =>
    dsimp only [DispatcherPc.phase]
    rw [nextConsumer_some hnext]
    simp only [Nat.lt_succ_iff]
  | none => exact (if_pos (nextConsumer_none hnext c)).symm

theorem phase_firstStop (msg : Message) (c : Cid) :
    (DispatcherPc.write (.stop firstConsumer) msg).phase c = .running := by
  unfold DispatcherPc.phase
  exact if_neg (show ¬ c.index < firstConsumer.index from Nat.not_lt_zero _)

theorem phase_receive (msg : Message) (mq : List Message) (s : Sys) (c : Cid) :
    (s.receive msg mq).dispatcher.phase c = .running := by
  unfold receive startStop
  dsimp only
  split
  · exact phase_firstStop _ c
  · split <;> rfl

theorem phase_write_of_ne (r : Round) (msg : Message) (cur : Fin NUM_GROUPS → Fin NUM_CONSUMERS_PER_GROUP)
    {c : Cid} (hc : c ≠ r.consumer cur) :
    (DispatcherPc.select r msg).phase c = (DispatcherPc.write r msg).phase c := by
  cases r with
  | dispatch g => rfl
  | stop d =>
    have hne : c.index ≠ d.index := fun heq => hc (index_injective heq)
    dsimp only [DispatcherPc.phase]
    simp only [Nat.le_iff_lt_or_eq, hne, or_false]

theorem phase_write_self (r : Round) (msg : Message)
    (cur : Fin NUM_GROUPS → Fin NUM_CONSUMERS_PER_GROUP) :
    (DispatcherPc.write r msg).phase (r.consumer cur) = .running := by
  cases r with
  | dispatch g => rfl
  | stop d => exact if_neg (Nat.lt_irrefl _)

theorem phase_closeRead_of_ne {c d : Cid} (hc : c ≠ d) :
    (DispatcherPc.closeWrite d).phase c = (DispatcherPc.closeRead d).phase c := by
  dsimp only [DispatcherPc.phase]
  rw [if_neg fun heq => hc (index_injective heq)]

theorem phase_closeWrite_of_ne {c d : Cid} (hc : c ≠ d) :
    (afterClose d).phase c = (DispatcherPc.closeWrite d).phase c := by
  have hne : c.index ≠ d.index := fun heq => hc (index_injective heq)
  rw [phase_afterClose]
  dsimp only [DispatcherPc.phase]
  simp only [Nat.le_iff_lt_or_eq, hne, or_false, if_false]

theorem phase_closeRead_self (d : Cid) : (DispatcherPc.closeRead d).phase d = .stopped :=
  if_neg (Nat.lt_irrefl _)

theorem phase_closeWrite_self (d : Cid) : (DispatcherPc.closeWrite d).phase d = .readClosed :=
  (if_neg (Nat.lt_irrefl _)).trans (if_pos rfl)

/-- The dispatcher is about to send what its round is for, and has not been killed. -/
def Sends (pc : DispatcherPc) : Prop :=
  match pc with
  | .write r msg => IsStop msg ↔ ∃ c, r = .stop c
  | .killed => False
  | _ => True

theorem sends_finishRound (r : Round) (s : Sys) : Sends (s.finishRound r).dispatcher := by
  unfold finishRound
  cases r with
  | dispatch g => trivial
  | stop d =>
    dsimp only
    split
    · exact ⟨fun _ => ⟨_, rfl⟩, fun _ => rfl⟩
    · trivial

theorem sends_receive (msg : Message) (mq : List Message) (s : Sys) :
    Sends (s.receive msg mq).dispatcher := by
  unfold receive startStop
  dsimp only
  split
  · exact ⟨fun _ => ⟨_, rfl⟩, fun _ => rfl⟩
  · rename_i hstop
    split
    · refine ⟨fun h => absurd h hstop, ?_⟩
      rintro ⟨c, hc⟩
      cases hc
    · trivial

theorem sends_afterClose (d : Cid) : Sends (afterClose d) := by
  unfold afterClose
  split <;> trivial

structure Staged (s : Sys) : Prop where
  stage : ∀ c, (s.links c).Stage (s.dispatcher.phase c)
  sends : Sends s.dispatcher

theorem Staged.start (mq : List Message) (stop_msg : Message) (ack_msg : Cid → Message) :
    (Sys.start mq stop_msg ack_msg).Staged := by
  refine ⟨?_, trivial⟩
  intro c
  refine ⟨.start _, ?_, rfl, rfl, ?_⟩
  · intro m hm
    cases hm
  · intro m hm
    cases hm

theorem Staged.setLink {s : Sys} (h : s.Staged) {pc : DispatcherPc} (hsends : Sends pc) {c : Cid}
    {l : Link} (hl : l.Stage (pc.phase c))
    (hother : ∀ d, d ≠ c → pc.phase d = s.dispatcher.phase d) :
    Staged { s.setLink c l with dispatcher := pc } := by
  refine ⟨?_, hsends⟩
  intro d
  apply setLink_cases (P := Link.Stage (pc.phase d))
  · rintro rfl
    exact hl
  · intro hd
    rw [hother d hd]
    exact h.stage d

theorem Staged.step {C A : Nat} {lab : Label} {s t : Sys} (h : s.Staged)
    (hstep : Sys.step C A lab s = some t) : t.Staged := by
  cases moves_of_step hstep with
  | enqueue => exact ⟨h.stage, h.sends⟩
  | receive hpc =>
    refine ⟨?_, sends_receive _ _ _⟩
    intro c
    rw [phase_receive, receive_links]
    have hstage := h.stage c
    rw [hpc] at hstage
    exact hstage
  | again => exact h
  | leave hpc =>
    refine ⟨?_, ⟨fun _ => ⟨_, rfl⟩, fun _ => rfl⟩⟩
    intro c
    have hstage := h.stage c
    rw [hpc] at hstage
    rw [show s.startStop.dispatcher.phase c = .running from phase_firstStop _ c]
    exact hstage
  | @write r msg l hpc _ hl =>
    have hstage := h.stage (r.consumer s.current_consumer)
    have hsends := h.sends
    rw [hpc] at hsends
    rw [hpc, phase_write_self] at hstage
    refine h.setLink ?_ ?_ ?_
    · trivial
    · cases r with
      | dispatch g =>
        have hord : ¬ IsStop msg := fun hstop => by
          obtain ⟨c, hc⟩ := hsends.mp hstop
          cases hc
        have hsent := hstage.send hl
        rw [if_neg hord] at hsent
        exact hsent
      | stop d =>
        have hstopped : (DispatcherPc.select (.stop d) msg).phase d = .stopped :=
          if_pos (Nat.le_refl _)
        have hsent := hstage.send hl
        rw [if_pos (hsends.mpr ⟨d, rfl⟩), ← hstopped] at hsent
        exact hsent
    · intro c hc
      rw [hpc]
      exact phase_write_of_ne r msg s.current_consumer hc
  | @die r msg hpc hreads =>
    exfalso
    have hstage := h.stage (r.consumer s.current_consumer)
    rw [hpc, phase_write_self] at hstage
    rw [hstage.running_reads] at hreads
    cases hreads
  | @ready r msg hpc =>
    refine ⟨?_, trivial⟩
    intro c
    have hstage := h.stage c
    rw [hpc] at hstage
    cases r with
    | dispatch g => exact hstage
    | stop d => exact hstage
  | @giveUp r msg o hpc =>
    refine ⟨?_, sends_finishRound _ _⟩
    intro c
    rw [phase_finishRound r msg, finishRound_links, ← hpc]
    exact h.stage c
  | @readAck r msg l hpc hl =>
    refine ⟨?_, sends_finishRound _ _⟩
    intro c
    have hphase : ∀ d, (DispatcherPc.select r msg).phase d = s.dispatcher.phase d := by
      intro d
      rw [hpc]
      cases r with
      | dispatch g => rfl
      | stop d => rfl
    rw [phase_finishRound r msg, finishRound_links, hphase]
    apply setLink_cases (P := Link.Stage (s.dispatcher.phase c))
    · rintro rfl
      exact (h.stage _).takeAck hl
    · exact fun _ => h.stage c
  | @closeRead d hpc =>
    have hstage := h.stage d
    rw [hpc, phase_closeRead_self] at hstage
    refine h.setLink ?_ ?_ ?_
    · trivial
    · rw [phase_closeWrite_self]
      exact hstage.closeRead
    · intro c hc
      rw [hpc]
      exact phase_closeRead_of_ne hc
  | @closeWrite d hpc =>
    have hstage := h.stage d
    rw [hpc, phase_closeWrite_self] at hstage
    refine h.setLink (sends_afterClose d) ?_ ?_
    · rw [phase_afterClose, if_pos (Nat.le_refl _)]
      exact hstage.closeWrite
    · intro c hc
      rw [hpc]
      exact phase_closeWrite_of_ne hc
  | @consumer c l hl =>
    have hset := h.setLink h.sends ((h.stage c).consumer hl) fun _ _ => rfl
    exact ⟨hset.stage, hset.sends⟩

theorem staged_of_run {C A : Nat} {mq : List Message} {stop_msg : Message}
    {ack_msg : Cid → Message} {ls : List Label} {s : Sys}
    (hrun : exec (step C A) ls (Sys.start mq stop_msg ack_msg) = some s) : s.Staged :=
  exec_invariant (fun _ _ _ h hstep => h.step hstep) (Staged.start mq stop_msg ack_msg) hrun

end Sys

end Naarad.Dispatch
