import Naarad.Dispatch.Phases

/-!
# Which message an acknowledgement is for

An acknowledgement does not say which message it is for. As long as the dispatcher has read one for
every message it has sent to a consumer, the next one it reads is for the message of the round; once
it has given up on one, every later round with that consumer can be ended by an older one.
-/

set_option autoImplicit false

namespace Naarad.Dispatch

open LabelledRun

def LastSent (links : Cid → Link) (cur : Fin NUM_GROUPS → Fin NUM_CONSUMERS_PER_GROUP) :
    DispatcherPc → Prop
  | .select r msg | .readAck r msg =>
    ∃ earlier, (links (r.consumer cur)).sent = earlier ++ [msg]
  | _ => True

theorem LastSent.of_sent {links links' : Cid → Link}
    {cur : Fin NUM_GROUPS → Fin NUM_CONSUMERS_PER_GROUP} {pc : DispatcherPc}
    (h : LastSent links cur pc) (hsent : ∀ c, (links' c).sent = (links c).sent) :
    LastSent links' cur pc := by
  cases pc with
  | select r msg =>
    obtain ⟨earlier, heq⟩ := h
    exact ⟨earlier, (hsent _).trans heq⟩
  | readAck r msg =>
    obtain ⟨earlier, heq⟩ := h
    exact ⟨earlier, (hsent _).trans heq⟩
  | _ => trivial

namespace Sys

variable {C A : Nat} {lab : Label} {s t : Sys} {c : Cid}

def RoundSent (s : Sys) : Prop := LastSent s.links s.current_consumer s.dispatcher

theorem roundSent_finishRound (r : Round) (s : Sys) : (s.finishRound r).RoundSent := by
  unfold finishRound
  cases r with
  | dispatch g => trivial
  | stop d =>
    unfold RoundSent
    dsimp only
    split <;> trivial

theorem RoundSent.step (h : s.RoundSent) (hstep : Sys.step C A lab s = some t) : t.RoundSent := by
  unfold RoundSent at h
  cases moves_of_step hstep with
  | enqueue => exact h
  | receive =>
    unfold RoundSent receive
    dsimp only
    split
    · trivial
    · split <;> trivial
  | again => exact h
  | leave => trivial
  | @write r msg l _ _ hl =>
    refine ⟨(s.links (r.consumer s.current_consumer)).sent, ?_⟩
    rw [← Link.send_sent hl]
    exact congrArg Link.sent (setLink_self s _ l)
  | die => trivial
  | ready hpc =>
    rw [hpc] at h
    exact h
  | giveUp => exact roundSent_finishRound _ _
  | readAck => exact roundSent_finishRound _ _
  | closeRead => trivial
  | closeWrite =>
    unfold RoundSent afterClose
    dsimp only
    split <;> trivial
  | consumer hl => exact LastSent.of_sent h (update_sent (Link.consumer_sent hl))

/-- If the dispatcher is about to read an acknowledgement of `c`, then `c` has processed the message
that this round sent to it. -/
def AckMatches (c : Cid) (s : Sys) : Prop :=
  ∀ r msg a acks, s.dispatcher = .readAck r msg → r.consumer s.current_consumer = c →
    (s.links c).acks = a :: acks → a.op = ACK_MESSAGE →
    ∃ earlier, (s.links c).sent = earlier ++ [msg] ∧ (s.links c).processed = earlier ++ [msg]

end Sys

namespace Link

/-- The acknowledgement of the round is the only one that can be outstanding. -/
def Prompt (awaited : Bool) (l : Link) : Prop :=
  if awaited then l.owed ≤ 1 else l.owed = 0 ∨ l.pc.writes = false

theorem Prompt.step {C A : Nat} {lab : Label} {s t : Sys} {c : Cid}
    (h : (s.links c).Prompt (s.awaits = some c)) (hkeeps : ¬ Sys.GivesUpOn c lab s)
    (hstep : Sys.step C A lab s = some t) : (t.links c).Prompt (t.awaits = some c) := by
  apply Sys.link_step (P := Prompt) c _ _ _ _ _ _ h hstep
  · intro l l' msg hl hreads hsend
    rcases hl with hzero | hwrites
    · exact Nat.le_of_eq ((owed_send hsend).trans (congrArg (· + 1) hzero))
    · rw [ConsumerPc.writes_of_reads hreads] at hwrites
      cases hwrites
  · intro l l' hl htake
    rcases takeAck_eq_some htake with ⟨a, acks, hacks, rfl⟩ | ⟨_, hwrites, rfl⟩
    · apply Or.inl
      have hle : l.owed ≤ 1 := hl
      simp only [owed, hacks, List.length_cons] at hle ⊢
      omega
    · exact Or.inr hwrites
  · intro hgives
    exact absurd hgives hkeeps
  · intro b l l' hl hconsume
    have hle := (owed_consumer hconsume).1
    cases b with
    | true => exact Nat.le_trans hle hl
    | false =>
      rcases hl with hzero | hwrites
      · exact Or.inl (by omega)
      · rw [consumer_of_gone hwrites] at hconsume
        cases hconsume
  · intro l hl
    exact hl
  · intro l hl
    exact hl

theorem all_processed_of_prompt {l : Link} (h : l.Prompt true) (hflow : l.Flow)
    (hacks : l.acks ≠ []) : l.processed = l.sent := by
  have hle : l.owed ≤ 1 := h
  have hpos := List.length_pos_iff.mpr hacks
  unfold owed at hle
  have hdata : l.data = [] := List.length_eq_zero_iff.mp (by omega)
  have howes : l.pc.owes = 0 := by omega
  have hhand : l.pc.inHand = [] := by
    cases hpc : l.pc with
    | process msg =>
      rw [hpc] at howes
      cases howes
    | _ => rfl
  have hparts := hflow.processed_append
  rw [hdata, hhand, List.append_nil, List.append_nil] at hparts
  exact hparts

/-- Since the dispatcher has given up on an acknowledgement, there is one more outstanding than the
round accounts for. -/
def Behind (awaited : Bool) (l : Link) : Prop :=
  l.read_open = true → (if awaited then 2 else 1) ≤ l.owed

def Awaited (awaited : Bool) (l : Link) : Prop :=
  awaited = true → l.read_open = true → 1 ≤ l.owed

theorem read_open_consumer {A : Nat} {l l' : Link} (h : l.consumer A = some l') :
    l'.read_open = l.read_open := by
  cases consumes_of_consumer h <;> rfl

theorem Behind.step {C A : Nat} {lab : Label} {s t : Sys} {c : Cid}
    (h : (s.links c).Behind (s.awaits = some c)) (hstep : Sys.step C A lab s = some t) :
    (t.links c).Behind (t.awaits = some c) := by
  apply Sys.link_step (P := Behind) c _ _ _ _ _ _ h hstep
  · intro l l' msg hl _ hsend hopen
    have howed := owed_send hsend
    obtain ⟨_, rfl⟩ := send_eq_some.mp hsend
    have hle := hl hopen
    rw [howed]
    exact Nat.succ_le_succ hle
  · intro l l' hl htake hopen
    rcases takeAck_eq_some htake with ⟨a, acks, hacks, rfl⟩ | ⟨_, _, rfl⟩
    · have hle := hl hopen
      simp only [owed, hacks, List.length_cons, if_true, Bool.false_eq_true, if_false] at hle ⊢
      omega
    · exact Nat.le_trans (by decide) (hl hopen)
  · intro _ _ hl hopen
    exact Nat.le_trans (by decide) (hl hopen)
  · intro b l l' hl hconsume hopen
    rw [read_open_consumer hconsume] at hopen
    rw [(owed_consumer hconsume).2 hopen]
    exact hl hopen
  · intro l hl hopen
    cases hopen
  · intro l hl
    exact hl

theorem Awaited.step {C A : Nat} {lab : Label} {s t : Sys} {c : Cid}
    (h : (s.links c).Awaited (s.awaits = some c)) (hstep : Sys.step C A lab s = some t) :
    (t.links c).Awaited (t.awaits = some c) := by
  apply Sys.link_step (P := Awaited) c _ _ _ _ _ _ h hstep
  · intro l l' msg _ _ hsend _ _
    rw [owed_send hsend]
    exact Nat.succ_le_succ (Nat.zero_le _)
  · intro l l' _ _ hfalse
    cases hfalse
  · intro _ _ _ hfalse
    cases hfalse
  · intro b l l' hl hconsume hb hopen
    rw [read_open_consumer hconsume] at hopen
    rw [(owed_consumer hconsume).2 hopen]
    exact hl hb hopen
  · intro l _ hfalse
    cases hfalse
  · intro l _ hfalse
    cases hfalse

end Link

namespace Sys

theorem givesUp_step {C A : Nat} {lab : Label} {s t : Sys} {c : Cid} (h : GivesUpOn c lab s)
    (hstep : step C A lab s = some t) : t.links = s.links ∧ t.awaits = none := by
  obtain ⟨hselecting, _, hlab⟩ := h
  have hnot : lab ≠ .dispatcher .ok := by
    rcases hlab with rfl | rfl <;> decide
  cases moves_of_step hstep with
  | giveUp => exact ⟨finishRound_links _ _, awaits_finishRound _ _⟩
  | enqueue => rcases hlab with hlab | hlab <;> cases hlab
  | consumer => rcases hlab with hlab | hlab <;> cases hlab
  | again hpc =>
    rw [hpc] at hselecting
    cases hselecting
  | leave hpc =>
    rw [hpc] at hselecting
    cases hselecting
  | _ => exact absurd rfl hnot

theorem behind_of_givesUp {C A : Nat} {lab : Label} {s t : Sys} {c : Cid}
    (h : (s.links c).Awaited (s.awaits = some c)) (hgives : GivesUpOn c lab s)
    (hstep : step C A lab s = some t) : (t.links c).Behind (t.awaits = some c) := by
  obtain ⟨hlinks, hawaits⟩ := givesUp_step hgives hstep
  intro hopen
  rw [hawaits, hlinks]
  exact h (decide_eq_true hgives.2.1) (hlinks ▸ hopen)

theorem behind_of_run {C A : Nat} {ls : List Label} {s t : Sys} {c : Cid}
    (h : (s.links c).Awaited (s.awaits = some c)) (hrun : exec (step C A) ls s = some t)
    (hgives : ¬ Along (step C A) (fun lab s => ¬ GivesUpOn c lab s) ls s) :
    (t.links c).Behind (t.awaits = some c) := by
  induction ls generalizing s with
  | nil => exact absurd trivial hgives
  | cons lab ls ih =>
    obtain ⟨u, hu, hrest⟩ := exec_cons.mp hrun
    by_cases hlab : GivesUpOn c lab s
    · exact exec_invariant (P := fun v : Sys => (v.links c).Behind (v.awaits = some c))
        (fun _ _ _ hv hs => hv.step hs) (behind_of_givesUp h hlab hu) hrest
    · refine ih (h.step hu) hrest fun hrest => hgives ⟨hlab, ?_⟩
      rw [hu]
      exact hrest

/-- The consumer `c` can come to write an acknowledgement with a message still unread. -/
def Overdue (C A : Nat) (c : Cid) (s : Sys) : Prop :=
  ∃ k u, exec (step C A) (List.replicate k (.consumer c)) s = some u ∧
    u.dispatcher = s.dispatcher ∧ u.current_consumer = s.current_consumer ∧
    (u.links c).acks ≠ [] ∧ (u.links c).data ≠ []

variable {C A : Nat} {s : Sys} {c : Cid}

theorem Overdue.of_step {l : Link} (hl : (s.links c).consumer A = some l)
    (h : (s.setLink c l).Overdue C A c) : s.Overdue C A c := by
  obtain ⟨k, u, hrun, hpc, hcur, hu⟩ := h
  refine ⟨k + 1, u, ?_, hpc, hcur, hu⟩
  rw [List.replicate_succ]
  exact exec_cons.mpr ⟨s.setLink c l, Option.map_eq_some_iff.mpr ⟨l, hl, rfl⟩, hrun⟩

theorem overdue_of_ack {must_stop : Bool} (hA : 1 ≤ A) (hpc : (s.links c).pc = .ack must_stop)
    (hopen : (s.links c).read_open = true) (hdata : (s.links c).data ≠ []) :
    s.Overdue C A c := by
  cases hacks : (s.links c).acks with
  | cons a acks => exact ⟨0, s, rfl, rfl, rfl, by rw [hacks]; simp, hdata⟩
  | nil =>
    have hl : (s.links c).consumer A = some { s.links c with
        ack_msg := { (s.links c).ack_msg with op := ACK_MESSAGE }
        acks := [{ (s.links c).ack_msg with op := ACK_MESSAGE }]
        pc := if must_stop then .closeRead else .read } := by
      simp only [Link.consumer, hpc, hopen, hacks, if_true, List.length_nil, List.nil_append,
        Nat.lt_of_succ_le hA]
    refine .of_step hl ⟨0, _, rfl, rfl, rfl, ?_, ?_⟩
    · rw [setLink_self]
      exact List.cons_ne_nil _ _
    · rw [setLink_self]
      exact hdata

theorem overdue_of_process {msg : Message} (hA : 1 ≤ A) (hpc : (s.links c).pc = .process msg)
    (hopen : (s.links c).read_open = true) (hdata : (s.links c).data ≠ []) :
    s.Overdue C A c := by
  obtain ⟨l, hl, must_stop, hack, hopen', hdata'⟩ : ∃ l, (s.links c).consumer A = some l ∧
      ∃ must_stop, l.pc = .ack must_stop ∧ l.read_open = true ∧ l.data ≠ [] := by
    unfold Link.consumer
    rw [hpc]
    by_cases hstop : msg.op = STOP_MESSAG
    · exact ⟨_, if_pos hstop, true, rfl, hopen, hdata⟩
    · exact ⟨_, if_neg hstop, false, rfl, hopen, hdata⟩
  apply Overdue.of_step hl
  refine overdue_of_ack hA (?_ : _ = ConsumerPc.ack must_stop) ?_ ?_
  all_goals
    rw [setLink_self]
    assumption

theorem overdue_of_read {msg : Message} {data : List Message} (hA : 1 ≤ A)
    (hpc : (s.links c).pc = .read) (hopen : (s.links c).read_open = true)
    (hdata : (s.links c).data = msg :: data) (hmore : data ≠ []) : s.Overdue C A c := by
  have hl : (s.links c).consumer A = some { s.links c with
      data := data
      got := (s.links c).got ++ [msg]
      pc := .process msg } := by
    simp only [Link.consumer, hpc, hdata]
  apply Overdue.of_step hl
  refine overdue_of_process hA (?_ : _ = ConsumerPc.process msg) ?_ ?_
  · rw [setLink_self]
  · rw [setLink_self]
    exact hopen
  · rw [setLink_self]
    exact hmore

theorem overdue_of_serving (hA : 1 ≤ A)
    (hserving : (s.links c).pc = .read ∨ (∃ msg, (s.links c).pc = .process msg) ∨
      (s.links c).pc = .ack false)
    (hopen : (s.links c).read_open = true) (howed : 2 ≤ (s.links c).owed)
    (hdata : (s.links c).data ≠ []) : s.Overdue C A c := by
  rcases hserving with hread | ⟨m, hprocess⟩ | hack
  · cases hacks : (s.links c).acks with
    | cons a acks => exact ⟨0, s, rfl, rfl, rfl, hacks ▸ List.cons_ne_nil _ _, hdata⟩
    | nil =>
      -- nothing to read yet: the message that is owed lies before the new one
      rw [Link.owed, hread, hacks] at howed
      cases hcons : (s.links c).data with
      | nil => exact absurd hcons hdata
      | cons m data =>
        rw [hcons] at howed
        apply overdue_of_read hA hread hopen hcons
        exact List.ne_nil_of_length_pos (Nat.le_of_succ_le_succ howed)
  · exact overdue_of_process hA hprocess hopen hdata
  · exact overdue_of_ack hA hack hopen hdata

theorem overdue_of_write {t : Sys} {r : Round} {msg : Message} (hA : 1 ≤ A) (hstaged : s.Staged)
    (hbehind : (s.links c).Behind (s.awaits = some c)) (hpc : s.dispatcher = .write r msg)
    (hc : r.consumer s.current_consumer = c) (hstep : step C A (.dispatcher .ok) s = some t) :
    t.Overdue C A c ∧ t.dispatcher = .select r msg ∧ r.consumer t.current_consumer = c := by
  have hstage := hstaged.stage (r.consumer s.current_consumer)
  rw [hpc, phase_write_self, hc] at hstage
  have howed : 1 ≤ (s.links c).owed := by
    have hle := hbehind hstage.read_open
    rw [awaits_of_pc hpc] at hle
    exact hle
  simp only [step, dispatch, hpc, hc, hstage.running_reads, if_true] at hstep
  obtain ⟨l, hl, rfl⟩ := Option.map_eq_some_iff.mp hstep
  have hgrown : 2 ≤ l.owed := by
    rw [Link.owed_send hl]
    exact Nat.succ_le_succ howed
  obtain ⟨_, heq⟩ := Link.send_eq_some.mp hl
  refine ⟨?_, rfl, hc⟩
  apply overdue_of_serving hA
  all_goals
    dsimp only
    rw [setLink_self]
  · rw [heq]
    exact hstage.serving
  · rw [heq]
    exact hstage.read_open
  · exact hgrown
  · rw [heq]
    exact List.append_ne_nil_of_right_ne_nil _ (List.cons_ne_nil _ _)

theorem Overdue.mismatch {r : Round} {msg : Message} (h : s.Overdue C A c) (hstaged : s.Staged)
    (hpc : s.dispatcher = .select r msg) (hc : r.consumer s.current_consumer = c) :
    ∃ ks u, exec (step C A) ks s = some u ∧ ¬ u.AckMatches c := by
  obtain ⟨k, u, hrun, hpc', hcur, hacks, hdata⟩ := h
  have hflow : (u.links c).Flow := (exec_invariant (P := Staged)
    (fun _ _ _ hs hstep => hs.step hstep) hstaged hrun).stage c |>.flow
  rw [hpc] at hpc'
  obtain ⟨a, acks, hcons⟩ := List.exists_cons_of_ne_nil hacks
  refine ⟨List.replicate k (.consumer c) ++ [.dispatcher .ok],
    { u with dispatcher := .readAck r msg }, ?_, ?_⟩
  · refine exec_append_some.mpr ⟨u, hrun, exec_cons.mpr ⟨_, ?_, rfl⟩⟩
    have hready : (u.links (r.consumer u.current_consumer)).readable = true := by
      rw [hcur, hc, Link.readable, hcons]
      rfl
    simp only [step, dispatch, hpc', hready, if_true]
  · intro hmatches
    obtain ⟨earlier, hsent, hprocessed⟩ := hmatches r msg a acks rfl (hcur ▸ hc) hcons
      (hflow.acks_op a (hcons ▸ List.mem_cons_self))
    have hparts := hflow.processed_append
    dsimp only at hsent hprocessed
    rw [hsent, hprocessed] at hparts
    have hnil := List.append_right_eq_self.mp hparts
    exact hdata (List.append_eq_nil_iff.mp hnil).2

/-- The dispatcher does not end its wait for `c` without an acknowledgement in this step. -/
def WaitsFor (c : Cid) (lab : Label) (s : Sys) : Prop := ¬ GivesUpOn c lab s

instance (c : Cid) (lab : Label) (s : Sys) : Decidable (WaitsFor c lab s) :=
  inferInstanceAs (Decidable (¬ _))

end Sys

/-- As long as the dispatcher has never given up on an acknowledgement of `c`, each one it reads is
for the message of its round; afterwards every message it sends to `c` can be taken for processed
before it is. -/
theorem acks_match {C A : Nat} {mq : List Message} {stop_msg : Message} {ack_msg : Cid → Message}
    {ls : List Label} {s : Sys} (hA : 1 ≤ A)
    (hrun : exec (Sys.step C A) ls (.start mq stop_msg ack_msg) = some s) (c : Cid) :
    (Along (Sys.step C A) (Sys.WaitsFor c) ls (.start mq stop_msg ack_msg) → s.AckMatches c) ∧
    (¬ Along (Sys.step C A) (Sys.WaitsFor c) ls (.start mq stop_msg ack_msg) →
      ∀ r msg t, s.dispatcher = .write r msg → r.consumer s.current_consumer = c →
        Sys.step C A (.dispatcher .ok) s = some t →
        ∃ ks u, exec (Sys.step C A) ks t = some u ∧ ¬ u.AckMatches c) := by
  have hstaged := Sys.staged_of_run hrun
  constructor
  · intro hwaits r msg a acks hpc hc hacks _
    have hprompt : (s.links c).Prompt (s.awaits = some c) := by
      apply exec_induct (P := fun v : Sys => (v.links c).Prompt (v.awaits = some c)) _ _ hwaits hrun
      · intro lab v w h hkeeps hstep
        exact h.step hkeeps hstep
      · exact Or.inl rfl
    have hround : s.RoundSent := by
      apply exec_invariant (P := Sys.RoundSent) _ _ hrun
      · intro lab v w h hstep
        exact h.step hstep
      · trivial
    have hawaits : s.awaits = some c := (Sys.awaits_of_pc hpc).trans (congrArg some hc)
    rw [decide_eq_true hawaits] at hprompt
    unfold Sys.RoundSent at hround
    rw [hpc] at hround
    obtain ⟨earlier, hsent⟩ := hround
    rw [hc] at hsent
    refine ⟨earlier, hsent, ?_⟩
    rw [← hsent]
    exact Link.all_processed_of_prompt hprompt (hstaged.stage c).flow (by rw [hacks]; simp)
  · intro hgives r msg t hpc hc hstep
    have hbehind := Sys.behind_of_run (c := c) (fun hfalse => by cases hfalse) hrun hgives
    obtain ⟨hoverdue, hselect, hc'⟩ := Sys.overdue_of_write hA hstaged hbehind hpc hc hstep
    exact hoverdue.mismatch (hstaged.step hstep) hselect hc'

/-- Both consumers of the first group answer in time, a message of another group comes between, and
the first consumer has acknowledged its second message. -/
def promptRun : List Label :=
  roundTrip Message.zero firstConsumer ++ roundTrip (bareMessage 0 1) secondConsumer ++
    roundTrip (bareMessage 2 0) otherGroup ++ (roundTrip (bareMessage 0 2) firstConsumer).take 7

theorem acks_match_prompt : ∃ s, exec (Sys.step 1 1) promptRun firstStart = some s ∧
    s.dispatcher = .readAck (.dispatch firstConsumer.1) (bareMessage 0 2) ∧
    (s.links firstConsumer).sent = [Message.zero, bareMessage 0 2] ∧
    s.AckMatches firstConsumer := by
  refine ⟨_, rfl, rfl, rfl, ?_⟩
  exact (acks_match (A := 1) (Nat.le_refl 1)
    (show exec (Sys.step 1 1) promptRun firstStart = some _ from rfl) firstConsumer).1 (by decide)

/-- The first acknowledgement times out; it arrives in the round of the third message, which goes to
the same consumer. -/
def staleRun : List Label :=
  timedOutRound ++ timedOutRound ++
    [.enqueue Message.zero, .dispatcher .ok, .dispatcher .ok, .consumer firstConsumer,
      .consumer firstConsumer, .consumer firstConsumer, .dispatcher .ok]

/-- The acknowledgement that the dispatcher takes for that of the third message is the first's. -/
theorem stale_ack : ∃ s, exec (Sys.step 2 1) staleRun firstStart = some s ∧
    s.dispatcher = .readAck (.dispatch firstConsumer.1) Message.zero ∧
    (s.links firstConsumer).acks.length = 1 ∧ ¬ s.AckMatches firstConsumer := by
  have hstale : (exec (Sys.step 2 1) staleRun firstStart).map (fun s =>
      (s.dispatcher, s.current_consumer firstConsumer.1, (s.links firstConsumer).acks.length,
        (s.links firstConsumer).sent.length, (s.links firstConsumer).processed.length)) =
      some (.readAck (.dispatch firstConsumer.1) Message.zero, firstConsumer.2, 1, 2, 1) := by
    decide +kernel
  obtain ⟨s, hrun, hstale⟩ := Option.map_eq_some_iff.mp hstale
  simp only [Prod.mk.injEq] at hstale
  obtain ⟨hpc, hcur, hacks, hsent, hprocessed⟩ := hstale
  refine ⟨s, hrun, hpc, hacks, ?_⟩
  intro hmatches
  obtain ⟨a, hacks⟩ := List.length_eq_one_iff.mp hacks
  have hop := ((Sys.staged_of_run hrun).stage firstConsumer).flow.acks_op a
    (hacks ▸ List.mem_singleton_self a)
  obtain ⟨earlier, hsame, hdone⟩ :=
    hmatches _ _ a [] hpc (congrArg (Prod.mk firstConsumer.1) hcur) hacks hop
  rw [hdone, ← hsame, hsent] at hprocessed
  cases hprocessed

end Naarad.Dispatch
