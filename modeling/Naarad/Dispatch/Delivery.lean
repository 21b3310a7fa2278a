import Naarad.Dispatch.Rounds
import Naarad.Lib.RoundRobin

/-!
# Every message reaches the consumer whose turn it is

The dispatcher deals the messages of a group to its consumers in turn, whether or not their
acknowledgements arrive in time. Each link then keeps what it was dealt in order.
-/

set_option autoImplicit false

namespace Naarad.Dispatch

open Function (update)
open LabelledRun RoundRobin

def group (g : Fin NUM_GROUPS) (xs : List Message) : List Message :=
  xs.filter fun m => m.category.toNat = g.val

theorem group_concat_self {g : Fin NUM_GROUPS} {msg : Message} (xs : List Message)
    (h : msg.category.toNat = g.val) : group g (xs ++ [msg]) = group g xs ++ [msg] := by
  simp [group, List.filter_append, h]

theorem group_concat_other {g : Fin NUM_GROUPS} {msg : Message} (xs : List Message)
    (h : msg.category.toNat ≠ g.val) : group g (xs ++ [msg]) = group g xs := by
  simp [group, List.filter_append, h]

variable {links links' : Cid → Link} {cur : Fin NUM_GROUPS → Fin NUM_CONSUMERS_PER_GROUP}
  {received xs ys : List Message}

/-- `xs` has been dealt to the links, and the turns are those after `ys`. -/
structure Dealt (xs ys : List Message) (links : Cid → Link)
    (cur : Fin NUM_GROUPS → Fin NUM_CONSUMERS_PER_GROUP) : Prop where
  sent : ∀ c : Cid, (links c).sent = share NUM_CONSUMERS_PER_GROUP c.2.val (group c.1 xs)
  turn : ∀ g, (cur g).val = (group g ys).length % NUM_CONSUMERS_PER_GROUP

theorem Dealt.of_sent (h : Dealt xs ys links cur)
    (hsent : ∀ c, (links' c).sent = (links c).sent) : Dealt xs ys links' cur := by
  refine ⟨?_, h.turn⟩
  intro c
  rw [hsent, h.sent]

/-- Where the dealing of what was received stands at each place of the loop. -/
def DealtAt (received : List Message) (links : Cid → Link)
    (cur : Fin NUM_GROUPS → Fin NUM_CONSUMERS_PER_GROUP) : DispatcherPc → Prop
  | .receive => Dealt received received links cur
  | .write (.dispatch g) msg =>
    ∃ xs, received = xs ++ [msg] ∧ msg.category.toNat = g.val ∧ Dealt xs xs links cur
  | .select (.dispatch g) msg | .readAck (.dispatch g) msg =>
    ∃ xs, received = xs ++ [msg] ∧ msg.category.toNat = g.val ∧ Dealt received xs links cur
  | _ => True

theorem DealtAt.of_sent {pc : DispatcherPc} (h : DealtAt received links cur pc)
    (hsent : ∀ c, (links' c).sent = (links c).sent) : DealtAt received links' cur pc := by
  unfold DealtAt at h ⊢
  split <;> try trivial
  · exact h.of_sent hsent
  all_goals
    obtain ⟨xs, hxs, hcat, hd⟩ := h
    exact ⟨xs, hxs, hcat, hd.of_sent hsent⟩

theorem Dealt.send {C : Nat} {g : Fin NUM_GROUPS} {msg : Message} {l : Link}
    (h : Dealt xs xs links cur) (hcat : msg.category.toNat = g.val)
    (hsend : (links (g, cur g)).send C msg = some l) :
    Dealt (xs ++ [msg]) xs (update links (g, cur g) l) cur := by
  refine ⟨?_, h.turn⟩
  rintro ⟨g', j⟩
  by_cases hg : g' = g
  · subst hg
    rw [group_concat_self xs hcat]
    by_cases hj : j = cur g'
    · subst hj
      rw [Function.update_self, Link.send_sent hsend, h.sent,
        share_concat_self msg (h.turn g').symm]
    · have hne : (group g' xs).length % NUM_CONSUMERS_PER_GROUP ≠ j.val := by
        rw [← h.turn g']
        exact fun heq => hj (Fin.ext heq.symm)
      rw [Function.update_of_ne fun heq => hj (Prod.mk.inj heq).2, h.sent,
        share_concat_other msg hne]
  · have hne : msg.category.toNat ≠ g'.val := fun heq => hg (Fin.ext (heq.symm.trans hcat))
    rw [Function.update_of_ne fun heq => hg (Prod.mk.inj heq).1, h.sent,
      group_concat_other xs hne]

theorem Dealt.advance {g : Fin NUM_GROUPS} {msg : Message} (h : Dealt (xs ++ [msg]) xs links cur)
    (hcat : msg.category.toNat = g.val) :
    Dealt (xs ++ [msg]) (xs ++ [msg]) links (update cur g (Sys.advance (cur g))) := by
  refine ⟨h.sent, ?_⟩
  intro g'
  by_cases hg : g' = g
  · subst hg
    rw [Function.update_self, Sys.advance_val, h.turn, group_concat_self xs hcat, List.length_append,
      List.length_singleton]
    exact Nat.mod_add_mod _ _ _
  · have hne : msg.category.toNat ≠ g'.val := fun heq => hg (Fin.ext (heq.symm.trans hcat))
    rw [Function.update_of_ne hg, h.turn, group_concat_other xs hne]

def Sys.InTurn (s : Sys) : Prop := DealtAt s.received s.links s.current_consumer s.dispatcher

theorem Sys.InTurn.finishRound {s : Sys} {r : Round} {msg : Message}
    (h : DealtAt s.received s.links s.current_consumer (.readAck r msg)) :
    (s.finishRound r).InTurn := by
  cases r with
  | dispatch g =>
    obtain ⟨xs, hxs, hcat, hd⟩ := h
    rw [hxs] at hd
    have hnext := hd.advance hcat
    rw [← hxs] at hnext
    exact hnext
  | stop c =>
    unfold InTurn Sys.finishRound
    dsimp only
    split <;> trivial

theorem Sys.InTurn.receive {s : Sys}
    (h : Dealt s.received s.received s.links s.current_consumer) (msg : Message)
    (mq : List Message) : (s.receive msg mq).InTurn := by
  unfold InTurn Sys.receive
  dsimp only
  split
  · trivial
  · split
    · exact ⟨s.received, rfl, rfl, h⟩
    · trivial

theorem Sys.InTurn.step {C A : Nat} {lab : Label} {s t : Sys} (h : s.InTurn)
    (hstep : Sys.step C A lab s = some t) : t.InTurn := by
  unfold InTurn at h
  cases Sys.moves_of_step hstep with
  | enqueue => exact h
  | receive hpc =>
    rw [hpc] at h
    exact .receive h _ _
  | again => exact h
  | leave => trivial
  | @write r msg l hpc _ hl =>
    rw [hpc] at h
    cases r with
    | dispatch g =>
      obtain ⟨xs, hxs, hcat, hd⟩ := h
      refine ⟨xs, hxs, hcat, ?_⟩
      have hsent := hd.send hcat hl
      rw [← hxs] at hsent
      exact hsent
    | stop c => trivial
  | die => trivial
  | @ready r msg hpc =>
    rw [hpc] at h
    cases r with
    | dispatch g => exact h
    | stop c => trivial
  | @giveUp r msg o hpc =>
    rw [hpc] at h
    have hread : DealtAt s.received s.links s.current_consumer (.readAck r msg) := by
      cases r with
      | dispatch g => exact h
      | stop c => trivial
    exact .finishRound hread
  | readAck hpc hl =>
    rw [hpc] at h
    apply Sys.InTurn.finishRound
    exact h.of_sent (update_sent (Link.takeAck_sent hl))
  | closeRead => trivial
  | closeWrite =>
    unfold InTurn afterClose
    dsimp only
    split <;> trivial
  | consumer hl => exact h.of_sent (update_sent (Link.consumer_sent hl))

theorem Sys.start_inTurn (mq : List Message) (stop_msg : Message) (ack_msg : Cid → Message) :
    (Sys.start mq stop_msg ack_msg).InTurn := by
  constructor
  · intro c
    rfl
  · intro g
    rfl

def Sys.Delivering (s : Sys) : Prop := s.InTurn ∧ ∀ c, (s.links c).Flow

theorem Sys.delivering_of_run {C A : Nat} {mq : List Message} {stop_msg : Message}
    {ack_msg : Cid → Message} {ls : List Label} {s : Sys}
    (hrun : exec (Sys.step C A) ls (.start mq stop_msg ack_msg) = some s) : s.Delivering := by
  refine exec_invariant (P := Sys.Delivering) ?_ ?_ hrun
  · intro lab s t ⟨hturn, hflow⟩ hstep
    exact ⟨hturn.step hstep, Sys.flow_step hflow hstep⟩
  · exact ⟨Sys.start_inTurn mq stop_msg ack_msg, fun c => .start _⟩

/-- Whatever the order of steps and the pattern of timeouts: at the top of the receive loop every
consumer has been given exactly its share of its group, in order, and its counters are those of the
messages it has processed, modulo `2 ^ 64`. -/
theorem dispatch_in_order {C A : Nat} {mq : List Message} {stop_msg : Message}
    {ack_msg : Cid → Message} {ls : List Label} {s : Sys}
    (hrun : exec (Sys.step C A) ls (.start mq stop_msg ack_msg) = some s)
    (htop : s.dispatcher = .receive) (c : Cid) :
    (s.links c).got ++ (s.links c).data =
      share NUM_CONSUMERS_PER_GROUP c.2.val (group c.1 s.received) ∧
    (s.current_consumer c.1).val = (group c.1 s.received).length % NUM_CONSUMERS_PER_GROUP ∧
    (s.links c).got = (s.links c).processed ++ (s.links c).pc.inHand ∧
    ∀ op : Operation, read_counter (s.links c).counters op.code =
      UInt64.ofNat ((s.links c).processed.countP fun m => m.op = op.code) := by
  obtain ⟨hturn, hflow⟩ := Sys.delivering_of_run hrun
  unfold Sys.InTurn at hturn
  rw [htop] at hturn
  refine ⟨?_, hturn.turn c.1, (hflow c).got_eq, (hflow c).counter⟩
  rw [(hflow c).sent_eq, hturn.sent]

/-- The first message of the group is acknowledged after the dispatcher has given up. The second one
goes to the other consumer, a message of another group comes between, and the third is the first
consumer's again: it is written, the late acknowledgement is taken for its own, and the consumer has
just read it. -/
def lateAck : List Label :=
  timedOutRound ++ List.replicate 3 (.consumer firstConsumer) ++
    roundTrip (bareMessage 0 1) secondConsumer ++ roundTrip (bareMessage 2 0) otherGroup ++
    [.enqueue (bareMessage 0 2), .dispatcher .ok, .dispatcher .ok, .dispatcher .ok,
      .dispatcher .ok, .consumer firstConsumer]

theorem dispatch_in_order_late : ∃ s, exec (Sys.step 4 4) lateAck firstStart = some s ∧
    (s.links firstConsumer).processed = [Message.zero] ∧
    (s.links firstConsumer).pc.inHand = [bareMessage 0 2] ∧
    (s.links firstConsumer).got ++ (s.links firstConsumer).data =
      share NUM_CONSUMERS_PER_GROUP 0 (group firstConsumer.1
        [Message.zero, bareMessage 0 1, bareMessage 2 0, bareMessage 0 2]) ∧
    (s.current_consumer firstConsumer.1).val = 3 % NUM_CONSUMERS_PER_GROUP ∧
    (s.links firstConsumer).got =
      (s.links firstConsumer).processed ++ (s.links firstConsumer).pc.inHand ∧
    ∀ op : Operation, read_counter (s.links firstConsumer).counters op.code =
      UInt64.ofNat ((s.links firstConsumer).processed.countP fun m => m.op = op.code) := by
  refine ⟨_, rfl, rfl, rfl, ?_⟩
  exact dispatch_in_order (show exec (Sys.step 4 4) lateAck firstStart = some _ from rfl) rfl
    firstConsumer

structure Link.Idle (l : Link) : Prop where
  pc : l.pc = .read
  data : l.data = []
  acks : l.acks = []
  read_open : l.read_open = true

theorem Link.Idle.roundTrip {C A : Nat} {l : Link} {msg : Message} (h : l.Idle) (hC : 0 < C)
    (hA : 0 < A) (hop : msg.op ≠ STOP_MESSAG) :
    ∃ l₁ l₂ l₃ l₄ l₅ : Link, l.send C msg = some l₁ ∧ l₁.consumer A = some l₂ ∧
      l₂.consumer A = some l₃ ∧ l₃.consumer A = some l₄ ∧ l₄.readable = true ∧
      l₄.takeAck = some l₅ ∧ l₅.Idle ∧ l₅.processed = l.processed ++ [msg] := by
  obtain ⟨data, acks, w, r, pc, counters, ack_msg, sent, got, processed⟩ := l
  obtain ⟨rfl, rfl, rfl, rfl⟩ := h
  refine ⟨_, _, _, _, _, if_pos hC, rfl, if_neg hop, if_pos hA, rfl, rfl, ?_, rfl⟩
  exact ⟨rfl, rfl, rfl, rfl⟩

structure Sys.Idle (s : Sys) : Prop where
  dispatcher : s.dispatcher = .receive
  mq : s.mq = []
  links : ∀ c, (s.links c).Idle

theorem Sys.receive_ordinary {s : Sys} {g : Fin NUM_GROUPS} {msg : Message} {mq : List Message}
    (hcat : msg.category.toNat = g.val) (hop : msg.op ≠ STOP_MESSAG) :
    s.receive msg mq = { s with
      mq := mq
      received := s.received ++ [msg]
      dispatcher := .write (.dispatch g) msg } := by
  have hlt : msg.category.toNat < NUM_GROUPS := hcat ▸ g.isLt
  have hg : (⟨msg.category.toNat, hlt⟩ : Fin NUM_GROUPS) = g := Fin.ext hcat
  unfold receive
  rw [if_neg hop, dif_pos hlt, hg]

theorem Sys.Idle.roundTrip {C A : Nat} {s : Sys} {g : Fin NUM_GROUPS} (msg : Message) (h : s.Idle)
    (hC : 0 < C) (hA : 0 < A) (hcat : msg.category.toNat = g.val) (hop : msg.op ≠ STOP_MESSAG) :
    ∃ l, exec (Sys.step C A) (Dispatch.roundTrip msg (g, s.current_consumer g)) s = some
        { s with
          received := s.received ++ [msg]
          current_consumer := update s.current_consumer g (advance (s.current_consumer g))
          links := update s.links (g, s.current_consumer g) l } ∧
      l.Idle ∧ l.processed = (s.links (g, s.current_consumer g)).processed ++ [msg] := by
  obtain ⟨hreceive, hmq, hlinks⟩ := h
  obtain ⟨l₁, l₂, l₃, l₄, l₅, h₁, h₂, h₃, h₄, hready, h₅, hidle, hprocessed⟩ :=
    (hlinks (g, s.current_consumer g)).roundTrip hC hA hop
  have hreads : (s.links (g, s.current_consumer g)).pc.reads = true := by
    rw [(hlinks _).pc]
    rfl
  obtain ⟨mq, received, dispatcher, cur, stop_msg, links⟩ := s
  dsimp only at *
  subst hreceive hmq
  refine ⟨l₅, ?_, hidle, hprocessed⟩
  simp only [Dispatch.roundTrip, exec, step, dispatch, List.nil_append, Option.bind_some,
    receive_ordinary hcat hop, Round.consumer, hreads, if_true, h₁, Option.map_some, setLink,
    Function.update_self, h₂, h₃, h₄, hready, h₅, finishRound, Function.update_idem]

theorem Sys.Idle.setLink {s : Sys} (h : s.Idle) {c : Cid} {l : Link} (hl : l.Idle)
    (received : List Message) (cur : Fin NUM_GROUPS → Fin NUM_CONSUMERS_PER_GROUP) :
    Idle { s with received, current_consumer := cur, links := update s.links c l } := by
  refine ⟨h.dispatcher, h.mq, ?_⟩
  intro d
  dsimp only
  by_cases hd : d = c
  · subst hd
    rwa [Function.update_self]
  · rw [Function.update_of_ne hd]
    exact h.links d

/-- A zeroed message for each of the two consumers of the first group. -/
def twoRounds : List Label :=
  Dispatch.roundTrip Message.zero firstConsumer ++ Dispatch.roundTrip Message.zero secondConsumer

theorem Sys.Idle.twoRounds {C A : Nat} {s : Sys} (h : s.Idle) (hC : 0 < C) (hA : 0 < A)
    (hcur : s.current_consumer firstConsumer.1 = firstConsumer.2) :
    ∃ t, exec (Sys.step C A) Dispatch.twoRounds s = some t ∧ t.Idle ∧
      t.current_consumer firstConsumer.1 = firstConsumer.2 ∧
      (t.links firstConsumer).processed = (s.links firstConsumer).processed ++ [Message.zero] := by
  obtain ⟨l₁, hrun₁, hl₁, hprocessed⟩ := h.roundTrip (g := firstConsumer.1) Message.zero hC hA
    rfl (by decide)
  rw [hcur] at hrun₁ hprocessed
  have hidle := h.setLink (c := firstConsumer) hl₁ (s.received ++ [Message.zero])
    (update s.current_consumer firstConsumer.1 (advance firstConsumer.2))
  obtain ⟨l₂, hrun₂, hl₂, _⟩ := hidle.roundTrip (g := firstConsumer.1) Message.zero hC hA
    rfl (by decide)
  simp only [Function.update_self] at hrun₂ hl₂
  refine ⟨_, exec_append_some.mpr ⟨_, hrun₁, hrun₂⟩, hidle.setLink hl₂ _ _, ?_, ?_⟩
  · dsimp only
    rw [Function.update_self]
    decide
  · dsimp only
    rw [Function.update_of_ne (by decide)]
    exact (congrArg Link.processed (Function.update_self ..)).trans hprocessed

theorem Sys.Idle.manyRounds {C A : Nat} (n : Nat) {s : Sys} (h : s.Idle) (hC : 0 < C) (hA : 0 < A)
    (hcur : s.current_consumer firstConsumer.1 = firstConsumer.2) :
    ∃ t, exec (Sys.step C A) (List.replicate n Dispatch.twoRounds).flatten s = some t ∧ t.Idle ∧
      (t.links firstConsumer).processed =
        (s.links firstConsumer).processed ++ List.replicate n Message.zero := by
  induction n generalizing s with
  | zero => exact ⟨s, rfl, h, by simp⟩
  | succ n ih =>
    obtain ⟨t, hrun, hidle, hcur', hprocessed⟩ := h.twoRounds hC hA hcur
    obtain ⟨u, hrest, hfinal, hprocessed'⟩ := ih hidle hcur'
    refine ⟨u, ?_, hfinal, ?_⟩
    · rw [List.replicate_succ, List.flatten_cons]
      exact exec_append_some.mpr ⟨t, hrun, hrest⟩
    · rw [hprocessed', hprocessed, List.replicate_succ, List.append_assoc]
      rfl

/-- After `2 ^ 64` messages of one operation the counter has wrapped around to 0. -/
theorem counter_wraps :
    ∃ s, exec (Sys.step 1 1) (List.replicate (2 ^ 64) twoRounds).flatten
        firstStart = some s ∧ s.dispatcher = .receive ∧
      (read_counter (s.links firstConsumer).counters Operation.open.code).toNat ≠
        (s.links firstConsumer).processed.countP fun m => m.op = Operation.open.code := by
  have hstart : firstStart.Idle :=
    ⟨rfl, rfl, fun _ => ⟨rfl, rfl, rfl, rfl⟩⟩
  obtain ⟨s, hrun, hidle, hprocessed⟩ :=
    hstart.manyRounds (C := 1) (A := 1) (2 ^ 64) Nat.one_pos Nat.one_pos rfl
  refine ⟨s, hrun, hidle.dispatcher, ?_⟩
  have hcount : ((s.links firstConsumer).processed.countP fun m => m.op = Operation.open.code) =
      2 ^ 64 := by
    rw [hprocessed]
    exact (List.countP_replicate ..).trans (if_pos rfl)
  obtain ⟨_, hflow⟩ := Sys.delivering_of_run hrun
  rw [(hflow firstConsumer).counter, hcount]
  decide

end Naarad.Dispatch
