import Naarad.Dispatch.Rounds

/-!
# The dispatcher and a consumer never block each other

A timeout leaves one more message of a consumer unacknowledged, but only when its pipe of
acknowledgements is empty. Between two rounds at most one message more than the pipe to the
consumer holds is therefore unacknowledged, which is too few to fill both pipes.
-/

set_option autoImplicit false

namespace Naarad.Dispatch

open LabelledRun

/-- At most `C` messages are in the pipe to the consumer, and at most `C + 1` of those sent before
the round under way are unacknowledged. -/
def Link.Bounded (C : Nat) (awaited : Bool) (l : Link) : Prop :=
  l.data.length ≤ C ∧ l.owed ≤ C + 1 + if awaited then 1 else 0

namespace Link.Bounded

variable {C A : Nat} {l l' : Link}

theorem send {msg : Message} (h : l.Bounded C false) (hsend : l.send C msg = some l') :
    l'.Bounded C true := by
  have howed := owed_send hsend
  obtain ⟨hroom, rfl⟩ := send_eq_some.mp hsend
  obtain ⟨_, hle⟩ := h
  refine ⟨?_, ?_⟩
  · rw [List.length_append, List.length_singleton]
    exact hroom
  · rw [howed]
    simp only [Bool.false_eq_true, if_false, if_true] at hle ⊢
    omega

theorem consumer {b : Bool} (h : l.Bounded C b) (hstep : l.consumer A = some l') :
    l'.Bounded C b :=
  ⟨Nat.le_trans (data_consumer hstep) h.1, Nat.le_trans (owed_consumer hstep).1 h.2⟩

theorem of_no_acks {b : Bool} (h : l.Bounded C b) (hacks : l.acks = []) : l.Bounded C false := by
  refine ⟨h.1, ?_⟩
  have howes : l.pc.owes ≤ 1 := by
    unfold ConsumerPc.owes
    split <;> omega
  have hdata := h.1
  simp only [owed, hacks, List.length_nil, Bool.false_eq_true, if_false]
  omega

theorem takeAck (h : l.Bounded C true) (htake : l.takeAck = some l') : l'.Bounded C false := by
  rcases takeAck_eq_some htake with ⟨a, acks, hacks, rfl⟩ | ⟨hacks, _, rfl⟩
  · refine ⟨h.1, ?_⟩
    have hle := h.2
    simp only [owed, hacks, List.length_cons, if_true, Bool.false_eq_true, if_false] at hle ⊢
    omega
  · exact h.of_no_acks hacks

end Link.Bounded

namespace Sys

def Bounded (C : Nat) (s : Sys) : Prop := ∀ c, (s.links c).Bounded C (s.awaits = some c)

def SelectWorks (lab : Label) (s : Sys) : Prop :=
  lab = .dispatcher .error → s.dispatcher.selecting = false

instance (lab : Label) (s : Sys) : Decidable (SelectWorks lab s) :=
  inferInstanceAs (Decidable (_ → _))

theorem start_bounded (C : Nat) (mq : List Message) (stop_msg : Message)
    (ack_msg : Cid → Message) : (start mq stop_msg ack_msg).Bounded C :=
  fun _ => ⟨Nat.zero_le _, Nat.zero_le _⟩

theorem Bounded.step {C A : Nat} {lab : Label} {s t : Sys} (h : s.Bounded C)
    (hworks : SelectWorks lab s) (hstep : Sys.step C A lab s = some t) : t.Bounded C := by
  intro c
  apply link_step (P := Link.Bounded C) c _ _ _ _ _ _ (h c) hstep
  · intro l l' msg hl _ hsend
    exact hl.send hsend
  · intro l l' hl htake
    exact hl.takeAck htake
  · rintro ⟨hselecting, _, hlab⟩ htimeout hl
    rcases hlab with rfl | rfl
    · -- a timeout means that there is nothing to read
      have hempty := htimeout rfl
      unfold Link.readable at hempty
      rw [Bool.or_eq_false_iff, Bool.not_eq_false', List.isEmpty_iff] at hempty
      exact hl.of_no_acks hempty.1
    · rw [hworks rfl] at hselecting
      cases hselecting
  · intro b l l' hl hconsume
    exact hl.consumer hconsume
  · intro l hl
    exact hl
  · intro l hl
    exact hl

/-- The dispatcher is at a write to `c` whose pipe is full, and `c` is at the write of an
acknowledgement whose pipe is full. -/
def MutuallyBlocked (C A : Nat) (s : Sys) (c : Cid) : Prop :=
  (∃ r msg, s.dispatcher = .write r msg ∧ r.consumer s.current_consumer = c ∧
      C ≤ (s.links c).data.length) ∧
    ∃ must_stop, (s.links c).pc = .ack must_stop ∧ A ≤ (s.links c).acks.length

end Sys

/-- No run in which `select` works leads to mutual blocking, in the receive loop or in the stop
loop, whatever the capacities. -/
theorem no_mutual_blocking {C A : Nat} {mq : List Message} {stop_msg : Message}
    {ack_msg : Cid → Message} {ls : List Label} {s : Sys} (hA : 1 ≤ A)
    (hrun : exec (Sys.step C A) ls (.start mq stop_msg ack_msg) = some s)
    (hselect : Along (Sys.step C A) Sys.SelectWorks ls (.start mq stop_msg ack_msg)) (c : Cid) :
    ¬ s.MutuallyBlocked C A c := by
  have hbounded : s.Bounded C := exec_induct (fun _ _ _ h hworks hstep => h.step hworks hstep)
    (Sys.start_bounded C mq stop_msg ack_msg) hselect hrun
  rintro ⟨⟨r, msg, hpc, _, hdata⟩, must_stop, hack, hacks⟩
  have hle := (hbounded c).2
  have hwaits : s.awaits = none := Sys.awaits_of_pc hpc
  rw [hwaits] at hle
  simp only [Link.owed, hack, ConsumerPc.owes, reduceCtorEq, decide_false, Bool.false_eq_true,
    if_false] at hle
  omega

/-- The dispatcher stands before a full pipe of a consumer that is about to acknowledge. -/
def fullPipe : List Label :=
  timedOutRound ++ timedOutRound ++ [.consumer firstConsumer, .consumer secondConsumer] ++
    timedOutRound ++ timedOutRound ++
    [.consumer firstConsumer, .enqueue Message.zero, .dispatcher .ok]

theorem no_mutual_blocking_full : ∃ s, exec (Sys.step 1 1) fullPipe firstStart = some s ∧
    (s.links firstConsumer).data.length = 1 ∧ (s.links firstConsumer).pc = .ack false ∧
    ¬ s.MutuallyBlocked 1 1 firstConsumer := by
  refine ⟨_, rfl, rfl, rfl, ?_⟩
  exact no_mutual_blocking (A := 1) (by decide)
    (show exec (Sys.step 1 1) fullPipe firstStart = some _ from rfl) (by decide) firstConsumer

end Naarad.Dispatch
