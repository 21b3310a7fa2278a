import Naarad.Dispatch.System

/-!
# One link, seen from the rounds of the dispatcher

A round sends one message to a consumer and ends with an acknowledgement or without one. What a
link keeps from round to round is stated with the bit that tells whether the dispatcher is waiting
for its acknowledgement.
-/

set_option autoImplicit false

namespace Naarad.Dispatch

open Function (update)

def DispatcherPc.awaits (cur : Fin NUM_GROUPS → Fin NUM_CONSUMERS_PER_GROUP) :
    DispatcherPc → Option Cid
  | .select r _ => some (r.consumer cur)
  | .readAck r _ => some (r.consumer cur)
  | _ => none

def DispatcherPc.selecting : DispatcherPc → Bool
  | .select _ _ => true
  | _ => false

theorem update_sent {links : Cid → Link} {c : Cid} {l : Link} (hl : l.sent = (links c).sent) (d : Cid) :
    (update links c l d).sent = (links d).sent := by
  by_cases hd : d = c
  · rw [hd, Function.update_self, hl]
  · rw [Function.update_of_ne hd]

namespace Sys

def awaits (s : Sys) : Option Cid := s.dispatcher.awaits s.current_consumer

/-- This step ends the wait for the acknowledgement of `c` without reading it. -/
def GivesUpOn (c : Cid) (lab : Label) (s : Sys) : Prop :=
  s.dispatcher.selecting = true ∧ s.awaits = some c ∧
    (lab = .dispatcher .timeout ∨ lab = .dispatcher .error)

instance (c : Cid) (lab : Label) (s : Sys) : Decidable (GivesUpOn c lab s) :=
  inferInstanceAs (Decidable (_ ∧ _))

theorem awaits_finishRound (r : Round) (s : Sys) : (s.finishRound r).awaits = none := by
  unfold finishRound awaits
  cases r with
  | dispatch g => rfl
  | stop c =>
    dsimp only
    split <;> rfl

theorem awaits_receive (msg : Message) (mq : List Message) (s : Sys) :
    (s.receive msg mq).awaits = none := by
  unfold receive awaits
  dsimp only
  split
  · rfl
  · split <;> rfl

theorem awaits_afterClose {s : Sys} {c : Cid} (h : s.dispatcher = afterClose c) :
    s.awaits = none := by
  unfold awaits
  rw [h, afterClose]
  split <;> rfl

theorem awaits_of_pc {s : Sys} {pc : DispatcherPc} (h : s.dispatcher = pc) :
    s.awaits = pc.awaits s.current_consumer := by
  unfold awaits
  rw [h]

/-- What the rounds keep of one link: `P true` while the dispatcher waits for its acknowledgement,
`P false` otherwise. -/
theorem link_step {P : Bool → Link → Prop} {C A : Nat} {lab : Label} {s t : Sys} (c : Cid)
    (hsend : ∀ l l' msg, P false l → l.pc.reads = true → l.send C msg = some l' → P true l')
    (htake : ∀ l l', P true l → l.takeAck = some l' → P false l')
    (hgiveUp : GivesUpOn c lab s → (lab = .dispatcher .timeout → (s.links c).readable = false) →
      P true (s.links c) → P false (s.links c))
    (hconsume : ∀ b l l', P b l → l.consumer A = some l' → P b l')
    (hcloseRead : ∀ l, P false l → P false { l with read_open := false })
    (hcloseWrite : ∀ l, P false l → P false { l with write_open := false })
    (h : P (s.awaits = some c) (s.links c)) (hstep : step C A lab s = some t) :
    P (t.awaits = some c) (t.links c) := by
  -- outside of a round the bit is `false`
  have hbit : ∀ {u : Sys} {b : Option Cid}, u.awaits = b → b ≠ some c →
      decide (u.awaits = some c) = false := by
    intro u b hb hne
    rw [hb]
    exact decide_eq_false hne
  cases moves_of_step hstep with
  | enqueue => exact h
  | receive hpc =>
    rw [hbit (awaits_of_pc hpc) (by simp [DispatcherPc.awaits])] at h
    rw [hbit (awaits_receive _ _ _) (by simp), receive_links]
    exact h
  | again => exact h
  | leave hpc =>
    rw [hbit (awaits_of_pc hpc) (by simp [DispatcherPc.awaits])] at h
    exact h
  | @write r msg l hpc hreads hl =>
    rw [hbit (awaits_of_pc hpc) (by simp [DispatcherPc.awaits])] at h
    by_cases hc : r.consumer s.current_consumer = c
    · have hwait : decide (some (r.consumer s.current_consumer) = some c) = true :=
        decide_eq_true (congrArg some hc)
      subst hc
      have hnew := hsend _ _ _ h hreads hl
      rw [← hwait, ← setLink_self s _ l] at hnew
      exact hnew
    · have hwait : decide (some (r.consumer s.current_consumer) = some c) = false :=
        decide_eq_false fun heq => hc (Option.some.inj heq)
      rw [← hwait, ← setLink_of_ne (l := l) (Ne.symm hc)] at h
      exact h
  | die hpc =>
    rw [hbit (awaits_of_pc hpc) (by simp [DispatcherPc.awaits])] at h
    exact hcloseWrite _ (hcloseRead _ h)
  | ready hpc =>
    rw [awaits_of_pc hpc] at h
    exact h
  | @giveUp r msg o hpc ho hready =>
    rw [hbit (awaits_finishRound r s) (by simp), finishRound_links]
    have hwaits := awaits_of_pc hpc
    by_cases hc : r.consumer s.current_consumer = c
    · subst hc
      rw [hwaits, DispatcherPc.awaits, decide_eq_true rfl] at h
      apply hgiveUp _ (fun hto => hready (Label.dispatcher.inj hto)) h
      refine ⟨by rw [hpc]; rfl, hwaits, ?_⟩
      cases o with
      | ok => exact absurd rfl ho
      | timeout => exact Or.inl rfl
      | error => exact Or.inr rfl
    · rw [hbit hwaits fun heq => hc (Option.some.inj heq)] at h
      exact h
  | @readAck r msg l hpc hl =>
    rw [hbit (awaits_finishRound r _) (by simp), finishRound_links]
    have hwaits := awaits_of_pc hpc
    by_cases hc : r.consumer s.current_consumer = c
    · subst hc
      rw [hwaits, DispatcherPc.awaits, decide_eq_true rfl] at h
      rw [setLink_self]
      exact htake _ _ h hl
    · rw [hbit hwaits fun heq => hc (Option.some.inj heq)] at h
      rw [setLink_of_ne (Ne.symm hc)]
      exact h
  | @closeRead d hpc =>
    rw [hbit (awaits_of_pc hpc) (by simp [DispatcherPc.awaits])] at h
    apply setLink_cases (P := P false)
    · rintro rfl
      exact hcloseRead _ h
    · exact fun _ => h
  | @closeWrite d hpc =>
    rw [hbit (awaits_of_pc hpc) (by simp [DispatcherPc.awaits])] at h
    rw [hbit (awaits_afterClose rfl) (by simp)]
    apply setLink_cases (P := P false)
    · rintro rfl
      exact hcloseWrite _ h
    · exact fun _ => h
  | @consumer d l hl =>
    apply setLink_cases (P := P (s.awaits = some c))
    · rintro rfl
      exact hconsume _ _ _ h hl
    · exact fun _ => h

theorem links_step {P : Link → Prop} {C A : Nat} {lab : Label} {s t : Sys} (c : Cid)
    (hsend : ∀ l l' msg, P l → l.pc.reads = true → l.send C msg = some l' → P l')
    (htake : ∀ l l', P l → l.takeAck = some l' → P l')
    (hconsume : ∀ l l', P l → l.consumer A = some l' → P l')
    (hcloseRead : ∀ l, P l → P { l with read_open := false })
    (hcloseWrite : ∀ l, P l → P { l with write_open := false })
    (h : P (s.links c)) (hstep : step C A lab s = some t) : P (t.links c) :=
  link_step (P := fun _ => P) c hsend htake (fun _ _ hl => hl) (fun _ => hconsume) hcloseRead
    hcloseWrite h hstep

theorem flow_step {C A : Nat} {lab : Label} {s t : Sys} (h : ∀ c, (s.links c).Flow)
    (hstep : step C A lab s = some t) : ∀ c, (t.links c).Flow := by
  intro c
  apply links_step (P := Link.Flow) c _ _ _ _ _ (h c) hstep
  · intro l l' msg hl _ hsend
    exact hl.send hsend
  · intro l l' hl htake
    exact hl.takeAck htake
  · intro l l' hl hconsume
    exact hl.consumer hconsume
  · intro l hl
    exact hl.ends l.write_open false
  · intro l hl
    exact hl.ends false l.read_open

end Sys

end Naarad.Dispatch
