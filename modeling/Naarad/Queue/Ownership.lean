import Naarad.Queue.CallSteps

/-!
# The calls of all threads beside the list

Each call has its own nodes, off the list, and no call may write what another one expects. A step of
one call keeps this, and what the locals of the others say.
-/

set_option autoImplicit false

namespace Naarad.Queue

open LinkedHeap

variable {n : Nat}

def PoolCall.own : PoolCall → Own
  | .idle => .none
  | .push _ pc _ => pc.own
  | .pop pc _ _ => pc.own

def PoolCallOk (v : View) : PoolCall → Prop
  | .idle => True
  | .push msg pc _ => PushOk v msg pc
  | .pop pc _ sawEmpty => PopOk v pc ∧ (pc.foundNone = true → sawEmpty = true)

theorem PoolCallOk.kept {v w : View} {call : PoolCall} (h : PoolCallOk v call)
    (hk : Kept v w call.expects) (hnew : ∀ a, call.own.new_node = some a → w.heap a = v.heap a) :
    PoolCallOk w call := by
  cases call with
  | idle => trivial
  | push msg pc e => exact PushOk.kept h hk hnew
  | pop pc e sawEmpty => exact ⟨h.1.kept hk, h.2⟩

/-- The calls beside the list: each has its own nodes, and what one expects no other may write. -/
structure Calls (v : View) (calls : Fin n → PoolCall) : Prop where
  off : ∀ i a, (calls i).own.Has a → Off v a
  apart : ∀ i j a, (calls i).own.Has a → (calls j).own.Has a → i = j
  expects : ∀ i j, ∀ a ∈ (calls i).expects, (calls j).own.new_node ≠ some a
  ok : ∀ i, PoolCallOk v (calls i)

/-- A node that a call comes by was on the list, or free. -/
theorem Act.has {v w : View} {o o' : Own} (h : Listed v) (hact : Act v o o' w) {a : Addr}
    (ha : o'.Has a) : o.Has a ∨ ¬ Off v a := by
  cases hact with
  | stay => exact Or.inl ha
  | tail => exact Or.inl ha
  | head hlt hnext =>
    right
    intro hoff
    rcases ha with ha | ha
    · cases ha
    · exact hoff.unlisted v.hd (Nat.le_refl _) (h.head.symm.trans ha)
  | link => rcases ha with ha | ha <;> cases ha
  | alloc block hn =>
    right
    intro hoff
    rcases ha with ha | ha
    · obtain rfl := Option.some.inj ha
      rcases hn with hnone | hfreed
      · have hknown := hoff.known
        rw [hnone] at hknown
        cases hknown
      · exact hoff.unfreed hfreed
    · cases ha
  | write => exact Or.inl ha
  | free => rcases ha with ha | ha <;> cases ha

theorem Act.new_node {v w : View} {o o' : Own} (hact : Act v o o' w) {a : Addr}
    (ha : o'.new_node = some a) :
    o.new_node = some a ∨ o.new_node = none ∧ (v.heap a = none ∨ a ∈ v.freed) := by
  cases hact with
  | stay => exact Or.inl ha
  | tail => exact Or.inl ha
  | head => cases ha
  | link => cases ha
  | alloc block hn =>
    obtain rfl := Option.some.inj ha
    exact Or.inr ⟨rfl, hn⟩
  | write => exact Or.inl ha
  | free => cases ha

/-- A step of call `i`, from `call` to `call'`. -/
theorem Calls.step {v w : View} {calls : Fin n → PoolCall} {i : Fin n} {call call' : PoolCall}
    {delivered : List Message} (hl : Listed v) (h : Calls v calls) (hcall : calls i = call)
    (hm : Moves v w call.own call'.own call.expects call'.expects delivered)
    (hfresh : ∀ a, call'.own.new_node = some a → call.own.new_node = none →
      ∀ j, a ∉ (calls j).expects)
    (hok : PoolCallOk w call') : Calls w (Function.update calls i call') := by
  subst hcall
  obtain ⟨hact, hexpects, _⟩ := hm
  have hnew : ∀ a, call'.own.new_node = some a → ∀ j, a ∉ (calls j).expects := by
    intro a ha j hj
    rcases hact.new_node ha with hold | ⟨hnone, _⟩
    · exact h.expects j i a hj hold
    · exact hfresh a ha hnone j hj
  have hother : ∀ j a, j ≠ i → (calls j).own.Has a → Off w a ∧ w.heap a = v.heap a :=
    fun j a hj ha => hact.off hl (h.off j a ha) fun hi => hj (h.apart j i a ha hi)
  have happart : ∀ j a, j ≠ i → (calls j).own.Has a → ¬ call'.own.Has a := by
    intro j a hj ha ha'
    rcases hact.has hl ha' with hi | hoff
    · exact hj (h.apart j i a ha hi)
    · exact hoff (h.off j a ha)
  have hself : ∀ a, call'.own.new_node = some a → a ∉ call'.expects := by
    intro a ha hmem
    rcases hexpects a hmem with hmem | ⟨k, hk, hlisted⟩
    · exact hnew a ha i hmem
    · rcases hact.new_node ha with hold | ⟨_, hfree⟩
      · exact (h.off i a (Or.inl hold)).unlisted k hk hlisted
      · exact hl.ne_of_free hfree hk hlisted rfl
  have hat : Function.update calls i call' i = call' := Function.update_self ..
  have hne : ∀ j, j ≠ i → Function.update calls i call' j = calls j :=
    fun j hj => Function.update_of_ne hj ..
  constructor
  · intro j a ha
    by_cases hj : j = i
    · rw [hj, hat] at ha
      exact hact.off_own hl (h.off i) ha
    · rw [hne j hj] at ha
      exact (hother j a hj ha).1
  · intro j k a ha ha'
    by_cases hj : j = i
    · by_cases hk : k = i
      · rw [hj, hk]
      · rw [hj, hat] at ha
        rw [hne k hk] at ha'
        exact absurd ha (happart k a hk ha')
    · rw [hne j hj] at ha
      by_cases hk : k = i
      · rw [hk, hat] at ha'
        exact absurd ha' (happart j a hj ha)
      · rw [hne k hk] at ha'
        exact h.apart j k a ha ha'
  · intro j k a ha ha'
    by_cases hk : k = i
    · rw [hk, hat] at ha'
      by_cases hj : j = i
      · rw [hj, hat] at ha
        exact hself a ha' ha
      · rw [hne j hj] at ha
        exact hnew a ha' j ha
    · rw [hne k hk] at ha'
      by_cases hj : j = i
      · rw [hj, hat] at ha
        rcases hexpects a ha with ha | ⟨l, hlk, hlisted⟩
        · exact h.expects i k a ha ha'
        · exact (h.off k a (Or.inl ha')).unlisted l hlk hlisted
      · rw [hne j hj] at ha
        exact h.expects j k a ha ha'
  · intro j
    by_cases hj : j = i
    · rw [hj, hat]
      exact hok
    · rw [hne j hj]
      obtain ⟨hhd, htl, hlog⟩ := hact.grows
      apply (h.ok j).kept ⟨hhd, htl, hlog, ?_⟩
      · exact fun a ha => (hother j a hj (Or.inl ha)).2
      · exact fun a ha k hs => hact.stands hs (h.expects j i a ha) fun heq => hnew a heq j ha

end Naarad.Queue
