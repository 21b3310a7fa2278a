import Mathlib.Data.List.Basic

/-!
# A FIFO of bounded capacity that drops its oldest element

The abstract meaning of an event buffer: a push always succeeds, and a full buffer makes room by
losing the element at its front.
-/

set_option autoImplicit false

namespace BoundedFifo

universe u
variable {α : Type u}

def push (cap : Nat) (q : List α) (x : α) : List α :=
  if q.length = cap then q.tail ++ [x] else q ++ [x]

def pop : List α → List α × Option α
  | [] => ([], none)
  | x :: q => (q, some x)

theorem push_of_lt {cap : Nat} {q : List α} (x : α) (h : q.length < cap) :
    push cap q x = q ++ [x] := if_neg (by omega)

theorem push_of_full {cap : Nat} {q : List α} (x : α) (h : q.length = cap) :
    push cap q x = q.tail ++ [x] := if_pos h

theorem push_length_le {cap : Nat} {q : List α} (x : α) (hcap : 0 < cap) (h : q.length ≤ cap) :
    (push cap q x).length ≤ cap := by
  unfold push
  split
  · simp only [List.length_append, List.length_tail, List.length_singleton]
    omega
  · simp only [List.length_append, List.length_singleton]
    omega

theorem pop_length_le (q : List α) : (pop q).1.length ≤ q.length := by
  cases q with
  | nil => exact Nat.le_refl _
  | cons x q => exact Nat.le_succ _

theorem mem_push {cap : Nat} {q : List α} {x y : α} (h : y ∈ push cap q x) : y ∈ q ∨ y = x := by
  unfold push at h
  split at h
  · rcases List.mem_append.mp h with h | h
    · exact Or.inl (List.mem_of_mem_tail h)
    · exact Or.inr (List.mem_singleton.mp h)
  · rcases List.mem_append.mp h with h | h
    · exact Or.inl h
    · exact Or.inr (List.mem_singleton.mp h)

theorem mem_pop {q : List α} {y : α} (h : y ∈ (pop q).1) : y ∈ q := by
  cases q with
  | nil => cases h
  | cons x q => exact List.mem_cons_of_mem x h

/-- One push onto the last `cap` elements of a history keeps the last `cap` of the longer one. -/
theorem push_last {cap : Nat} (hcap : 0 < cap) (xs : List α) (x : α) :
    push cap (xs.drop (xs.length - cap)) x = (xs ++ [x]).drop ((xs ++ [x]).length - cap) := by
  simp only [List.length_append, List.length_singleton]
  by_cases h : xs.length < cap
  · rw [push_of_lt x (by simp only [List.length_drop]; omega)]
    have h0 : xs.length - cap = 0 := by omega
    have h1 : xs.length + 1 - cap = 0 := by omega
    rw [h0, h1, List.drop_zero, List.drop_zero]
  · rw [push_of_full x (by simp only [List.length_drop]; omega), List.tail_drop,
      List.drop_append_of_le_length (by omega)]
    congr 2
    omega

/-! What a history of pushes leaves in the buffer, and what it has lost. -/

def kept (cap : Nat) (xs : List α) : List α := xs.drop (xs.length - cap)

def lost (cap : Nat) (xs : List α) : List α := xs.take (xs.length - cap)

theorem lost_append_kept (cap : Nat) (xs : List α) : lost cap xs ++ kept cap xs = xs :=
  List.take_append_drop ..

theorem kept_snoc {cap : Nat} (hcap : 0 < cap) (xs : List α) (x : α) :
    kept cap (xs ++ [x]) = xs.drop (xs.length + 1 - cap) ++ [x] := by
  rw [kept, List.length_append, List.length_singleton, List.drop_append_of_le_length (by omega)]

theorem lost_snoc {cap : Nat} (hcap : 0 < cap) (xs : List α) (x : α) :
    lost cap (xs ++ [x]) = xs.take (xs.length + 1 - cap) := by
  rw [lost, List.length_append, List.length_singleton, List.take_append_of_le_length (by omega)]

/-- The buffer is in order, and nothing in it is before what was lost. -/
structure KeepsNewest (le : α → α → Prop) (cap : Nat) (xs : List α) : Prop where
  sorted : (kept cap xs).Pairwise le
  newest : ∀ a ∈ lost cap xs, ∀ b ∈ kept cap xs, le a b

namespace KeepsNewest
variable {le : α → α → Prop} {cap : Nat} {xs : List α} {x : α}

theorem nil : KeepsNewest le cap [] := by
  constructor
  · simp [kept]
  · simp [lost]

theorem le_last (hrefl : ∀ a, le a a) (h : KeepsNewest le cap (xs ++ [x])) (hcap : 0 < cap) :
    ∀ a ∈ xs ++ [x], le a x := by
  intro a ha
  have hx : x ∈ kept cap (xs ++ [x]) := by
    rw [kept_snoc hcap]
    exact List.mem_append_right _ List.mem_cons_self
  rw [← lost_append_kept cap (xs ++ [x])] at ha
  rcases List.mem_append.mp ha with ha | ha
  · exact h.newest a ha x hx
  · have hsorted := h.sorted
    rw [kept_snoc hcap] at hsorted ha
    rcases List.mem_append.mp ha with ha | ha
    · exact (List.pairwise_append.mp hsorted).2.2 a ha x List.mem_cons_self
    · rw [List.mem_singleton.mp ha]
      exact hrefl x

/-- A push keeps the newest elements exactly when nothing pushed before is after the new one. -/
theorem snoc_iff (h : KeepsNewest le cap xs) (hcap : 0 < cap) :
    KeepsNewest le cap (xs ++ [x]) ↔ ∀ a ∈ xs, le a x := by
  constructor
  · intro h' a ha
    have hx : x ∈ kept cap (xs ++ [x]) := by
      rw [kept_snoc hcap]
      exact List.mem_append_right _ List.mem_cons_self
    rw [← List.take_append_drop (xs.length + 1 - cap) xs] at ha
    rcases List.mem_append.mp ha with ha | ha
    · exact h'.newest a (lost_snoc hcap xs x ▸ ha) x hx
    · have hsorted := h'.sorted
      rw [kept_snoc hcap] at hsorted
      exact (List.pairwise_append.mp hsorted).2.2 a ha x List.mem_cons_self
  · intro hx
    -- at most one more element is lost than before, the oldest of those that were kept
    obtain ⟨k, hk⟩ : ∃ k, xs.length + 1 - cap = xs.length - cap + k :=
      ⟨xs.length + 1 - cap - (xs.length - cap), by omega⟩
    have hdrop : xs.drop (xs.length + 1 - cap) = (kept cap xs).drop k := by
      rw [kept, List.drop_drop, hk]
    have htake : xs.take (xs.length + 1 - cap) = lost cap xs ++ (kept cap xs).take k := by
      rw [lost, kept, hk, List.take_add]
    have hsorted := h.sorted
    rw [← List.take_append_drop k (kept cap xs)] at hsorted
    obtain ⟨_, hrest, hbefore⟩ := List.pairwise_append.mp hsorted
    have hmem : ∀ a ∈ (kept cap xs).drop k, a ∈ xs := fun a ha =>
      List.mem_of_mem_drop (List.mem_of_mem_drop ha)
    constructor
    · rw [kept_snoc hcap, hdrop]
      apply List.pairwise_append.mpr
      refine ⟨hrest, List.pairwise_singleton _ _, ?_⟩
      intro a ha b hb
      rw [List.mem_singleton.mp hb]
      exact hx a (hmem a ha)
    · intro a ha b hb
      rw [lost_snoc hcap, htake] at ha
      rw [kept_snoc hcap, hdrop] at hb
      rcases List.mem_append.mp hb with hb | hb
      · rcases List.mem_append.mp ha with ha | ha
        · exact h.newest a ha b (List.mem_of_mem_drop hb)
        · exact hbefore a ha b hb
      · rw [List.mem_singleton.mp hb]
        rcases List.mem_append.mp ha with ha | ha
        · exact hx a (List.mem_of_mem_take ha)
        · exact hx a (List.mem_of_mem_drop (List.mem_of_mem_take ha))

end KeepsNewest

end BoundedFifo
