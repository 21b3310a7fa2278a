import Mathlib.Data.List.Basic

/-!
# Maps of bounded size

A map that takes a new key only while it holds fewer than `cap` of them; a key that it holds already
is overwritten, also when it is full. What such a map is made of is left open; an association list
is one.
-/

set_option autoImplicit false

namespace BoundedMap

universe u v w
variable {κ : Type u} {ν : Type v} {M : Type w} {cap : Nat} {k k' : κ} {v : ν}

structure Ops (κ : Type u) (ν : Type v) (M : Type w) where
  lookup : M → κ → Option ν
  update : M → κ → ν → M
  size : M → Nat

namespace Ops

def Takes (o : Ops κ ν M) (cap : Nat) (k : κ) (m : M) : Prop :=
  (o.lookup m k).isSome ∨ o.size m < cap

instance (o : Ops κ ν M) (m : M) : Decidable (o.Takes cap k m) :=
  inferInstanceAs (Decidable (_ ∨ _))

/-- What the operations have to do. -/
structure Laws (o : Ops κ ν M) (cap : Nat) : Prop where
  lookup_self : ∀ {m k v}, o.Takes cap k m → o.lookup (o.update m k v) k = some v
  lookup_other : ∀ {m k k' v}, k' ≠ k → o.lookup (o.update m k v) k' = o.lookup m k'
  lookup_refused : ∀ {m k v}, ¬ o.Takes cap k m → o.lookup (o.update m k v) k = none
  size_held : ∀ {m k v}, (o.lookup m k).isSome → o.size (o.update m k v) = o.size m
  size_new : ∀ {m k v}, o.lookup m k = none →
    o.size (o.update m k v) = if o.size m < cap then o.size m + 1 else o.size m

theorem takes_of_lookup_eq_none {o : Ops κ ν M} {m : M} (h : o.lookup m k = none) :
    o.Takes cap k m ↔ o.size m < cap := by
  unfold Takes
  rw [h]
  exact or_iff_right Bool.false_ne_true

end Ops

/-! Two maps that hold the same keys. -/

section Tracks

variable {ν' : Type*} {M' : Type*} {o : Ops κ ν M} {o' : Ops κ ν' M'} {f : ν → ν'} {m : M} {m' : M'}

/-- The values of the second map are those of the first one under `f`. -/
structure Tracks (o : Ops κ ν M) (o' : Ops κ ν' M') (f : ν → ν') (m : M) (m' : M') : Prop where
  lookup : ∀ k, o'.lookup m' k = (o.lookup m k).map f
  size : o'.size m' = o.size m

theorem Tracks.takes (h : Tracks o o' f m m') : o'.Takes cap k m' ↔ o.Takes cap k m := by
  unfold Ops.Takes
  rw [h.lookup, h.size, Option.isSome_map]

/-- The same update keeps them in step. -/
theorem Tracks.update [DecidableEq κ] (h : Tracks o o' f m m') (ho : o.Laws cap)
    (ho' : o'.Laws cap) (k : κ) (v : ν) : Tracks o o' f (o.update m k v) (o'.update m' k (f v)) := by
  constructor
  · intro key
    by_cases hkey : key = k
    · subst hkey
      by_cases htakes : o.Takes cap key m
      · rw [ho.lookup_self htakes, ho'.lookup_self (h.takes.mpr htakes), Option.map_some]
      · rw [ho.lookup_refused htakes, ho'.lookup_refused (mt h.takes.mp htakes), Option.map_none]
    · rw [ho.lookup_other hkey, ho'.lookup_other hkey, h.lookup]
  · by_cases hheld : (o.lookup m k).isSome
    · rw [ho.size_held hheld, ho'.size_held (by rwa [h.lookup, Option.isSome_map]), h.size]
    · have hnone := Option.not_isSome_iff_eq_none.mp hheld
      rw [ho.size_new hnone, ho'.size_new (by rw [h.lookup, hnone, Option.map_none]), h.size]

end Tracks

/-! Association lists. -/

section List

variable [DecidableEq κ] {m : List (κ × ν)}

def update (cap : Nat) (m : List (κ × ν)) (k : κ) (v : ν) : List (κ × ν) :=
  if (m.lookup k).isSome then m.map fun kv => if kv.1 = k then (k, v) else kv
  else if m.length < cap then m ++ [(k, v)]
  else m

def listOps (cap : Nat) : Ops κ ν (List (κ × ν)) where
  lookup m k := m.lookup k
  update := update cap
  size := List.length

theorem lookup_overwrite_self (h : (m.lookup k).isSome) :
    (m.map fun kv => if kv.1 = k then (k, v) else kv).lookup k = some v := by
  induction m with
  | nil => cases h
  | cons kv m ih =>
    by_cases hkv : kv.1 = k
    · rw [List.map_cons, if_pos hkv, List.lookup_cons_self]
    · have hne : (k == kv.1) = false := beq_false_of_ne (Ne.symm hkv)
      rw [List.lookup_cons, hne] at h
      rw [List.map_cons, if_neg hkv, List.lookup_cons, hne]
      exact ih h

theorem lookup_overwrite_of_ne (hne : k' ≠ k) :
    (m.map fun kv => if kv.1 = k then (k, v) else kv).lookup k' = m.lookup k' := by
  induction m with
  | nil => rfl
  | cons kv m ih =>
    by_cases hkv : kv.1 = k
    · rw [List.map_cons, if_pos hkv, List.lookup_cons, List.lookup_cons, hkv,
        beq_false_of_ne hne]
      exact ih
    · rw [List.map_cons, if_neg hkv, List.lookup_cons, List.lookup_cons, ih]

theorem lookup_update_self (h : (m.lookup k).isSome ∨ m.length < cap) :
    (update cap m k v).lookup k = some v := by
  unfold update
  by_cases hheld : (m.lookup k).isSome
  · rw [if_pos hheld]
    exact lookup_overwrite_self hheld
  · rw [if_neg hheld, if_pos (h.resolve_left hheld), List.lookup_append,
      Option.not_isSome_iff_eq_none.mp hheld, List.lookup_cons_self]
    rfl

theorem lookup_update_of_ne (hne : k' ≠ k) : (update cap m k v).lookup k' = m.lookup k' := by
  unfold update
  split
  · exact lookup_overwrite_of_ne hne
  · split
    · rw [List.lookup_append, List.lookup_cons, beq_false_of_ne hne]
      exact Option.or_none
    · rfl

/-- A refused update leaves the map alone; the key is not in it. -/
theorem lookup_update_refused (h : ¬ ((m.lookup k).isSome ∨ m.length < cap)) :
    (update cap m k v).lookup k = none := by
  obtain ⟨hheld, hfull⟩ := not_or.mp h
  unfold update
  rw [if_neg hheld, if_neg hfull]
  exact Option.not_isSome_iff_eq_none.mp hheld

theorem length_update_held (h : (m.lookup k).isSome) : (update cap m k v).length = m.length := by
  unfold update
  rw [if_pos h, List.length_map]

theorem length_update_new (h : m.lookup k = none) :
    (update cap m k v).length = if m.length < cap then m.length + 1 else m.length := by
  unfold update
  rw [h, if_neg (by simp)]
  by_cases hroom : m.length < cap
  · rw [if_pos hroom, if_pos hroom, List.length_append]
    rfl
  · rw [if_neg hroom, if_neg hroom]

theorem listOps_laws : (listOps cap : Ops κ ν _).Laws cap where
  lookup_self := lookup_update_self
  lookup_other := lookup_update_of_ne
  lookup_refused := lookup_update_refused
  size_held := length_update_held
  size_new := length_update_new

end List

end BoundedMap
