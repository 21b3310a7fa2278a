import Mathlib.Data.List.Basic
import Mathlib.Logic.Function.Basic

/-!
# Direct-mapped tables

Each key belongs to one slot, and a slot takes the first key that comes to it: a later key with the
same slot is dropped, the same key is overwritten. What such a table answers is compared with the
sequence of its insertions.
-/

set_option autoImplicit false

namespace DirectMap

open Function (update)

universe u v w
variable {ι : Type u} {κ : Type v} {ν : Type w} [DecidableEq κ] {slot : κ → ι}
  {t : ι → Option (κ × ν)} {h : List (κ × ν)} {k k' : κ} {v v' : ν}

def lookup (slot : κ → ι) (k : κ) (t : ι → Option (κ × ν)) : Option ν :=
  (t (slot k)).bind fun kv => if kv.1 = k then some kv.2 else none

/-- The value of the last insertion of a key. -/
def latest (k : κ) (h : List (κ × ν)) : Option ν :=
  (h.reverse.find? fun kv => kv.1 = k).map Prod.snd

theorem lookup_eq_some : lookup slot k t = some v ↔ t (slot k) = some (k, v) := by
  unfold lookup
  cases hslot : t (slot k) with
  | none => simp
  | some kv =>
    obtain ⟨k₁, v₁⟩ := kv
    by_cases hkey : k₁ = k
    · simp [hkey]
    · simp [hkey]

/-- Every item is in the slot of its key. -/
def Placed (slot : κ → ι) (t : ι → Option (κ × ν)) : Prop :=
  ∀ i k v, t i = some (k, v) → slot k = i

theorem latest_isSome : (latest k h).isSome ↔ k ∈ h.map Prod.fst := by
  simp [latest]

/-- The table after the insertions `h`: what it answers is the value of the last insertion, and the
slot of every inserted key is taken. -/
structure Records (slot : κ → ι) (h : List (κ × ν)) (t : ι → Option (κ × ν)) : Prop where
  placed : Placed slot t
  latest : ∀ k v, lookup slot k t = some v → latest k h = some v
  taken : ∀ k ∈ h.map Prod.fst, (t (slot k)).isSome

theorem Records.empty : Records slot ([] : List (κ × ν)) fun _ => none := by
  refine ⟨?_, ?_, ?_⟩
  · intro i k v hi
    cases hi
  · intro k v hv
    cases hv
  · intro k hk
    cases hk

/-- The table is the finite map of its insertions exactly when no two inserted keys share a
slot. -/
theorem Records.finite_map_iff (hrec : Records slot h t) :
    (∀ k, lookup slot k t = DirectMap.latest k h) ↔
      ∀ k ∈ h.map Prod.fst, ∀ k' ∈ h.map Prod.fst, slot k = slot k' → k = k' := by
  constructor
  · intro hmap k hk k' hk' hslot
    obtain ⟨v, hv⟩ := Option.isSome_iff_exists.mp (latest_isSome.mpr hk)
    obtain ⟨v', hv'⟩ := Option.isSome_iff_exists.mp (latest_isSome.mpr hk')
    rw [← hmap, lookup_eq_some] at hv hv'
    rw [hslot, hv'] at hv
    exact (Prod.mk.inj (Option.some.inj hv)).1.symm
  · intro hinj k
    cases hlookup : lookup slot k t with
    | some v => exact (hrec.latest k v hlookup).symm
    | none =>
      by_contra hlatest
      obtain ⟨v, hv⟩ := Option.ne_none_iff_exists'.mp (Ne.symm hlatest)
      have hk : k ∈ h.map Prod.fst := latest_isSome.mp (by rw [hv]; rfl)
      obtain ⟨⟨k₁, v₁⟩, hslot⟩ := Option.isSome_iff_exists.mp (hrec.taken k hk)
      have hplaced : slot k₁ = slot k := hrec.placed _ _ _ hslot
      -- the slot holds an inserted key, which is `k` itself
      have hfound : lookup slot k₁ t = some v₁ := lookup_eq_some.mpr (hplaced ▸ hslot)
      have hk₁ : k₁ ∈ h.map Prod.fst := latest_isSome.mp (by rw [hrec.latest k₁ v₁ hfound]; rfl)
      obtain rfl : k₁ = k := hinj k₁ hk₁ k hk hplaced
      rw [hfound] at hlookup
      cases hlookup

variable [DecidableEq ι]

def insert (slot : κ → ι) (k : κ) (v : ν) (t : ι → Option (κ × ν)) : ι → Option (κ × ν) :=
  match t (slot k) with
  | none => update t (slot k) (some (k, v))
  | some kv => if kv.1 = k then update t (slot k) (some (k, v)) else t

/-- What an insertion does: it fills the slot of its key, or it meets another key there. -/
theorem insert_cases (slot : κ → ι) (k : κ) (v : ν) (t : ι → Option (κ × ν)) :
    (insert slot k v t = update t (slot k) (some (k, v)) ∧ ∀ kv, t (slot k) = some kv → kv.1 = k) ∨
      (insert slot k v t = t ∧ ∃ kv, t (slot k) = some kv ∧ kv.1 ≠ k) := by
  unfold insert
  cases hslot : t (slot k) with
  | none =>
    refine Or.inl ⟨rfl, ?_⟩
    intro kv hkv
    cases hkv
  | some kv =>
    by_cases hkey : kv.1 = k
    · refine Or.inl ⟨if_pos hkey, ?_⟩
      intro kv' hkv'
      cases hkv'
      exact hkey
    · exact Or.inr ⟨if_neg hkey, kv, rfl, hkey⟩

theorem lookup_insert_of_ne (hne : k' ≠ k) :
    lookup slot k' (insert slot k v t) = lookup slot k' t := by
  rcases insert_cases slot k v t with ⟨heq, hown⟩ | ⟨heq, _⟩
  · rw [heq]
    by_cases hslot : slot k' = slot k
    · -- the slot of both holds `k` or nothing, so `k'` is not found before or after
      have hafter : lookup slot k' (update t (slot k) (some (k, v))) = none := by
        unfold lookup
        rw [hslot, Function.update_self]
        exact if_neg hne.symm
      have hbefore : lookup slot k' t = none := by
        apply Option.eq_none_iff_forall_ne_some.mpr
        intro v' hv'
        rw [lookup_eq_some, hslot] at hv'
        exact hne (hown _ hv')
      rw [hafter, hbefore]
    · unfold lookup
      rw [Function.update_of_ne hslot]
  · rw [heq]

theorem lookup_insert_self (h : lookup slot k (insert slot k v t) = some v') : v' = v := by
  rcases insert_cases slot k v t with ⟨heq, _⟩ | ⟨heq, kv, hslot, hne⟩
  · rw [heq, lookup_eq_some, Function.update_self] at h
    exact (Prod.mk.inj (Option.some.inj h)).2.symm
  · rw [heq, lookup_eq_some, hslot] at h
    exact absurd (congrArg Prod.fst (Option.some.inj h)) hne

/-- A key that is found goes on being found, with its new value once it is inserted again. -/
theorem lookup_insert_found (h : lookup slot k t = some v') :
    lookup slot k (insert slot k v t) = some v := by
  rcases insert_cases slot k v t with ⟨heq, _⟩ | ⟨_, kv, hslot, hne⟩
  · rw [heq, lookup_eq_some, Function.update_self]
  · rw [lookup_eq_some, hslot] at h
    exact absurd (congrArg Prod.fst (Option.some.inj h)) hne

theorem Placed.insert (h : Placed slot t) (k : κ) (v : ν) :
    Placed slot (DirectMap.insert slot k v t) := by
  rcases insert_cases slot k v t with ⟨heq, _⟩ | ⟨heq, _⟩
  · rw [heq]
    intro i k' v' hi
    by_cases hslot : i = slot k
    · subst hslot
      rw [Function.update_self] at hi
      rw [(Prod.mk.inj (Option.some.inj hi)).1]
    · rw [Function.update_of_ne hslot] at hi
      exact h i k' v' hi
  · rw [heq]
    exact h

theorem latest_concat_self (h : List (κ × ν)) (k : κ) (v : ν) :
    latest k (h ++ [(k, v)]) = some v := by
  simp [latest]

theorem latest_concat_of_ne (h : List (κ × ν)) (v : ν) (hne : k' ≠ k) :
    latest k' (h ++ [(k, v)]) = latest k' h := by
  simp [latest, hne.symm]

theorem taken_insert (slot : κ → ι) (k : κ) (v : ν) (t : ι → Option (κ × ν)) :
    (insert slot k v t (slot k)).isSome ∧ ∀ i, (t i).isSome → (insert slot k v t i).isSome := by
  rcases insert_cases slot k v t with ⟨heq, _⟩ | ⟨heq, kv, hslot, _⟩
  · rw [heq, Function.update_self]
    refine ⟨rfl, ?_⟩
    intro i hi
    by_cases hik : i = slot k
    · rw [hik, Function.update_self]
      rfl
    · rwa [Function.update_of_ne hik]
  · rw [heq, hslot]
    exact ⟨rfl, fun i hi => hi⟩

theorem Records.insert (h' : Records slot h t) (k : κ) (v : ν) :
    Records slot (h ++ [(k, v)]) (DirectMap.insert slot k v t) := by
  obtain ⟨hplaced, hlatest, htaken⟩ := h'
  obtain ⟨hself, hother⟩ := taken_insert slot k v t
  refine ⟨hplaced.insert k v, ?_, ?_⟩
  · intro k' v' hfound
    by_cases hkey : k' = k
    · subst hkey
      rw [lookup_insert_self hfound]
      exact latest_concat_self h k' v
    · rw [lookup_insert_of_ne hkey] at hfound
      rw [latest_concat_of_ne h v hkey]
      exact hlatest k' v' hfound
  · intro k' hk'
    rw [List.map_append, List.mem_append] at hk'
    rcases hk' with hk' | hk'
    · exact hother _ (htaken k' hk')
    · obtain rfl : k' = k := List.mem_singleton.mp hk'
      exact hself

end DirectMap
