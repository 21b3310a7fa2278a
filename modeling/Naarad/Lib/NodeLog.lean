import Naarad.Lib.LinkedHeap

/-!
# The nodes of a list that only grows at its end, by the order of linking

`log` lists every node that was ever linked, and an address may come up in it several times. Entry
`k` stands while the block at its address still belongs to it: its cell is as it was linked, with a
pointer to the next entry, and no later entry has the address.
-/

set_option autoImplicit false

namespace LinkedHeap

universe u
variable {α : Type u} {h : Heap α} {log : List (Addr × α)} {k : Nat} {a : Addr}

structure Stands (h : Heap α) (log : List (Addr × α)) (k : Nat) (a : Addr) : Prop where
  cell : ∃ v, log[k]? = some (a, v) ∧ h a = some ⟨v, (addrs log)[k + 1]?⟩
  last : ∀ j, (addrs log)[j]? = some a → j ≤ k

theorem addrs_getElem? (log : List (Addr × α)) (k : Nat) :
    (addrs log)[k]? = log[k]?.map Prod.fst := List.getElem?_map

@[simp] theorem addrs_length (log : List (Addr × α)) : (addrs log).length = log.length :=
  List.length_map ..

theorem addrs_concat {n : Addr} {v : α} : (addrs (log ++ [(n, v)]))[k]? = some a ↔
    (addrs log)[k]? = some a ∨ k = log.length ∧ a = n := by
  rw [addrs_append]
  by_cases hk : k < log.length
  · rw [List.getElem?_append_left (by rw [addrs_length]; exact hk)]
    exact (or_iff_left fun heq => Nat.ne_of_lt hk heq.1).symm
  · have hge : (addrs log).length ≤ k := by
      rw [addrs_length]
      exact Nat.le_of_not_lt hk
    rw [List.getElem?_eq_none hge, List.getElem?_append_right hge, addrs_length]
    constructor
    · intro hmem
      have hlt := (List.getElem?_eq_some_iff.mp hmem).1
      rw [addrs_length, List.length_singleton] at hlt
      exact Or.inr ⟨by omega, List.mem_singleton.mp (List.mem_of_getElem? hmem)⟩
    · rintro (hnone | ⟨rfl, rfl⟩)
      · cases hnone
      · rw [Nat.sub_self]
        rfl

/-- The address of the last entry. -/
theorem addrs_last {t : Addr} {v : α} (ht : log.getLast? = some (t, v)) :
    (addrs log)[log.length - 1]? = some t := by
  rw [List.getLast?_eq_getElem?] at ht
  rw [addrs_getElem?, ht]
  rfl

namespace Stands

theorem addr (hs : Stands h log k a) : (addrs log)[k]? = some a := by
  obtain ⟨v, hk, _⟩ := hs.cell
  rw [addrs_getElem?, hk]
  rfl

theorem lt_length (hs : Stands h log k a) : k < log.length := by
  obtain ⟨v, hk, _⟩ := hs.cell
  exact (List.getElem?_eq_some_iff.mp hk).1

theorem unique {j : Nat} (hk : Stands h log k a) (hj : Stands h log j a) : k = j :=
  Nat.le_antisymm (hj.last k hk.addr) (hk.last j hj.addr)

theorem store_of_ne {b : Addr} (hs : Stands h log k a) (hab : a ≠ b) (c : Cell α) :
    Stands (store h b c) log k a := by
  obtain ⟨v, hk, hcell⟩ := hs.cell
  refine ⟨⟨v, hk, ?_⟩, hs.last⟩
  rw [LinkedHeap.store_of_ne hab, hcell]

/-- Linking a node behind the last entry leaves every other entry standing. -/
theorem link {t n : Addr} {v w : α} (hs : Stands h log k a) (hlast : log.getLast? = some (t, v))
    (ha : a ≠ n) : Stands (store h t ⟨v, some n⟩) (log ++ [(n, w)]) k a := by
  obtain ⟨u, hk, hcell⟩ := hs.cell
  have hlt := hs.lt_length
  have haddr := addrs_last hlast
  rw [List.getLast?_eq_getElem?] at hlast
  have hkeep : (log ++ [(n, w)])[k]? = some (a, u) := by
    rw [List.getElem?_append_left hlt, hk]
  constructor
  · by_cases hat : a = t
    · subst hat
      have hkl : k = log.length - 1 := Nat.le_antisymm (by omega) (hs.last _ haddr)
      have huv : u = v := by
        rw [hkl, hlast] at hk
        exact (Prod.mk.inj (Option.some.inj hk)).2.symm
      refine ⟨v, huv ▸ hkeep, ?_⟩
      rw [store_self, addrs_concat.mpr (Or.inr ⟨by omega, rfl⟩)]
    · have hkl : k + 1 < log.length := by
        by_contra hge
        have hkl : log.length - 1 = k := by omega
        rw [hkl, hk] at hlast
        exact hat (Prod.mk.inj (Option.some.inj hlast)).1
      refine ⟨u, hkeep, ?_⟩
      rw [LinkedHeap.store_of_ne hat, hcell, addrs_append,
        List.getElem?_append_left (by rw [addrs_length]; exact hkl)]
  · intro j hj
    rcases addrs_concat.mp hj with hj | ⟨_, rfl⟩
    · exact hs.last j hj
    · exact absurd rfl ha

theorem isSome (hs : Stands h log k a) : (h a).isSome := by
  obtain ⟨v, _, hcell⟩ := hs.cell
  rw [hcell]
  rfl

end Stands

/-- A node that is not in the log stands once it is linked. -/
theorem stands_linked {t n : Addr} {v w : α} (hn : h n = some ⟨w, none⟩) (hnt : n ≠ t) :
    Stands (store h t ⟨v, some n⟩) (log ++ [(n, w)]) log.length n := by
  constructor
  · refine ⟨w, List.getElem?_concat_length, ?_⟩
    rw [store_of_ne hnt, hn, List.getElem?_eq_none]
    simp
  · intro j hj
    have hlt := (List.getElem?_eq_some_iff.mp hj).1
    rw [addrs_length, List.length_append, List.length_singleton] at hlt
    omega

/-- When all entries from `i` on stand, they are a path. -/
theorem seg_of_stands {i : Nat}
    (hall : ∀ j b, i ≤ j → (addrs log)[j]? = some b → Stands h log j b) :
    Seg h (addrs log)[i]? (log.drop i) none := by
  by_cases hi : i < log.length
  · have haddr : (addrs log)[i]? = some log[i].1 := by
      rw [addrs_getElem?, List.getElem?_eq_getElem hi]
      rfl
    obtain ⟨v, hv, hcell⟩ := (hall i _ (Nat.le_refl i) haddr).cell
    have hval : log[i].2 = v := by
      rw [List.getElem?_eq_getElem hi] at hv
      exact congrArg Prod.snd (Option.some.inj hv)
    rw [List.drop_eq_getElem_cons hi]
    refine ⟨haddr, _, hval ▸ hcell, ?_⟩
    exact seg_of_stands fun j b hj => hall j b (Nat.le_of_succ_le hj)
  · rw [List.drop_eq_nil_of_le (Nat.le_of_not_lt hi), seg_nil]
    rw [List.getElem?_eq_none (by rw [addrs_length]; exact Nat.le_of_not_lt hi)]
termination_by log.length - i

end LinkedHeap
