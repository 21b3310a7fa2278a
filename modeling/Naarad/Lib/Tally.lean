import Mathlib.Algebra.BigOperators.Group.Finset.Piecewise
import Mathlib.Algebra.Order.BigOperators.Group.Finset
import Mathlib.Data.Fintype.Card

/-!
# How many members of a finite family have a property

One step of a system of finitely many parties changes one of them; `tally_update` says what that
does to the number of those with a property.
-/

set_option autoImplicit false

namespace Tally

universe u v
variable {ι : Type u} {β : Type v} [Fintype ι]

def tally (p : β → Bool) (f : ι → β) : Nat := (Finset.univ.filter fun i => p (f i) = true).card

theorem tally_eq_sum (p : β → Bool) (f : ι → β) : tally p f = ∑ i, (p (f i)).toNat := by
  rw [tally, Finset.card_filter]
  apply Finset.sum_congr rfl
  intro i _
  cases p (f i) <;> rfl

theorem tally_update [DecidableEq ι] (p : β → Bool) (f : ι → β) (i : ι) (b : β) :
    tally p (Function.update f i b) + (p (f i)).toNat = tally p f + (p b).toNat := by
  have hrest : ∑ j ∈ Finset.univ.erase i, (p (Function.update f i b j)).toNat =
      ∑ j ∈ Finset.univ.erase i, (p (f j)).toNat := by
    apply Finset.sum_congr rfl
    intro j hj
    rw [Function.update_of_ne (Finset.ne_of_mem_erase hj)]
  rw [tally_eq_sum, tally_eq_sum, ← Finset.add_sum_erase _ _ (Finset.mem_univ i), hrest,
    Function.update_self, ← Finset.add_sum_erase _ (fun j => (p (f j)).toNat) (Finset.mem_univ i)]
  omega

theorem tally_eq_zero {p : β → Bool} {f : ι → β} (h : ∀ i, p (f i) = false) : tally p f = 0 := by
  rw [tally_eq_sum]
  apply Finset.sum_eq_zero
  intro i _
  rw [h i]
  rfl

theorem tally_le_tally {p q : β → Bool} {f : ι → β} (h : ∀ b, p b = true → q b = true) :
    tally p f ≤ tally q f := by
  apply Finset.card_le_card
  apply Finset.monotone_filter_right
  exact fun i _ hi => h (f i) hi

theorem tally_le_card (p : β → Bool) (f : ι → β) : tally p f ≤ Fintype.card ι :=
  Finset.card_le_univ _

/-! The same with a weight for each member -/

def total (w : β → Nat) (f : ι → β) : Nat := ∑ i, w (f i)

theorem total_update [DecidableEq ι] (w : β → Nat) (f : ι → β) (i : ι) (b : β) :
    total w (Function.update f i b) + w (f i) = total w f + w b := by
  have hrest : ∑ j ∈ Finset.univ.erase i, w (Function.update f i b j) =
      ∑ j ∈ Finset.univ.erase i, w (f j) := by
    apply Finset.sum_congr rfl
    intro j hj
    rw [Function.update_of_ne (Finset.ne_of_mem_erase hj)]
  rw [total, total, ← Finset.add_sum_erase _ _ (Finset.mem_univ i), hrest, Function.update_self,
    ← Finset.add_sum_erase _ (fun j => w (f j)) (Finset.mem_univ i)]
  omega

theorem total_congr {w : β → Nat} {f g : ι → β} (h : ∀ i, w (f i) = w (g i)) :
    total w f = total w g :=
  Finset.sum_congr rfl fun i _ => h i

theorem total_eq_zero {w : β → Nat} {f : ι → β} (h : ∀ i, w (f i) = 0) : total w f = 0 :=
  Finset.sum_eq_zero fun i _ => h i

theorem total_add (v w : β → Nat) (f : ι → β) :
    total (fun b => v b + w b) f = total v f + total w f :=
  Finset.sum_add_distrib

/-- Every member may gain `k`, and one of them gains less. -/
theorem total_raised {w w' : β → Nat} {f g : ι → β} {k : Nat} {i : ι}
    (hall : ∀ j, w' (g j) ≤ w (f j) + k) (hi : w' (g i) + 1 ≤ w (f i) + k) :
    total w' g + 1 ≤ total w f + k * Fintype.card ι := by
  have hlt : ∑ j, w' (g j) < ∑ j, (w (f j) + k) :=
    Finset.sum_lt_sum (fun j _ => hall j) ⟨i, Finset.mem_univ i, hi⟩
  rw [Finset.sum_add_distrib, Finset.sum_const, Finset.card_univ, Nat.nsmul_eq_mul, Nat.mul_comm] at hlt
  exact hlt

theorem total_le {w : β → Nat} {f : ι → β} {k : Nat} (h : ∀ b, w b ≤ k) :
    total w f ≤ k * Fintype.card ι := by
  have hle : ∑ j, w (f j) ≤ ∑ _j : ι, k := Finset.sum_le_sum fun j _ => h (f j)
  rw [Finset.sum_const, Finset.card_univ, Nat.nsmul_eq_mul, Nat.mul_comm] at hle
  exact hle

end Tally
