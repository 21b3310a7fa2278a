import Mathlib.Data.Nat.Basic
import Mathlib.Order.Basic

/-!
# Scaling by a product that wraps

`v * w / m` with the product computed modulo `B`: the share of `w` that belongs to `v` out of `m`,
as long as the product fits.
-/

set_option autoImplicit false

namespace Scaling

variable {B v v' w m n x : Nat}

def scaled (B v w m : Nat) : Nat := v * w % B / m

theorem scaled_of_fits (h : v * w < B) : scaled B v w m = v * w / m := by
  unfold scaled
  rw [Nat.mod_eq_of_lt h]

theorem scaled_le (hv : v ≤ m) (h : v * w < B) : scaled B v w m ≤ w := by
  rw [scaled_of_fits h]
  apply Nat.div_le_of_le_mul
  exact Nat.mul_le_mul_right w hv

/-- Wrapping or not, no share is larger than the whole. -/
theorem scaled_le_whole (hB : 0 < B) (hv : v ≤ m) : scaled B v w m ≤ w := by
  by_cases h : v * w < B
  · exact scaled_le hv h
  · have hle : v * w ≤ m * w := Nat.mul_le_mul_right w hv
    have hlt : v * w % B < m * w :=
      Nat.lt_of_lt_of_le (Nat.mod_lt _ hB) (Nat.le_trans (Nat.le_of_not_lt h) hle)
    exact Nat.le_of_lt (Nat.div_lt_of_lt_mul hlt)

theorem scaled_mono (hv : v ≤ v') (h : v' * w < B) : scaled B v w m ≤ scaled B v' w m := by
  have hle : v * w ≤ v' * w := Nat.mul_le_mul_right w hv
  rw [scaled_of_fits h, scaled_of_fits (Nat.lt_of_le_of_lt hle h)]
  exact Nat.div_le_div_right hle

theorem scaled_self (hm : 0 < m) (h : m * w < B) : scaled B m w m = w := by
  rw [scaled_of_fits h]
  exact Nat.mul_div_cancel_left w hm

/-- A product that wraps loses at least one `m`. -/
theorem scaled_self_lt (hm : m < B) (h : B ≤ m * w) : scaled B m w m < w := by
  have hwrap : m * w % B ≤ m * w - B := by
    rw [Nat.mod_eq_sub_mod h]
    exact Nat.mod_le _ _
  unfold scaled
  apply Nat.div_lt_of_lt_mul
  omega

/-- The low digits of a quotient vanish when the remainder modulo `m * n` is that modulo `m`. -/
theorem div_mod_eq_zero_iff (hm : 0 < m) : x / m % n = 0 ↔ x % (m * n) < m := by
  have hlow : x % m < m := Nat.mod_lt x hm
  rw [Nat.mod_mul]
  constructor
  · intro hzero
    rw [hzero]
    exact hlow
  · intro hlt
    by_contra hne
    have hpos : 1 ≤ x / m % n := Nat.pos_of_ne_zero hne
    have hle : m * 1 ≤ m * (x / m % n) := Nat.mul_le_mul_left m hpos
    omega

end Scaling
