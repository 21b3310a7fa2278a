import Naarad.Counters
import Naarad.Lib.CharArray
import Naarad.Lib.Scaling
import Mathlib.Data.Finset.Lattice.Fold
import Mathlib.Data.Fintype.Basic
import Mathlib.Order.Lattice.Nat

/-!
# The bar graph (`tui/tui.c`)

Five sums of counters are drawn as bars, the largest over the whole width of the window but 15
columns. The sums and products are 64-bit and wrap, the width is an `int` that is converted to
64 bits, and the quotient is cut down to an `int` again.
-/

set_option autoImplicit false

namespace Naarad

open CharArray Scaling

/-- `values[5]`: read, write, delete, rename and misc. -/
def barValues (c : OperationCounters) : Fin 5 → UInt64
  | 0 => read_counter c Operation.open.code + read_counter c Operation.read.code
  | 1 => read_counter c Operation.write.code + read_counter c Operation.create.code +
      read_counter c Operation.mkdir.code
  | 2 => read_counter c Operation.unlink.code + read_counter c Operation.rmdir.code
  | 3 => read_counter c Operation.rename.code
  | 4 => read_counter c Operation.link.code + read_counter c Operation.syslink.code +
      read_counter c Operation.mknod.code

def barLabels : Fin 5 → List UInt8
  | 0 => ascii "read"
  | 1 => ascii "write"
  | 2 => ascii "delete"
  | 3 => ascii "rename"
  | 4 => ascii "misc"

/-- The loop that starts with `max_value = 1`. -/
def maxValue (values : Fin 5 → UInt64) : UInt64 :=
  (List.finRange 5).foldl (fun max_value i => if max_value < values i then values i else max_value) 1

/-- `(int)((value * (max_x - 15)) / max_value)`. -/
def barLength (max_x : Int32) (value max_value : UInt64) : Int32 :=
  (value * (max_x - 15).toInt64.toUInt64 / max_value).toUInt32.toInt32

/-- One bar: its row, its length, and the number and the label printed beside it. -/
structure Bar where
  row : Int32
  bar_length : Int32
  number : Int32
  label : List UInt8

def draw_bar_graph (max_y max_x : Int32) (c : OperationCounters) (i : Fin 5) : Bar where
  row := max_y - 3 - Int32.ofNat i.val * 2
  bar_length := barLength max_x (barValues c i) (maxValue (barValues c))
  number := (barValues c i).toUInt32.toInt32
  label := barLabels i

/-- The bars stay inside of the window, keep the order of the values, and the largest is full. -/
structure BarsScaled (max_x : Int32) (values : Fin 5 → UInt64) (bars : Fin 5 → Bar) : Prop where
  bounds : ∀ i, 0 ≤ (bars i).bar_length.toInt ∧
    (bars i).bar_length.toInt ≤ max 0 (max_x.toInt - 15)
  mono : ∀ i j, values i < values j → (bars i).bar_length.toInt ≤ (bars j).bar_length.toInt
  full : 15 ≤ max_x.toInt → ∀ i, values i ≠ 0 → (∀ j, values j ≤ values i) →
    (bars i).bar_length.toInt = max_x.toInt - 15

def largest (values : Fin 5 → UInt64) : Nat := max 1 (Finset.univ.sup fun i => (values i).toNat)

/-- In a window of at least 15 columns no product wraps. In a narrower one every product with the
negative width, modulo `2 ^ 64`, is less than one `largest` away from a multiple of
`2 ^ 32 * largest`. -/
def Scalable (max_x : Int32) (values : Fin 5 → UInt64) : Prop :=
  if 15 ≤ max_x.toInt then largest values * (max_x.toInt - 15).toNat < 2 ^ 64
  else ∀ i, ((values i).toNat * (max_x.toInt - 15)) % 2 ^ 64 % (2 ^ 32 * largest values) <
    largest values

section Machine

theorem toNat_toUInt64 (x : Int64) : (x.toUInt64.toNat : Int) = x.toInt % (2 ^ 64 : Nat) := by
  have hbits : x.toInt = (x.toBitVec.toNat : Int).bmod (2 ^ 64 : Nat) :=
    BitVec.toInt_eq_toNat_bmod _
  have hlt := x.toBitVec.isLt
  have hnat : x.toUInt64.toNat = x.toBitVec.toNat := rfl
  rw [hbits, Int.bmod_emod, hnat]
  exact (Int.emod_eq_of_lt (by omega) (by omega)).symm

theorem toInt_truncate (q : UInt64) : q.toUInt32.toInt32.toInt = (q.toNat : Int).bmod (2 ^ 32 : Nat) := by
  have hbits : q.toUInt32.toInt32.toInt = q.toUInt32.toBitVec.toInt := rfl
  have hnat : q.toUInt32.toBitVec.toNat = q.toNat % (2 ^ 32 : Nat) := UInt64.toNat_toUInt32 q
  rw [hbits, BitVec.toInt_eq_toNat_bmod, hnat, Int.natCast_emod, Int.emod_bmod]

theorem toInt_sub_15 {x : Int32} (hx : 0 ≤ x) : (x - 15).toInt = x.toInt - 15 := by
  have hnonneg : 0 ≤ x.toInt := Int32.le_iff_toInt_le.mp hx
  have hlt := x.toInt_lt
  have h15 : (15 : Int32).toInt = 15 := rfl
  rw [Int32.toInt_sub, h15]
  apply Int.bmod_eq_of_le <;> omega

end Machine

variable {max_x : Int32} {value max_value : UInt64} {values : Fin 5 → UInt64}

/-- The product of a value with the width, modulo `2 ^ 64`. -/
theorem product_eq (hx : 0 ≤ max_x) : ((value * (max_x - 15).toInt64.toUInt64).toNat : Int) =
    (value.toNat * (max_x.toInt - 15)) % (2 ^ 64 : Nat) := by
  rw [UInt64.toNat_mul, Int.natCast_emod, Int.natCast_mul, toNat_toUInt64 (max_x - 15).toInt64,
    Int32.toInt_toInt64, toInt_sub_15 hx, Int.mul_emod, Int.emod_emod, ← Int.mul_emod]

theorem barLength_eq (hx : 0 ≤ max_x) : (barLength max_x value max_value).toInt =
    ((value.toNat * (max_x.toInt - 15)) % (2 ^ 64 : Nat) / max_value.toNat).bmod (2 ^ 32 : Nat) := by
  unfold barLength
  rw [toInt_truncate, UInt64.toNat_div, Int.natCast_ediv, product_eq hx]

theorem barLength_wide (hx : 0 ≤ max_x) (hwide : 15 ≤ max_x.toInt)
    (hfits : scaled (2 ^ 64) value.toNat (max_x.toInt - 15).toNat max_value.toNat ≤
      (max_x.toInt - 15).toNat) :
    (barLength max_x value max_value).toInt =
      scaled (2 ^ 64) value.toNat (max_x.toInt - 15).toNat max_value.toNat := by
  have hlt := max_x.toInt_lt
  have hscaled : ((value.toNat * (max_x.toInt - 15)) % (2 ^ 64 : Nat) / max_value.toNat : Int) =
      scaled (2 ^ 64) value.toNat (max_x.toInt - 15).toNat max_value.toNat := by
    unfold scaled
    rw [Int.natCast_ediv, Int.natCast_emod, Int.natCast_mul, Int.toNat_of_nonneg (by omega)]
  rw [barLength_eq hx, hscaled]
  apply Int.bmod_eq_of_le <;> omega

theorem foldl_max_spec (values : Fin 5 → UInt64) (l : List (Fin 5)) (m : UInt64) :
    m ≤ l.foldl (fun m i => if m < values i then values i else m) m ∧
      (∀ i ∈ l, values i ≤ l.foldl (fun m i => if m < values i then values i else m) m) ∧
      (l.foldl (fun m i => if m < values i then values i else m) m = m ∨
        ∃ i ∈ l, l.foldl (fun m i => if m < values i then values i else m) m = values i) := by
  induction l generalizing m with
  | nil =>
    refine ⟨UInt64.le_refl m, ?_, Or.inl rfl⟩
    intro i hi
    cases hi
  | cons i l ih =>
    obtain ⟨hle, hall, hor⟩ := ih (if m < values i then values i else m)
    have hm : m ≤ if m < values i then values i else m := by
      split
      · exact UInt64.le_of_lt ‹_›
      · exact UInt64.le_refl m
    have hi : values i ≤ if m < values i then values i else m := by
      split
      · exact UInt64.le_refl _
      · exact UInt64.not_lt.mp ‹_›
    rw [List.foldl_cons]
    refine ⟨UInt64.le_trans hm hle, ?_, ?_⟩
    · intro j hj
      rcases List.mem_cons.mp hj with rfl | hj
      · exact UInt64.le_trans hi hle
      · exact hall j hj
    · rcases hor with heq | ⟨j, hj, heq⟩
      · rw [heq]
        split
        · exact Or.inr ⟨i, List.mem_cons_self, rfl⟩
        · exact Or.inl rfl
      · exact Or.inr ⟨j, List.mem_cons_of_mem i hj, heq⟩

theorem le_largest (values : Fin 5 → UInt64) (i : Fin 5) : (values i).toNat ≤ largest values :=
  Nat.le_trans (Finset.le_sup (f := fun i => (values i).toNat) (Finset.mem_univ i))
    (Nat.le_max_right ..)

theorem maxValue_toNat (values : Fin 5 → UInt64) : (maxValue values).toNat = largest values := by
  obtain ⟨hone, hall, hor⟩ := foldl_max_spec values (List.finRange 5) 1
  apply Nat.le_antisymm
  · rcases hor with heq | ⟨i, _, heq⟩
    · unfold maxValue
      rw [heq]
      exact Nat.le_max_left ..
    · unfold maxValue
      rw [heq]
      exact le_largest values i
  · apply Nat.max_le.mpr
    refine ⟨UInt64.le_iff_toNat_le.mp hone, ?_⟩
    apply Finset.sup_le
    intro i _
    exact UInt64.le_iff_toNat_le.mp (hall i (List.mem_finRange i))

theorem largest_pos (values : Fin 5 → UInt64) : 0 < largest values :=
  Nat.lt_of_lt_of_le Nat.one_pos (Nat.le_max_left ..)

theorem largest_of_all_le {i : Fin 5} (hne : values i ≠ 0) (hall : ∀ j, values j ≤ values i) :
    largest values = (values i).toNat := by
  apply Nat.le_antisymm
  · apply Nat.max_le.mpr
    constructor
    · apply Nat.one_le_iff_ne_zero.mpr
      intro hzero
      exact hne (UInt64.toNat_inj.mp hzero)
    · apply Finset.sup_le
      intro j _
      exact UInt64.le_iff_toNat_le.mp (hall j)
  · exact le_largest values i

/-- Some category has the largest value, or none has a value at all. -/
theorem exists_largest (values : Fin 5 → UInt64) :
    largest values = 1 ∨ ∃ i, values i ≠ 0 ∧ ∀ j, values j ≤ values i := by
  obtain ⟨hone, hall, hor⟩ := foldl_max_spec values (List.finRange 5) 1
  rw [← maxValue_toNat]
  rcases hor with heq | ⟨i, _, heq⟩
  · apply Or.inl
    unfold maxValue
    rw [heq]
    rfl
  · rw [heq] at hone hall
    refine Or.inr ⟨i, ?_, fun j => hall j (List.mem_finRange j)⟩
    rintro hzero
    rw [hzero] at hone
    exact absurd hone (by decide)

section Wide

variable (hx : 0 ≤ max_x) (hwide : 15 ≤ max_x.toInt)
include hx hwide

theorem barsScaled_of_fits (max_y : Int32) (c : OperationCounters)
    (hfits : largest (barValues c) * (max_x.toInt - 15).toNat < 2 ^ 64) :
    BarsScaled max_x (barValues c) (draw_bar_graph max_y max_x c) := by
  have hvalue : ∀ i, (barValues c i).toNat * (max_x.toInt - 15).toNat < 2 ^ 64 := by
    intro i
    exact Nat.lt_of_le_of_lt (Nat.mul_le_mul_right _ (le_largest _ i)) hfits
  have hle : ∀ i, scaled (2 ^ 64) (barValues c i).toNat (max_x.toInt - 15).toNat
      (maxValue (barValues c)).toNat ≤ (max_x.toInt - 15).toNat := by
    intro i
    rw [maxValue_toNat]
    exact scaled_le (le_largest _ i) (hvalue i)
  have hlength : ∀ i, (draw_bar_graph max_y max_x c i).bar_length.toInt =
      scaled (2 ^ 64) (barValues c i).toNat (max_x.toInt - 15).toNat
        (maxValue (barValues c)).toNat := fun i => barLength_wide hx hwide (hle i)
  refine ⟨?_, ?_, ?_⟩
  · intro i
    have hi := hle i
    rw [hlength i]
    omega
  · intro i j hij
    rw [hlength i, hlength j, Int.ofNat_le]
    exact scaled_mono (Nat.le_of_lt (UInt64.lt_iff_toNat_lt.mp hij)) (hvalue j)
  · intro _ i hne hall
    have hself := largest_of_all_le hne hall
    rw [hlength i, maxValue_toNat, hself]
    rw [scaled_self (hself ▸ largest_pos _) (hvalue i)]
    omega

theorem fits_of_barsScaled {max_y : Int32} {c : OperationCounters}
    (h : BarsScaled max_x (barValues c) (draw_bar_graph max_y max_x c)) :
    largest (barValues c) * (max_x.toInt - 15).toNat < 2 ^ 64 := by
  have hlt := max_x.toInt_lt
  by_contra hwraps
  rcases exists_largest (barValues c) with hone | ⟨i, hne, hall⟩
  · rw [hone] at hwraps
    omega
  · have hself := largest_of_all_le hne hall
    rw [hself] at hwraps
    have hshort : scaled (2 ^ 64) (barValues c i).toNat (max_x.toInt - 15).toNat
        (maxValue (barValues c)).toNat < (max_x.toInt - 15).toNat := by
      rw [maxValue_toNat, hself]
      exact scaled_self_lt (barValues c i).toNat_lt (Nat.le_of_not_lt hwraps)
    have hlength : (draw_bar_graph max_y max_x c i).bar_length.toInt = _ :=
      barLength_wide hx hwide (Nat.le_of_lt hshort)
    rw [h.full hwide i hne hall] at hlength
    omega

end Wide

theorem narrow_length_eq_zero_iff (hx : 0 ≤ max_x) (max_y : Int32) (c : OperationCounters)
    (i : Fin 5) : (draw_bar_graph max_y max_x c i).bar_length.toInt = 0 ↔
      ((barValues c i).toNat * (max_x.toInt - 15)) % 2 ^ 64 % (2 ^ 32 * largest (barValues c)) <
        largest (barValues c) := by
  have hlength : (draw_bar_graph max_y max_x c i).bar_length.toInt = _ := barLength_eq hx
  rw [hlength, maxValue_toNat]
  -- the product is a natural number again
  obtain ⟨n, hn⟩ : ∃ n : Nat,
      ((barValues c i).toNat * (max_x.toInt - 15)) % (2 ^ 64 : Nat) = (n : Int) :=
    Int.eq_ofNat_of_zero_le (Int.emod_nonneg _ (by decide))
  have hn' : ((barValues c i).toNat * (max_x.toInt - 15)) % 2 ^ 64 = (n : Int) := hn
  rw [hn, hn', ← Int.natCast_ediv]
  have hmodulus : (2 ^ 32 * largest (barValues c) : Int) =
      (largest (barValues c) * 2 ^ 32 : Nat) := by
    rw [Nat.mul_comm, Int.natCast_mul]
    rfl
  rw [hmodulus, ← Int.natCast_emod, Int.ofNat_lt, ← div_mod_eq_zero_iff (largest_pos _),
    ← Int.dvd_iff_bmod_eq_zero, Int.natCast_dvd_natCast]
  exact Nat.dvd_iff_mod_eq_zero

/-- The bars keep inside of the window, to the order of the values and to the full width exactly
for the `Scalable` widths and values. -/
theorem bars_scaled_iff (max_y max_x : Int32) (hx : 0 ≤ max_x) (c : OperationCounters) :
    BarsScaled max_x (barValues c) (draw_bar_graph max_y max_x c) ↔ Scalable max_x (barValues c) := by
  unfold Scalable
  by_cases hwide : 15 ≤ max_x.toInt
  · rw [if_pos hwide]
    exact ⟨fits_of_barsScaled hx hwide, barsScaled_of_fits hx hwide max_y c⟩
  · rw [if_neg hwide]
    have hmax : max 0 (max_x.toInt - 15) = 0 := by omega
    constructor
    · intro h i
      obtain ⟨hlow, hhigh⟩ := h.bounds i
      rw [← narrow_length_eq_zero_iff hx max_y]
      omega
    · intro h
      have hzero : ∀ i, (draw_bar_graph max_y max_x c i).bar_length.toInt = 0 := fun i =>
        (narrow_length_eq_zero_iff hx max_y c i).mpr (h i)
      refine ⟨?_, ?_, fun hge => absurd hge hwide⟩
      · intro i
        rw [hzero i, hmax]
        exact ⟨Int.le_refl 0, Int.le_refl 0⟩
      · intro i j _
        rw [hzero i, hzero j]

/-- Three kinds of operations have been counted, and the window has 80 columns. -/
theorem bars_scaled_iff_sample :
    let c := { OperationCounters.zero with open_ops := 120, write_ops := 40, rename_ops := 1 }
    Scalable 80 (barValues c) ∧ BarsScaled 80 (barValues c) (draw_bar_graph 24 80 c) := by
  intro c
  have hscalable : Scalable 80 (barValues c) := by
    unfold Scalable
    rw [if_pos (by decide)]
    decide +kernel
  exact ⟨hscalable, (bars_scaled_iff 24 80 (by decide) c).mpr hscalable⟩

/-- In a window of 10 columns the first open gives a bar of length -5. -/
theorem bars_not_scaled : ∃ c : OperationCounters, c.open_ops = 1 ∧
    (draw_bar_graph 24 10 c 0).bar_length.toInt = -5 ∧
    ¬ BarsScaled 10 (barValues c) (draw_bar_graph 24 10 c) := by
  have hlength : (draw_bar_graph 24 10 { OperationCounters.zero with open_ops := 1 }
      0).bar_length.toInt = -5 := by decide +kernel
  refine ⟨{ OperationCounters.zero with open_ops := 1 }, rfl, hlength, ?_⟩
  intro h
  have hbounds := (h.bounds 0).1
  rw [hlength] at hbounds
  exact absurd hbounds (by decide)

end Naarad
