import Mathlib.Data.List.Basic

/-!
# Records of one length in a stream

A stream into which records are written whole, all of the same length `n`, and from which `n` symbols
are read at a time.
-/

set_option autoImplicit false

namespace Framing

universe u v
variable {α : Type u} {β : Type v} {code : α → List β} {n : Nat}

def frames (code : α → List β) (as : List α) : List β := as.flatMap code

@[simp] theorem frames_cons (a : α) (as : List α) :
    frames code (a :: as) = code a ++ frames code as := rfl

theorem frames_concat (as : List α) (a : α) : frames code (as ++ [a]) = frames code as ++ code a := by
  rw [frames, List.flatMap_append, List.flatMap_singleton]
  rfl

section FixedLength
variable (hcode : ∀ a, (code a).length = n)
include hcode

theorem length_frames (as : List α) : (frames code as).length = n * as.length := by
  induction as with
  | nil => rfl
  | cons a as ih => rw [frames_cons, List.length_append, hcode, ih, List.length_cons, Nat.mul_succ,
      Nat.add_comm]

/-- A read returns the oldest record. -/
theorem take_frames (a : α) (as : List α) : (frames code (a :: as)).take n = code a :=
  List.take_left' (hcode a)

theorem drop_frames (a : α) (as : List α) : (frames code (a :: as)).drop n = frames code as :=
  List.drop_left' (hcode a)

theorem frames_isEmpty (hn : 0 < n) (as : List α) : (frames code as).isEmpty = as.isEmpty := by
  rw [Bool.eq_iff_iff, List.isEmpty_iff_length_eq_zero, List.isEmpty_iff_length_eq_zero,
    length_frames hcode, Nat.mul_eq_zero]
  constructor
  · rintro (hzero | hempty)
    · omega
    · exact hempty
  · exact Or.inr

/-- Where there is room for the symbols of one more record, there is room for one more record. -/
theorem room_iff (hn : 0 < n) (as : List α) (capacity : Nat) :
    (frames code as).length + n ≤ capacity ↔ as.length < capacity / n := by
  rw [length_frames hcode, ← Nat.mul_succ, Nat.lt_iff_add_one_le, Nat.le_div_iff_mul_le hn,
    Nat.mul_comm]

end FixedLength

end Framing
