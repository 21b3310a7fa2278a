import Mathlib.Data.List.Basic

/-!
# Dealing a sequence round-robin

`share n j xs` is what the `j`-th of `n` receivers gets when the elements of `xs` are dealt out one
after another.
-/

set_option autoImplicit false

namespace RoundRobin

universe u
variable {α : Type u}

/-- The elements whose position is congruent to `j` modulo `n`. -/
def share (n j : Nat) (xs : List α) : List α :=
  (xs.zipIdx.filter fun p => p.2 % n = j).map Prod.fst

theorem share_concat (n j : Nat) (xs : List α) (x : α) :
    share n j (xs ++ [x]) = share n j xs ++ if xs.length % n = j then [x] else [] := by
  unfold share
  rw [List.zipIdx_append, List.filter_append, List.map_append]
  congr 1
  by_cases h : xs.length % n = j
  · simp [h]
  · simp [h]

theorem share_concat_self {n j : Nat} {xs : List α} (x : α) (h : xs.length % n = j) :
    share n j (xs ++ [x]) = share n j xs ++ [x] := by
  rw [share_concat, if_pos h]

theorem share_concat_other {n j : Nat} {xs : List α} (x : α) (h : xs.length % n ≠ j) :
    share n j (xs ++ [x]) = share n j xs := by
  rw [share_concat, if_neg h, List.append_nil]

end RoundRobin
