import Mathlib.Data.List.Basic

/-!
# Pointers that may be null or unassigned

A function seen through its use of pointers: it stops at the first use that is not allowed, and it
is safe when there is none.
-/

set_option autoImplicit false

namespace PointerUse

variable {α β : Type}

inductive Pointer where
  | unassigned
  | null
  | valid
  deriving DecidableEq

inductive Misuse where
  | unassigned_read
  | null_passed
  | null_dereferenced
  deriving DecidableEq

abbrev Checked (α : Type) := Except Misuse α

def Safe (x : Checked α) : Prop := ∃ a, x = .ok a

@[simp] theorem safe_pure (a : α) : Safe (pure a : Checked α) := ⟨a, rfl⟩

@[simp] theorem not_safe_error (e : Misuse) : ¬ Safe (.error e : Checked α) := by
  rintro ⟨a, h⟩
  cases h

theorem safe_bind {x : Checked α} {f : α → Checked β} :
    Safe (x >>= f) ↔ ∃ a, x = .ok a ∧ Safe (f a) := by
  cases x with
  | ok a =>
    constructor
    · exact fun h => ⟨a, rfl, h⟩
    · rintro ⟨a', ha, h⟩
      cases ha
      exact h
  | error e =>
    constructor
    · rintro ⟨b, hb⟩
      cases hb
    · rintro ⟨a, ha, _⟩
      cases ha

/-- What comes after a step that returns nothing does not depend on it. -/
@[simp] theorem safe_seq {x : Checked α} {y : Checked β} :
    Safe (x >>= fun _ => y) ↔ Safe x ∧ Safe y := by
  rw [safe_bind]
  constructor
  · rintro ⟨a, ha, hy⟩
    exact ⟨⟨a, ha⟩, hy⟩
  · rintro ⟨⟨a, ha⟩, hy⟩
    exact ⟨a, ha, hy⟩

theorem ok_of_seq {x : Checked α} {y : Checked β} {b : β} (h : (x >>= fun _ => y) = .ok b) :
    y = .ok b := by
  cases x with
  | ok a => exact h
  | error e => cases h

theorem safe_forM {ι : Type} (f : ι → Checked Unit) (l : List ι) :
    Safe (l.forM f) ↔ ∀ i ∈ l, Safe (f i) := by
  induction l with
  | nil =>
    constructor
    · intro _ i hi
      cases hi
    · exact fun _ => ⟨_, rfl⟩
  | cons i l ih =>
    rw [show (i :: l).forM f = (f i >>= fun _ => l.forM f) from rfl, safe_seq, ih,
      List.forall_mem_cons]

namespace Pointer

/-- What a function that returns null on failure returns. -/
def ofResult (succeeds : Bool) : Pointer := if succeeds then .valid else .null

@[simp] theorem ofResult_eq_valid {succeeds : Bool} :
    ofResult succeeds = .valid ↔ succeeds = true := by
  cases succeeds <;> decide

/-- The argument of a callee that accepts a null pointer. -/
def read : Pointer → Checked Unit
  | .unassigned => .error .unassigned_read
  | _ => pure ()

/-- The argument of a callee that needs an object. -/
def pass : Pointer → Checked Unit
  | .unassigned => .error .unassigned_read
  | .null => .error .null_passed
  | .valid => pure ()

@[simp] theorem safe_read {p : Pointer} : Safe p.read ↔ p ≠ .unassigned := by
  cases p <;> simp [read]

@[simp] theorem safe_pass {p : Pointer} : Safe p.pass ↔ p = .valid := by
  cases p <;> simp [pass]

end Pointer

/-- The value of a field, `none` before it is assigned. -/
def field : Option α → Checked α
  | some a => pure a
  | none => .error .unassigned_read

/-- The object behind the result of a lookup, `none` for a null pointer. -/
def deref : Option α → Checked α
  | some a => pure a
  | none => .error .null_dereferenced

@[simp] theorem safe_deref {x : Option α} : Safe (deref x) ↔ x.isSome = true := by
  cases x <;> simp [deref]

end PointerUse
