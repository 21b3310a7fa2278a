import Naarad.OperationMap

/-!
# The operation counters (`tui/tui.c`)

Eleven 64-bit counters, selected by the same `switch` for reading and for incrementing. Their
addition wraps, so a counter holds the number of its operations modulo `2 ^ 64`.
-/

set_option autoImplicit false

namespace Naarad

structure OperationCounters where
  open_ops : UInt64
  read_ops : UInt64
  write_ops : UInt64
  unlink_ops : UInt64
  create_ops : UInt64
  link_ops : UInt64
  syslink_ops : UInt64
  mkdir_ops : UInt64
  rmdir_ops : UInt64
  mknod_ops : UInt64
  rename_ops : UInt64
  deriving DecidableEq

def OperationCounters.zero : OperationCounters := ⟨0, 0, 0, 0, 0, 0, 0, 0, 0, 0, 0⟩

def switchOp (op_type : UInt8) : Option Operation :=
  Operation.all.find? fun op => op.code = op_type

def read_counter (c : OperationCounters) (op_type : UInt8) : UInt64 :=
  match switchOp op_type with
  | some .read => c.read_ops
  | some .write => c.write_ops
  | some .unlink => c.unlink_ops
  | some .open => c.open_ops
  | some .create => c.create_ops
  | some .link => c.link_ops
  | some .syslink => c.syslink_ops
  | some .mkdir => c.mkdir_ops
  | some .rmdir => c.rmdir_ops
  | some .mknod => c.mknod_ops
  | some .rename => c.rename_ops
  | none => 0

def increment_counter (op_type : UInt8) (c : OperationCounters) : OperationCounters :=
  match switchOp op_type with
  | some .read => { c with read_ops := c.read_ops + 1 }
  | some .write => { c with write_ops := c.write_ops + 1 }
  | some .unlink => { c with unlink_ops := c.unlink_ops + 1 }
  | some .open => { c with open_ops := c.open_ops + 1 }
  | some .create => { c with create_ops := c.create_ops + 1 }
  | some .link => { c with link_ops := c.link_ops + 1 }
  | some .syslink => { c with syslink_ops := c.syslink_ops + 1 }
  | some .mkdir => { c with mkdir_ops := c.mkdir_ops + 1 }
  | some .rmdir => { c with rmdir_ops := c.rmdir_ops + 1 }
  | some .mknod => { c with mknod_ops := c.mknod_ops + 1 }
  | some .rename => { c with rename_ops := c.rename_ops + 1 }
  | none => c

@[simp] theorem switchOp_code (op : Operation) : switchOp op.code = some op := by
  cases op <;> decide

theorem switchOp_eq_some {op_type : UInt8} {op : Operation} :
    switchOp op_type = some op ↔ op.code = op_type := by
  constructor
  · intro h
    simpa using List.find?_some h
  · rintro rfl
    exact switchOp_code op

@[simp] theorem read_counter_zero (op_type : UInt8) :
    read_counter .zero op_type = 0 := by
  unfold read_counter
  split <;> rfl

theorem read_counter_increment (c : OperationCounters) (op_type : UInt8) (op : Operation) :
    read_counter (increment_counter op_type c) op.code =
      read_counter c op.code + if op_type = op.code then 1 else 0 := by
  cases hswitch : switchOp op_type with
  | none =>
    have hne : op_type ≠ op.code := by
      rintro rfl
      simp at hswitch
    simp [increment_counter, hswitch, hne]
  | some op' =>
    obtain rfl := switchOp_eq_some.mp hswitch
    by_cases hsame : op' = op
    · subst hsame
      rw [if_pos rfl]
      simp only [increment_counter, read_counter, switchOp_code]
      cases op' <;> rfl
    · rw [if_neg fun h => hsame (Operation.code_injective h), UInt64.add_zero]
      simp only [increment_counter, read_counter, switchOp_code]
      cases op' <;> cases op <;> first | rfl | exact absurd rfl hsame

/-- After any sequence of increments a counter holds how often its code occurred, mod `2 ^ 64`. -/
theorem read_counter_foldl (ops : List UInt8) (c : OperationCounters) (op : Operation) :
    read_counter (ops.foldl (fun c o => increment_counter o c) c) op.code =
      read_counter c op.code + UInt64.ofNat (ops.count op.code) := by
  induction ops generalizing c with
  | nil => simp
  | cons o ops ih =>
    rw [List.foldl_cons, ih, read_counter_increment, List.count_cons, UInt64.add_assoc]
    congr 1
    by_cases h : o = op.code
    · simp [h, UInt64.add_comm]
    · simp [h]

end Naarad
