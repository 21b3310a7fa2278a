import Naarad.Lib.CharArray
import Mathlib.Algebra.Group.Nat.Defs
import Mathlib.Data.List.OfFn
import Mathlib.Logic.Function.Basic

/-!
# The operation map (`tui/hashmap.c`)

A table of `TABLE_SIZE` slots, each of them null or pointing at one item; keys that hash to an
occupied slot are dropped. An item is only ever reachable through its own slot, so a slot carries
the item itself, and `freed` is the pointer that `cleanup_operation_map` leaves behind. Following
that pointer is the undefined behaviour `none`.
-/

set_option autoImplicit false

namespace Naarad

open CharArray

def TABLE_SIZE : Nat := 100

inductive Operation where
  | open | read | write | create | link | unlink | syslink | mkdir | rmdir | mknod | rename
  deriving DecidableEq

/-- `OP_OPEN` to `OP_RENAME`. -/
def Operation.code : Operation → UInt8
  | .open => 0
  | .read => 1
  | .write => 2
  | .create => 3
  | .link => 4
  | .unlink => 5
  | .syslink => 6
  | .mkdir => 7
  | .rmdir => 8
  | .mknod => 9
  | .rename => 10

def OP_UNKNOWN : UInt8 := 255

def Operation.all : List Operation :=
  [.open, .read, .write, .create, .link, .unlink, .syslink, .mkdir, .rmdir, .mknod, .rename]

theorem Operation.mem_all (op : Operation) : op ∈ all := by
  cases op <;> decide

theorem Operation.code_injective : Function.Injective code := by
  intro a b h
  revert h
  cases a <;> cases b <;> decide

theorem Operation.code_ne_unknown (op : Operation) : op.code ≠ OP_UNKNOWN := by
  cases op <;> decide

def Operation.key : Operation → List UInt8
  | .open => ascii "open"
  | .read => ascii "read"
  | .write => ascii "write"
  | .create => ascii "create"
  | .link => ascii "link"
  | .unlink => ascii "unlink"
  | .syslink => ascii "syslink"
  | .mkdir => ascii "mkdir"
  | .rmdir => ascii "rmdir"
  | .mknod => ascii "mknod"
  | .rename => ascii "rename"

structure HashItem where
  key : List UInt8
  value : UInt8
  is_valid : Bool
  deriving DecidableEq

inductive Slot where
  | null
  | item (it : HashItem)
  | freed
  deriving DecidableEq

structure OperationMap where
  items : Fin TABLE_SIZE → Slot
  initialized : Bool

def OperationMap.start : OperationMap := ⟨fun _ => .null, false⟩

structure HashMapResult where
  value : UInt8
  found : Bool
  deriving DecidableEq

/-- `value * 37 + key[i]`; the promoted `char` is sign-extended. -/
def hashStep (value : UInt64) (c : UInt8) : UInt64 := value * 37 + c.toInt8.toInt64.toUInt64

/-- The loop counter and the length are 32-bit, so only that many bits of `strlen` count. -/
def hash (key : List UInt8) : Fin TABLE_SIZE :=
  ⟨((key.take (key.length % 2 ^ 32)).foldl hashStep 0).toNat % TABLE_SIZE,
    Nat.mod_lt _ (by decide)⟩

def insert (key : List UInt8) (value : UInt8) (m : OperationMap) : Option OperationMap :=
  if m.initialized then
    match m.items (hash key) with
    | .null => some { m with items := Function.update m.items (hash key) (.item ⟨key, value, true⟩) }
    | .item it =>
      if it.key = key then
        some { m with items := Function.update m.items (hash key) (.item ⟨it.key, value, true⟩) }
      else some m
    | .freed => none
  else some m

def get (key : List UInt8) (m : OperationMap) : Option HashMapResult :=
  if m.initialized then
    match m.items (hash key) with
    | .null => some ⟨0, false⟩
    | .item it => if it.is_valid ∧ it.key = key then some ⟨it.value, true⟩ else some ⟨0, false⟩
    | .freed => none
  else some ⟨0, false⟩

def init_operation_map (m : OperationMap) : Option OperationMap :=
  if m.initialized then some m
  else
    Operation.all.foldlM (fun m op => insert op.key op.code m) ⟨fun _ => .null, true⟩

def OperationMap.builtin : OperationMap where
  items i :=
    match Operation.all.find? fun op => hash op.key = i with
    | some op => .item ⟨op.key, op.code, true⟩
    | none => .null
  initialized := true

/-- The eleven names hash to eleven slots, so every insertion finds its slot empty. -/
theorem init_operation_map_start : init_operation_map .start = some .builtin := by
  have htable : (init_operation_map .start).map (fun m => (List.ofFn m.items, m.initialized)) =
      some (List.ofFn OperationMap.builtin.items, true) := by decide +kernel
  obtain ⟨m, hm, htable⟩ := Option.map_eq_some_iff.mp htable
  obtain ⟨hitems, hinit⟩ := Prod.mk.inj htable
  rw [hm]
  cases m
  simp only [Option.some.injEq, OperationMap.mk.injEq, OperationMap.builtin] at *
  exact ⟨List.ofFn_injective hitems, hinit⟩

theorem Operation.hash_key_injective : Function.Injective fun op : Operation => hash op.key := by
  intro a b h
  revert h
  cases a <;> cases b <;> decide

/-- The operation that `init_operation_map` files under a key. -/
def Operation.ofKey (key : List UInt8) : Option Operation := all.find? fun op => op.key = key

theorem Operation.ofKey_eq_some {key : List UInt8} {op : Operation} :
    ofKey key = some op ↔ op.key = key := by
  constructor
  · intro h
    simpa using List.find?_some h
  · rintro rfl
    cases op <;> decide

theorem Operation.ofKey_eq_none {key : List UInt8} : ofKey key = none ↔ ∀ op : Operation, op.key ≠ key := by
  simp [ofKey, List.find?_eq_none, Operation.mem_all]

theorem get_builtin (key : List UInt8) : get key .builtin = some (match Operation.ofKey key with
    | some op => ⟨op.code, true⟩
    | none => ⟨0, false⟩) := by
  have hget : get key .builtin = match OperationMap.builtin.items (hash key) with
      | .null => some ⟨0, false⟩
      | .item it => if it.is_valid ∧ it.key = key then some ⟨it.value, true⟩ else some ⟨0, false⟩
      | .freed => none := rfl
  rw [hget]
  simp only [OperationMap.builtin]
  cases hslot : Operation.all.find? fun op => hash op.key = hash key with
  | none =>
    have hnone : Operation.ofKey key = none := by
      apply Operation.ofKey_eq_none.mpr
      rintro op rfl
      exact absurd (List.find?_eq_none.mp hslot op op.mem_all) (by simp)
    simp [hnone]
  | some op =>
    have hhash : hash op.key = hash key := by simpa using List.find?_some hslot
    by_cases hkey : op.key = key
    · simp [Operation.ofKey_eq_some.mpr hkey, hkey]
    · have hnone : Operation.ofKey key = none := by
        apply Operation.ofKey_eq_none.mpr
        rintro op' rfl
        exact hkey (by rw [Operation.hash_key_injective hhash])
      simp [hnone, hkey]

end Naarad
