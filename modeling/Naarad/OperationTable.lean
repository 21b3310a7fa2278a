import Naarad.Lib.DirectMap
import Naarad.OperationMap

/-!
# The operation map as a direct-mapped table

One slot for each hash value and no probing: an insertion that meets another key in its slot is
dropped. The map therefore answers like a finite map as long as no two of its keys hash alike.
-/

set_option autoImplicit false

namespace Naarad

open CharArray DirectMap

abbrev Entry := List UInt8 × UInt8

def Slot.entry : Slot → Option Entry
  | .item it => some (it.key, it.value)
  | _ => none

def HashMapResult.ofOption : Option UInt8 → HashMapResult
  | some value => ⟨value, true⟩
  | none => ⟨0, false⟩

namespace OperationMap

def table (m : OperationMap) : Fin TABLE_SIZE → Option Entry := fun i => (m.items i).entry

/-- The map is initialised, and its slots are null or hold valid items. -/
structure Live (m : OperationMap) : Prop where
  initialized : m.initialized = true
  slots : ∀ i, m.items i = .null ∨ ∃ key value, m.items i = .item ⟨key, value, true⟩

variable {m m' : OperationMap} {h : List Entry}

def empty : OperationMap := ⟨fun _ => .null, true⟩

theorem live_empty : empty.Live := ⟨rfl, fun _ => Or.inl rfl⟩

theorem Live.store (hm : m.Live) (i : Fin TABLE_SIZE) (key : List UInt8) (value : UInt8) :
    Live { m with items := Function.update m.items i (.item ⟨key, value, true⟩) } := by
  refine ⟨hm.initialized, ?_⟩
  intro j
  by_cases hj : j = i
  · subst hj
    exact Or.inr ⟨key, value, Function.update_self ..⟩
  · dsimp only
    rw [Function.update_of_ne hj]
    exact hm.slots j

theorem table_store (m : OperationMap) (i : Fin TABLE_SIZE) (key : List UInt8) (value : UInt8) :
    table { m with items := Function.update m.items i (.item ⟨key, value, true⟩) } =
      Function.update m.table i (some (key, value)) := by
  funext j
  dsimp only [table]
  by_cases hj : j = i
  · subst hj
    rw [Function.update_self, Function.update_self]
    rfl
  · rw [Function.update_of_ne hj, Function.update_of_ne hj]
    rfl

theorem Live.insert (hm : m.Live) (key : List UInt8) (value : UInt8) :
    ∃ m', Naarad.insert key value m = some m' ∧ m'.Live ∧
      m'.table = DirectMap.insert hash key value m.table := by
  unfold Naarad.insert DirectMap.insert
  rw [if_pos hm.initialized]
  rcases hm.slots (hash key) with hslot | ⟨key', value', hslot⟩
  · have hentry : m.table (hash key) = none := by rw [table, hslot]; rfl
    rw [hslot, hentry]
    exact ⟨_, rfl, hm.store _ key value, table_store m _ key value⟩
  · have hentry : m.table (hash key) = some (key', value') := by rw [table, hslot]; rfl
    rw [hslot, hentry]
    dsimp only
    by_cases hkey : key' = key
    · subst hkey
      rw [if_pos rfl, if_pos rfl]
      exact ⟨_, rfl, hm.store _ key' value, table_store m _ key' value⟩
    · rw [if_neg hkey, if_neg hkey]
      exact ⟨m, rfl, hm, rfl⟩

theorem Live.get (hm : m.Live) (key : List UInt8) :
    Naarad.get key m = some (.ofOption (lookup hash key m.table)) := by
  unfold Naarad.get lookup
  rw [if_pos hm.initialized]
  rcases hm.slots (hash key) with hslot | ⟨key', value', hslot⟩
  · have hentry : m.table (hash key) = none := by rw [table, hslot]; rfl
    rw [hslot, hentry]
    rfl
  · have hentry : m.table (hash key) = some (key', value') := by rw [table, hslot]; rfl
    rw [hslot, hentry]
    by_cases hkey : key' = key
    · simp [hkey, HashMapResult.ofOption]
    · simp [hkey, HashMapResult.ofOption]

end OperationMap

def insertAll (ops : List Entry) (m : OperationMap) : Option OperationMap :=
  ops.foldlM (fun m kv => insert kv.1 kv.2 m) m

/-- What `init_operation_map` inserts. -/
def builtinEntries : List Entry := Operation.all.map fun op => (op.key, op.code)

theorem init_operation_map_eq {m : OperationMap} (hm : m.initialized = false) :
    init_operation_map m = insertAll builtinEntries .empty := by
  unfold init_operation_map insertAll builtinEntries
  rw [hm, List.foldlM_map]
  rfl

theorem insertAll_records {h : List Entry} {m : OperationMap} (hm : m.Live)
    (hrec : Records hash h m.table) (ops : List Entry) :
    ∃ m', insertAll ops m = some m' ∧ m'.Live ∧ Records hash (h ++ ops) m'.table := by
  induction ops generalizing h m with
  | nil => exact ⟨m, rfl, hm, by rwa [List.append_nil]⟩
  | cons kv ops ih =>
    obtain ⟨m₁, hinsert, hlive, htable⟩ := hm.insert kv.1 kv.2
    have hrec₁ : Records hash (h ++ [kv]) m₁.table := by
      rw [htable]
      exact hrec.insert kv.1 kv.2
    obtain ⟨m', hrest, hlive', hrec'⟩ := ih hlive hrec₁
    refine ⟨m', ?_, hlive', ?_⟩
    · unfold insertAll
      rw [List.foldlM_cons]
      exact Option.bind_eq_some_iff.mpr ⟨m₁, hinsert, hrest⟩
    · rwa [List.append_assoc] at hrec'

/-- `get` finds exactly the keys of `h`, with the value of their last insertion. -/
def FiniteMap (h : List Entry) (m : OperationMap) : Prop :=
  ∀ key, ∃ r, get key m = some r ∧ (r.found = true ↔ key ∈ h.map Prod.fst) ∧
    (r.found = true → latest key h = some r.value)

theorem finiteMap_iff_lookup {h : List Entry} {m : OperationMap} (hm : m.Live) :
    FiniteMap h m ↔ ∀ key, lookup hash key m.table = latest key h := by
  constructor
  · intro hmap key
    obtain ⟨r, hget, hfound, hvalue⟩ := hmap key
    rw [hm.get] at hget
    cases hlookup : lookup hash key m.table with
    | some value =>
      rw [hlookup] at hget
      cases hget
      exact (hvalue rfl).symm
    | none =>
      rw [hlookup] at hget
      cases hget
      apply (Option.not_isSome_iff_eq_none.mp ?_).symm
      intro hsome
      exact Bool.false_ne_true (hfound.mpr (latest_isSome.mp hsome))
  · intro hall key
    refine ⟨_, hm.get key, ?_⟩
    rw [hall key, ← latest_isSome]
    cases latest key h with
    | some value => simp [HashMapResult.ofOption]
    | none => simp [HashMapResult.ofOption]

/-- After `init_operation_map` and any insertions the operation map is a finite map if and only if
the keys inserted, by `init_operation_map` or since, have different hashes. -/
theorem operation_map_finite_iff (m₀ : OperationMap) (hm₀ : m₀.initialized = false)
    (ops : List Entry) :
    ∃ m, (init_operation_map m₀).bind (insertAll ops) = some m ∧
      (FiniteMap (builtinEntries ++ ops) m ↔
        ∀ key ∈ (builtinEntries ++ ops).map Prod.fst,
          ∀ key' ∈ (builtinEntries ++ ops).map Prod.fst, hash key = hash key' → key = key') := by
  obtain ⟨m₁, hinit, hlive₁, hrec₁⟩ :=
    insertAll_records OperationMap.live_empty Records.empty builtinEntries
  obtain ⟨m, hops, hlive, hrec⟩ := insertAll_records hlive₁ hrec₁ ops
  refine ⟨m, ?_, ?_⟩
  · rw [init_operation_map_eq hm₀, hinit]
    exact hops
  · rw [finiteMap_iff_lookup hlive]
    exact hrec.finite_map_iff

theorem operation_map_finite_iff_start :
    ∃ m, (init_operation_map .start).bind (insertAll [(ascii "open", 7)]) = some m ∧
      (FiniteMap (builtinEntries ++ [(ascii "open", 7)]) m ↔
        ∀ key ∈ (builtinEntries ++ [(ascii "open", 7)]).map Prod.fst,
          ∀ key' ∈ (builtinEntries ++ [(ascii "open", 7)]).map Prod.fst,
            hash key = hash key' → key = key') :=
  operation_map_finite_iff .start rfl [(ascii "open", 7)]

/-- `"append"` has the hash of `"create"`, so its insertion is lost. -/
theorem operation_map_not_finite : ∃ m,
    (init_operation_map .start).bind (insertAll [(ascii "append", 11)]) = some m ∧
      get (ascii "append") m = some ⟨0, false⟩ ∧
      ¬ FiniteMap (builtinEntries ++ [(ascii "append", 11)]) m := by
  have hget : ((init_operation_map .start).bind (insertAll [(ascii "append", 11)])).map
      (get (ascii "append")) = some (some ⟨0, false⟩) := by decide +kernel
  obtain ⟨m, hm, hget⟩ := Option.map_eq_some_iff.mp hget
  refine ⟨m, hm, hget, ?_⟩
  intro hmap
  obtain ⟨r, hr, hfound, _⟩ := hmap (ascii "append")
  cases hget.symm.trans hr
  exact Bool.false_ne_true (hfound.mpr (by decide))

end Naarad
