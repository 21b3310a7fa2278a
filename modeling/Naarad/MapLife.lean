import Naarad.Lib.LabelledRun
import Naarad.MapHeap
import Mathlib.Data.List.FinRange

/-!
# The life of the operation map

`init_operation_map`, `cleanup_operation_map` and `insert` in any order. Cleaning up frees every
block once, and initialising again overwrites the pointers that it left behind.
-/

set_option autoImplicit false

namespace Naarad

open CharArray DirectMap LabelledRun
open Function (update)

namespace MapHeap

variable {s t : MapHeap} {i j : Fin TABLE_SIZE} {a q : Nat} {key : List UInt8} {value : UInt8}

/-- What `cleanup_operation_map` frees at a slot, in this order. -/
def addresses (s : MapHeap) (i : Fin TABLE_SIZE) : List Nat :=
  match s.items i with
  | none => []
  | some a =>
    match s.blocks a with
    | some (.item q _ _) => [q, a]
    | _ => []

theorem Stored.addresses (h : Stored s i a q key value) : s.addresses i = [q, a] := by
  unfold MapHeap.addresses
  rw [h.items]
  dsimp only
  rw [h.item]

theorem addresses_of_none (h : s.items i = none) : s.addresses i = [] := by
  unfold addresses
  rw [h]

/-- The slots of `is` are empty, or their blocks are there. -/
def Intact (s : MapHeap) (is : List (Fin TABLE_SIZE)) : Prop :=
  ∀ i ∈ is, s.items i = none ∨ ∃ a q key value, Stored s i a q key value

/-- The blocks of `as` are gone, and nothing else has changed. -/
structure Freed (s : MapHeap) (as : List Nat) (t : MapHeap) : Prop where
  items : t.items = s.items
  initialized : t.initialized = s.initialized
  frees : t.frees = s.frees ++ as
  gone : ∀ b ∈ as, t.blocks b = none
  kept : ∀ b, b ∉ as → t.blocks b = s.blocks b

theorem Freed.trans {u : MapHeap} {as bs : List Nat} (h : Freed s as t) (h' : Freed t bs u) :
    Freed s (as ++ bs) u := by
  refine ⟨h'.items.trans h.items, h'.initialized.trans h.initialized, ?_, ?_, ?_⟩
  · rw [h'.frees, h.frees, List.append_assoc]
  · intro b hb
    by_cases hbs : b ∈ bs
    · exact h'.gone b hbs
    · rw [h'.kept b hbs]
      exact h.gone b ((List.mem_append.mp hb).resolve_right hbs)
  · intro b hb
    obtain ⟨has, hbs⟩ := not_or.mp (fun h => hb (List.mem_append.mpr h))
    rw [h'.kept b hbs, h.kept b has]

theorem Stored.free_item (h : Stored s i a q key value) :
    ∃ t, s.free_item a = some t ∧ Freed s [q, a] t := by
  have hqa : q ≠ a := (h.item_ne_string h).symm
  have ha : update s.blocks q none a = some (.item q value true) := by
    rw [Function.update_of_ne hqa.symm, h.item]
  refine ⟨{ s with
    blocks := update (update s.blocks q none) a none
    frees := s.frees ++ [q] ++ [a] }, ?_, ?_⟩
  · simp only [MapHeap.free_item, h.item, free, h.string, Option.bind_some, ha]
  refine ⟨rfl, rfl, List.append_assoc .., ?_, ?_⟩
  · intro b hb
    by_cases hba : b = a
    · exact hba ▸ Function.update_self ..
    · dsimp only
      rw [Function.update_of_ne hba]
      rcases List.mem_cons.mp hb with rfl | hb
      · exact Function.update_self ..
      · exact absurd (List.mem_singleton.mp hb) hba
  · intro b hb
    rw [List.mem_cons, List.mem_singleton] at hb
    obtain ⟨hbq, hba⟩ := not_or.mp hb
    dsimp only
    rw [Function.update_of_ne hba, Function.update_of_ne hbq]

/-- The loop frees the blocks of its slots, each once: those of other slots are not touched. -/
theorem freeSlots_spec (is : List (Fin TABLE_SIZE)) (hnodup : is.Nodup) (hs : s.Intact is) :
    ∃ t, s.freeSlots is = some t ∧ Freed s (is.flatMap s.addresses) t := by
  induction is generalizing s with
  | nil =>
    refine ⟨s, rfl, rfl, rfl, (List.append_nil _).symm, ?_, fun _ _ => rfl⟩
    intro b hb
    cases hb
  | cons i is ih =>
    obtain ⟨hi, hrest⟩ := List.nodup_cons.mp hnodup
    have htail : s.Intact is := fun j hj => hs j (List.mem_cons_of_mem i hj)
    rcases hs i List.mem_cons_self with hitems | ⟨a, q, key, value, hstored⟩
    · obtain ⟨t, hfree, hfreed⟩ := ih hrest htail
      refine ⟨t, ?_, ?_⟩
      · unfold freeSlots at hfree ⊢
        rw [List.foldlM_cons, hitems]
        exact hfree
      · rw [List.flatMap_cons, addresses_of_none hitems]
        exact hfreed
    · obtain ⟨t₁, hone, hfreed₁⟩ := hstored.free_item
      have hother : ∀ j ∈ is, ∀ a' q' key' value', Stored s j a' q' key' value' →
          Stored t₁ j a' q' key' value' := by
        intro j hj a' q' key' value' hstored'
        have hij : i ≠ j := fun heq => hi (heq ▸ hj)
        obtain ⟨haa, hqq⟩ := hstored.apart hstored' hij
        have haq := hstored.item_ne_string hstored'
        have hqa := hstored'.item_ne_string hstored
        apply hstored'.congr (congrFun hfreed₁.items j)
        · exact hfreed₁.kept a' (by simp [hqa, haa.symm])
        · exact hfreed₁.kept q' (by simp [hqq.symm, haq.symm])
      have hitems₁ : ∀ j, t₁.items j = s.items j := fun j => congrFun hfreed₁.items j
      have hintact₁ : t₁.Intact is := by
        intro j hj
        rcases htail j hj with hnone | ⟨a', q', key', value', hstored'⟩
        · exact Or.inl ((hitems₁ j).trans hnone)
        · exact Or.inr ⟨a', q', key', value', hother j hj _ _ _ _ hstored'⟩
      have haddresses : is.flatMap t₁.addresses = is.flatMap s.addresses := by
        apply List.flatMap_congr
        intro j hj
        rcases htail j hj with hnone | ⟨a', q', key', value', hstored'⟩
        · rw [addresses_of_none hnone, addresses_of_none ((hitems₁ j).trans hnone)]
        · rw [hstored'.addresses, (hother j hj _ _ _ _ hstored').addresses]
      obtain ⟨t, hfree, hfreed⟩ := ih hrest hintact₁
      rw [haddresses] at hfreed
      refine ⟨t, ?_, ?_⟩
      · unfold freeSlots at hfree ⊢
        rw [List.foldlM_cons, hstored.items]
        exact Option.bind_eq_some_iff.mpr ⟨t₁, hone, hfree⟩
      · rw [List.flatMap_cons, hstored.addresses]
        exact hfreed₁.trans hfreed

theorem Owned.intact (hs : s.Owned) (is : List (Fin TABLE_SIZE)) : s.Intact is := by
  intro i _
  cases hitems : s.items i with
  | none => exact Or.inl rfl
  | some a =>
    obtain ⟨q, key, value, hstored⟩ := hs.stored i a hitems
    exact Or.inr ⟨a, q, key, value, hstored⟩

theorem Owned.mem_addresses (hs : s.Owned) (b : Nat) :
    b ∈ (List.finRange TABLE_SIZE).flatMap s.addresses ↔ s.blocks b ≠ none := by
  rw [List.mem_flatMap]
  constructor
  · rintro ⟨i, _, hb⟩
    rcases hs.intact [i] i List.mem_cons_self with hitems | ⟨a, q, key, value, hstored⟩
    · rw [addresses_of_none hitems] at hb
      cases hb
    · rw [hstored.addresses, List.mem_cons, List.mem_singleton] at hb
      rcases hb with rfl | rfl
      · rw [hstored.string]
        exact Option.some_ne_none _
      · rw [hstored.item]
        exact Option.some_ne_none _
  · intro hb
    obtain ⟨i, a, q, key, value, hstored, hor⟩ := hs.covered b hb
    refine ⟨i, List.mem_finRange i, ?_⟩
    rw [hstored.addresses, List.mem_cons, List.mem_singleton]
    exact hor.symm

theorem Owned.nodup_addresses (hs : s.Owned) :
    ((List.finRange TABLE_SIZE).flatMap s.addresses).Nodup := by
  rw [List.nodup_flatMap]
  constructor
  · intro i _
    rcases hs.intact [i] i List.mem_cons_self with hitems | ⟨a, q, key, value, hstored⟩
    · rw [addresses_of_none hitems]
      exact List.nodup_nil
    · rw [hstored.addresses]
      have hqa : q ≠ a := (hstored.item_ne_string hstored).symm
      simp [hqa]
  · apply (List.nodup_finRange TABLE_SIZE).imp
    intro i j hij b hbi hbj
    rcases hs.intact [i] i List.mem_cons_self with hitems | ⟨a, q, key, value, hstored⟩
    · rw [addresses_of_none hitems] at hbi
      cases hbi
    rcases hs.intact [j] j List.mem_cons_self with hitems | ⟨a', q', key', value', hstored'⟩
    · rw [addresses_of_none hitems] at hbj
      cases hbj
    rw [hstored.addresses, List.mem_cons, List.mem_singleton] at hbi
    rw [hstored'.addresses, List.mem_cons, List.mem_singleton] at hbj
    obtain ⟨haa, hqq⟩ := hstored.apart hstored' hij
    rcases hbi with rfl | rfl
    · rcases hbj with heq | heq
      · exact hqq heq
      · exact hstored'.item_ne_string hstored heq.symm
    · rcases hbj with heq | heq
      · exact hstored.item_ne_string hstored' heq
      · exact haa heq

/-- Every block of an initialised map is freed exactly once. -/
theorem Owned.cleanup (hs : s.Owned) (hinit : s.initialized = true) :
    ∃ t freed, s.cleanup_operation_map = some t ∧ t.initialized = false ∧
      t.frees = s.frees ++ freed ∧ freed.Nodup ∧ (∀ b, b ∈ freed ↔ s.blocks b ≠ none) ∧
      ∀ b, t.blocks b = none := by
  obtain ⟨t, hfree, hfreed⟩ := freeSlots_spec (s := s) _ (List.nodup_finRange TABLE_SIZE)
    (hs.intact _)
  refine ⟨{ t with initialized := false }, _, ?_, rfl, hfreed.frees, hs.nodup_addresses,
    hs.mem_addresses, ?_⟩
  · unfold cleanup_operation_map
    rw [if_pos hinit, hfree]
    rfl
  · intro b
    by_cases hb : b ∈ (List.finRange TABLE_SIZE).flatMap s.addresses
    · exact hfreed.gone b hb
    · have hnone : s.blocks b = none := by
        by_contra hne
        exact hb ((hs.mem_addresses b).mpr hne)
      exact (hfreed.kept b hb).trans hnone

/-- The addresses of an initialisation are distinct and those of unused blocks. -/
def AllUnused (s : MapHeap) (addrs : Operation → Nat × Nat) : List Operation → Prop
  | [] => True
  | op :: ops => s.Unused (addrs op) ∧
    (∀ op' ∈ ops, (addrs op').1 ≠ (addrs op).1 ∧ (addrs op').1 ≠ (addrs op).2 ∧
      (addrs op').2 ≠ (addrs op).1 ∧ (addrs op').2 ≠ (addrs op).2) ∧
    AllUnused s addrs ops

instance decidableAllUnused (s : MapHeap) (addrs : Operation → Nat × Nat) :
    ∀ ops, Decidable (s.AllUnused addrs ops)
  | [] => .isTrue trivial
  | _ :: ops =>
    have := decidableAllUnused s addrs ops
    inferInstanceAs (Decidable (_ ∧ _ ∧ _))

theorem AllUnused.mono {addrs : Operation → Nat × Nat} {ops : List Operation}
    (h : s.AllUnused addrs ops)
    (hunused : ∀ op ∈ ops, s.Unused (addrs op) → t.Unused (addrs op)) : t.AllUnused addrs ops := by
  induction ops with
  | nil => trivial
  | cons op ops ih =>
    obtain ⟨hop, hother, htail⟩ := h
    refine ⟨hunused op List.mem_cons_self hop, hother, ?_⟩
    exact ih htail fun o ho => hunused o (List.mem_cons_of_mem op ho)

theorem Owned.insertOps {addrs : Operation → Nat × Nat} (ops : List Operation) (hs : s.Owned)
    (hinit : s.initialized = true) (hunused : s.AllUnused addrs ops) :
    ∃ t, ops.foldlM (fun s op => s.insert op.key op.code (addrs op)) s = some t ∧
      t.initialized = true ∧ t.Owned ∧
      insertAll (ops.map fun op => (op.key, op.code)) s.view = some t.view := by
  induction ops generalizing s with
  | nil => exact ⟨s, rfl, hinit, hs, rfl⟩
  | cons op ops ih =>
    obtain ⟨hop, hother, htail⟩ := hunused
    obtain ⟨t₁, hinsert, hinserted⟩ := hs.insert hinit op.key op.code hop
    have hafter : t₁.AllUnused addrs ops := by
      apply htail.mono
      rintro op' hop' ⟨h₁, h₂, hne⟩
      obtain ⟨h₁₁, h₁₂, h₂₁, h₂₂⟩ := hother op' hop'
      exact ⟨hinserted.blocks _ h₁₁ h₁₂ h₁, hinserted.blocks _ h₂₁ h₂₂ h₂, hne⟩
    obtain ⟨t, hrest, hinit', howned, hview⟩ := ih hinserted.owned hinserted.initialized hafter
    refine ⟨t, ?_, hinit', howned, ?_⟩
    · rw [List.foldlM_cons]
      exact Option.bind_eq_some_iff.mpr ⟨t₁, hinsert, hrest⟩
    · unfold insertAll at hview ⊢
      rw [List.map_cons, List.foldlM_cons]
      exact Option.bind_eq_some_iff.mpr ⟨t₁.view, hinserted.view, hview⟩

/-- Whatever pointers the slots hold, an initialisation ends with the built-in entries alone. -/
theorem init_of_cleaned {addrs : Operation → Nat × Nat} (hinit : s.initialized = false)
    (hblocks : ∀ b, s.blocks b = none) (hunused : s.AllUnused addrs Operation.all) :
    ∃ t, s.init_operation_map addrs = some t ∧ t.initialized = true ∧ t.Owned ∧
      t.view = .builtin := by
  have howned : Owned { s with items := fun _ => none, initialized := true } := by
    constructor
    · intro i a hi
      cases hi
    · intro b hb
      exact absurd (hblocks b) hb
  obtain ⟨t, hfold, hinit', howned', hview⟩ :=
    howned.insertOps Operation.all rfl (hunused.mono fun _ _ h => h)
  refine ⟨t, ?_, hinit', howned', ?_⟩
  · unfold init_operation_map
    rw [hinit]
    exact hfold
  · have hbuiltin := init_operation_map_start
    rw [init_operation_map_eq rfl] at hbuiltin
    exact Option.some.inj (hview.symm.trans hbuiltin)

end MapHeap

/-- A call on the map; `addrs` are the addresses that the allocator would return. -/
inductive MapCall where
  | init (addrs : Operation → Nat × Nat)
  | cleanup
  | insert (key : List UInt8) (value : UInt8) (addrs : Nat × Nat)

def MapCall.step : MapCall → MapHeap → Option MapHeap
  | .init addrs, s => s.init_operation_map addrs
  | .cleanup, s => s.cleanup_operation_map
  | .insert key value addrs, s => s.insert key value addrs

/-- The allocator does not hand out blocks in use. -/
def MapCall.Allocates : MapCall → MapHeap → Prop
  | .init addrs, s => s.initialized = false → s.AllUnused addrs Operation.all
  | .cleanup, _ => True
  | .insert _ _ addrs, s => s.Unused addrs

instance : ∀ c s, Decidable (MapCall.Allocates c s)
  | .init _, s => inferInstanceAs (Decidable (s.initialized = false → _))
  | .cleanup, _ => .isTrue trivial
  | .insert _ _ addrs, s => inferInstanceAs (Decidable (s.Unused addrs))

/-- The insertions since the latest initialisation that had an effect, if no cleanup followed. -/
def MapCall.since (inserted : Option (List Entry)) : MapCall → Option (List Entry)
  | .init _ => some (inserted.getD [])
  | .cleanup => none
  | .insert key value _ => inserted.map fun l => l ++ [(key, value)]

def sinceInit (calls : List MapCall) : Option (List Entry) := calls.foldl MapCall.since none

namespace MapHeap

variable {s t : MapHeap} {inserted : Option (List Entry)} {l : List Entry}

structure Live (s : MapHeap) (l : List Entry) : Prop where
  initialized : s.initialized = true
  owned : s.Owned
  records : Records hash (builtinEntries ++ l) s.view.table
  builtin : ∀ op : Operation, (lookup hash op.key s.view.table).isSome

/-- Between a cleanup and an initialisation there are no blocks; the slots are arbitrary. -/
def Inv (s : MapHeap) : Option (List Entry) → Prop
  | some l => s.Live l
  | none => s.initialized = false ∧ ∀ b, s.blocks b = none

theorem Inv.isSome (h : s.Inv inserted) : s.initialized = inserted.isSome := by
  cases inserted with
  | none => exact h.1
  | some l => exact h.initialized

theorem live_builtin (hinit : s.initialized = true) (howned : s.Owned) (hview : s.view = .builtin) :
    s.Live [] := by
  obtain ⟨m, hm, _, hrec⟩ :=
    insertAll_records OperationMap.live_empty Records.empty builtinEntries
  have hbuiltin := init_operation_map_start
  rw [init_operation_map_eq rfl, hm] at hbuiltin
  refine ⟨hinit, howned, ?_, ?_⟩
  · rw [hview, ← Option.some.inj hbuiltin, List.append_nil]
    exact hrec
  · intro op
    have hget := get_builtin op.key
    rw [Operation.ofKey_eq_some.mpr rfl, ← hview, (howned.live hinit).get] at hget
    cases hlookup : lookup hash op.key s.view.table with
    | some value => rfl
    | none =>
      rw [hlookup] at hget
      exact absurd (congrArg HashMapResult.found (Option.some.inj hget)) Bool.false_ne_true

theorem Live.insert (h : s.Live l) (key : List UInt8) (value : UInt8) {addrs : Nat × Nat}
    (hunused : s.Unused addrs) :
    ∃ t, s.insert key value addrs = some t ∧ t.Live (l ++ [(key, value)]) ∧
      t.view.table = DirectMap.insert hash key value s.view.table := by
  obtain ⟨t, hinsert, hinserted⟩ := h.owned.insert h.initialized key value hunused
  obtain ⟨m, hm, _, htable⟩ := (h.owned.live h.initialized).insert key value
  rw [hinserted.view, Option.some.injEq] at hm
  rw [← hm] at htable
  refine ⟨t, hinsert, ⟨hinserted.initialized, hinserted.owned, ?_, ?_⟩, htable⟩
  · rw [htable, ← List.append_assoc]
    exact h.records.insert key value
  · intro op
    obtain ⟨value', hvalue'⟩ := Option.isSome_iff_exists.mp (h.builtin op)
    rw [htable]
    by_cases hkey : op.key = key
    · rw [hkey] at hvalue' ⊢
      rw [lookup_insert_found hvalue']
      rfl
    · rw [lookup_insert_of_ne hkey, hvalue']
      rfl

theorem insert_of_not_initialized (h : s.initialized = false) (key : List UInt8) (value : UInt8)
    (addrs : Nat × Nat) : s.insert key value addrs = some s := by
  unfold insert
  rw [h]
  rfl

theorem Inv.step (h : s.Inv inserted) {c : MapCall} (hallocates : c.Allocates s) :
    ∃ t, c.step s = some t ∧ t.Inv (c.since inserted) := by
  cases inserted with
  | none =>
    obtain ⟨hinit, hblocks⟩ := h
    cases c with
    | init addrs =>
      obtain ⟨t, hstep, hinit', howned, hview⟩ := init_of_cleaned hinit hblocks (hallocates hinit)
      exact ⟨t, hstep, live_builtin hinit' howned hview⟩
    | cleanup =>
      refine ⟨s, ?_, hinit, hblocks⟩
      dsimp only [MapCall.step, cleanup_operation_map]
      rw [hinit]
      rfl
    | insert key value addrs => exact ⟨s, insert_of_not_initialized hinit .., hinit, hblocks⟩
  | some l =>
    have hlive : s.Live l := h
    cases c with
    | init addrs =>
      refine ⟨s, ?_, hlive⟩
      unfold MapCall.step init_operation_map
      exact if_pos hlive.initialized
    | cleanup =>
      obtain ⟨t, _, hstep, hinit, _, _, _, hblocks⟩ := hlive.owned.cleanup hlive.initialized
      exact ⟨t, hstep, hinit, hblocks⟩
    | insert key value addrs =>
      obtain ⟨t, hstep, hlive', _⟩ := hlive.insert _ _ hallocates
      exact ⟨t, hstep, hlive'⟩

theorem Inv.run {calls : List MapCall} (h : s.Inv inserted)
    (hallocates : Along MapCall.step MapCall.Allocates calls s) :
    ∃ t, exec MapCall.step calls s = some t ∧ t.Inv (calls.foldl MapCall.since inserted) := by
  induction calls generalizing s inserted with
  | nil => exact ⟨s, rfl, h⟩
  | cons c calls ih =>
    obtain ⟨t₁, hstep, hinv⟩ := h.step hallocates.1
    obtain ⟨t, hrun, hinv'⟩ := ih hinv (hallocates.tail hstep)
    exact ⟨t, exec_cons.mpr ⟨t₁, hstep, hrun⟩, hinv'⟩

theorem start_inv : start.Inv none := ⟨rfl, fun _ => rfl⟩

theorem get_of_not_initialized (h : s.initialized = false) (key : List UInt8) :
    s.get key = some ⟨0, false⟩ := by
  unfold get
  rw [h]
  rfl

theorem Live.get_eq (h : s.Live l) (key : List UInt8) :
    s.get key = some (.ofOption (lookup hash key s.view.table)) := by
  rw [h.owned.get, (h.owned.live h.initialized).get]

/-- An insertion leaves what `get` returns for the other keys. -/
theorem Inv.get_insert (h : s.Inv inserted) {key : List UInt8} {value : UInt8} {addrs : Nat × Nat}
    (hunused : s.Unused addrs) (hstep : s.insert key value addrs = some t) {k : List UInt8}
    (hk : k ≠ key) : t.get k = s.get k := by
  cases inserted with
  | none =>
    rw [insert_of_not_initialized h.1] at hstep
    rw [Option.some.inj hstep]
  | some l =>
    have hlive : s.Live l := h
    obtain ⟨t', hstep', hlive', htable⟩ := hlive.insert key value hunused
    obtain rfl := Option.some.inj (hstep.symm.trans hstep')
    rw [hlive'.get_eq, hlive.get_eq, htable, lookup_insert_of_ne hk]

/-- What the map keeps, given the insertions since it was last initialised. -/
structure Sound (s : MapHeap) (inserted : Option (List Entry)) : Prop where
  initialized : s.initialized = inserted.isSome
  placed : s.initialized = true → ∀ i a, s.items i = some a →
    ∃ it, s.load a = some it ∧ it.is_valid = true ∧ hash it.key = i
  others : ∀ key value addrs t k, s.Unused addrs → s.insert key value addrs = some t → k ≠ key →
    t.get k = s.get k
  collision : ∀ key value addrs a it, s.initialized = true → s.items (hash key) = some a →
    s.load a = some it → it.key ≠ key → s.insert key value addrs = some s
  builtin : ∀ l, inserted = some l → ∀ op : Operation, ∃ value,
    latest op.key (builtinEntries ++ l) = some value ∧ s.get op.key = some ⟨value, true⟩
  found : ∀ key r, s.get key = some r → r.found = true →
    ∃ l, inserted = some l ∧ ((∃ op : Operation, op.key = key) ∨ key ∈ l.map Prod.fst)
  cleanup : s.initialized = true → ∃ t freed, s.cleanup_operation_map = some t ∧
    t.frees = s.frees ++ freed ∧ freed.Nodup ∧ (∀ b, b ∈ freed ↔ s.blocks b ≠ none) ∧
    (∀ b, t.blocks b = none) ∧
    ∀ addrs, t.AllUnused addrs Operation.all →
      ∃ u, t.init_operation_map addrs = some u ∧ u.view = .builtin

theorem Live.placed (h : s.Live l) {i : Fin TABLE_SIZE} {a : Nat} (hitems : s.items i = some a) :
    ∃ it, s.load a = some it ∧ it.is_valid = true ∧ hash it.key = i := by
  obtain ⟨q, key, value, hstored⟩ := h.owned.stored i a hitems
  exact ⟨_, hstored.load, rfl, hstored.hash_eq⟩

theorem Live.get_builtin (h : s.Live l) (op : Operation) : ∃ value,
    latest op.key (builtinEntries ++ l) = some value ∧ s.get op.key = some ⟨value, true⟩ := by
  obtain ⟨value, hvalue⟩ := Option.isSome_iff_exists.mp (h.builtin op)
  refine ⟨value, h.records.latest _ _ hvalue, ?_⟩
  rw [h.get_eq, hvalue]
  rfl

theorem Live.mem_of_found (h : s.Live l) {key : List UInt8} {r : HashMapResult}
    (hget : s.get key = some r) (hfound : r.found = true) :
    (∃ op : Operation, op.key = key) ∨ key ∈ l.map Prod.fst := by
  rw [h.get_eq, Option.some.injEq] at hget
  cases hlookup : lookup hash key s.view.table with
  | none =>
    rw [hlookup] at hget
    rw [← hget] at hfound
    cases hfound
  | some value =>
    have hlatest := h.records.latest key value hlookup
    have hmem : key ∈ (builtinEntries ++ l).map Prod.fst :=
      latest_isSome.mp (by rw [hlatest]; rfl)
    rw [List.map_append, List.mem_append] at hmem
    rcases hmem with hmem | hmem
    · apply Or.inl
      obtain ⟨kv, hkv, rfl⟩ := List.mem_map.mp hmem
      obtain ⟨op, _, rfl⟩ := List.mem_map.mp hkv
      exact ⟨op, rfl⟩
    · exact Or.inr hmem

theorem Inv.sound (h : s.Inv inserted) : s.Sound inserted := by
  refine ⟨h.isSome, ?_, ?_, ?_, ?_, ?_, ?_⟩
  · intro hinit i a hitems
    cases inserted with
    | none => exact absurd (hinit.symm.trans h.1) (by decide)
    | some l => exact Live.placed h hitems
  · intro key value addrs t k hunused hstep hk
    exact h.get_insert hunused hstep hk
  · intro key value addrs a it hinit hitems hload hne
    exact insert_collision hinit hitems hload hne value addrs
  · rintro l rfl op
    exact Live.get_builtin h op
  · intro key r hget hfound
    cases inserted with
    | none =>
      rw [get_of_not_initialized h.1, Option.some.injEq] at hget
      rw [← hget] at hfound
      cases hfound
    | some l => exact ⟨l, rfl, Live.mem_of_found h hget hfound⟩
  · intro hinit
    cases inserted with
    | none => exact absurd (hinit.symm.trans h.1) (by decide)
    | some l =>
      have hlive : s.Live l := h
      obtain ⟨t, freed, hstep, hinit', hfrees, hnodup, hmem, hblocks⟩ := hlive.owned.cleanup hinit
      refine ⟨t, freed, hstep, hfrees, hnodup, hmem, hblocks, ?_⟩
      intro addrs hunused
      obtain ⟨u, hinit'', _, _, hview⟩ := init_of_cleaned hinit' hblocks hunused
      exact ⟨u, hinit'', hview⟩

end MapHeap

/-- For any calls, no dangling pointer is followed and nothing is freed twice, and in every state
the map is sound for the insertions since it was last initialised. -/
theorem operation_map_life {calls : List MapCall}
    (hallocates : Along MapCall.step MapCall.Allocates calls .start) :
    ∃ s, exec MapCall.step calls .start = some s ∧ s.Sound (sinceInit calls) := by
  obtain ⟨s, hrun, hinv⟩ := MapHeap.start_inv.run hallocates
  exact ⟨s, hrun, hinv.sound⟩

/-- A block for each item and each key, in the order of the codes. -/
def codeAddrs (op : Operation) : Nat × Nat := (2 * op.code.toNat, 2 * op.code.toNat + 1)

/-- `"append"` collides with `"create"`, `"open"` is overwritten, and the map is rebuilt. -/
def rebuiltMap : List MapCall :=
  [.init codeAddrs, .insert (ascii "append") 11 (100, 101), .insert (ascii "open") 7 (102, 103),
    .cleanup, .init codeAddrs]

theorem operation_map_life_rebuilt :
    ∃ s, exec MapCall.step rebuiltMap .start = some s ∧ s.Sound (sinceInit rebuiltMap) :=
  operation_map_life (by decide +kernel)

end Naarad
