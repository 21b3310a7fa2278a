import Naarad.OperationTable

/-!
# The operation map in memory

The slots hold pointers. `insert` allocates an item and a copy of its key, and
`cleanup_operation_map` frees both and leaves the pointers behind. Following a dangling pointer and
freeing a block twice is the undefined behaviour `none`, and so is an allocator that hands out a
block in use.
-/

set_option autoImplicit false

namespace Naarad

open Function (update)

/-- What `malloc` and `strdup` return: an item with its `key` pointer, or a string. -/
inductive Block where
  | item (key : Nat) (value : UInt8) (is_valid : Bool)
  | string (s : List UInt8)
  deriving DecidableEq

/-- `frees` records the addresses freed so far, for the statements only. -/
structure MapHeap where
  items : Fin TABLE_SIZE → Option Nat
  initialized : Bool
  blocks : Nat → Option Block
  frees : List Nat

namespace MapHeap

def start : MapHeap := ⟨fun _ => none, false, fun _ => none, []⟩

def malloc (a : Nat) (b : Block) (s : MapHeap) : Option MapHeap :=
  match s.blocks a with
  | none => some { s with blocks := update s.blocks a (some b) }
  | some _ => none

def free (a : Nat) (s : MapHeap) : Option MapHeap :=
  match s.blocks a with
  | some _ => some { s with blocks := update s.blocks a none, frees := s.frees ++ [a] }
  | none => none

def free_item (a : Nat) (s : MapHeap) : Option MapHeap :=
  match s.blocks a with
  | some (.item key _ _) => (s.free key).bind (free a)
  | _ => none

/-- The item behind a pointer, with its key. -/
def load (s : MapHeap) (a : Nat) : Option HashItem :=
  match s.blocks a with
  | some (.item q value is_valid) =>
    match s.blocks q with
    | some (.string key) => some ⟨key, value, is_valid⟩
    | _ => none
  | _ => none

/-- `addrs` are the addresses that `malloc` and `strdup` would return. -/
def insert (key : List UInt8) (value : UInt8) (addrs : Nat × Nat) (s : MapHeap) : Option MapHeap :=
  if s.initialized then
    match s.items (hash key) with
    | none =>
      ((s.malloc addrs.1 (.item addrs.2 value true)).bind (malloc addrs.2 (.string key))).map fun s =>
        { s with items := update s.items (hash key) (some addrs.1) }
    | some a =>
      match s.blocks a with
      | some (.item q _ _) =>
        match s.blocks q with
        | some (.string key') =>
          if key' = key then some { s with blocks := update s.blocks a (some (.item q value true)) }
          else some s
        | _ => none
      | _ => none
  else some s

def get (key : List UInt8) (s : MapHeap) : Option HashMapResult :=
  if s.initialized then
    match s.items (hash key) with
    | none => some ⟨0, false⟩
    | some a => (s.load a).map fun it => if it.is_valid ∧ it.key = key then ⟨it.value, true⟩ else ⟨0, false⟩
  else some ⟨0, false⟩

def init_operation_map (addrs : Operation → Nat × Nat) (s : MapHeap) : Option MapHeap :=
  if s.initialized then some s
  else
    Operation.all.foldlM (fun s op => s.insert op.key op.code (addrs op))
      { s with items := fun _ => none, initialized := true }

def freeSlots (is : List (Fin TABLE_SIZE)) (s : MapHeap) : Option MapHeap :=
  is.foldlM (fun s i => match s.items i with
    | some a => s.free_item a
    | none => some s) s

def cleanup_operation_map (s : MapHeap) : Option MapHeap :=
  if s.initialized then
    (s.freeSlots (List.finRange TABLE_SIZE)).map fun s => { s with initialized := false }
  else some s

/-- The map without its addresses; a dangling pointer is a freed slot. -/
def view (s : MapHeap) : OperationMap where
  items i :=
    match s.items i with
    | none => .null
    | some a =>
      match s.load a with
      | some it => .item it
      | none => .freed
  initialized := s.initialized

/-- Slot `i` points at the item `a`, whose key is at `q`. -/
structure Stored (s : MapHeap) (i : Fin TABLE_SIZE) (a q : Nat) (key : List UInt8) (value : UInt8) :
    Prop where
  items : s.items i = some a
  item : s.blocks a = some (.item q value true)
  string : s.blocks q = some (.string key)
  hash_eq : hash key = i

variable {s t : MapHeap} {i j : Fin TABLE_SIZE} {a a' q q' : Nat} {key key' : List UInt8}
  {value value' : UInt8} {addrs : Nat × Nat}

theorem load_eq_some {it : HashItem} (h : s.load a = some it) :
    ∃ q, s.blocks a = some (.item q it.value it.is_valid) ∧ s.blocks q = some (.string it.key) := by
  unfold load at h
  cases hitem : s.blocks a with
  | none =>
    rw [hitem] at h
    cases h
  | some b =>
    rw [hitem] at h
    cases b with
    | string str => cases h
    | item q value is_valid =>
      dsimp only at h
      cases hstring : s.blocks q with
      | none =>
        rw [hstring] at h
        cases h
      | some b =>
        rw [hstring] at h
        cases b with
        | item q' value' is_valid' => cases h
        | string key =>
          cases h
          exact ⟨q, rfl, hstring⟩

theorem Stored.load (h : Stored s i a q key value) : s.load a = some ⟨key, value, true⟩ := by
  unfold MapHeap.load
  rw [h.item]
  dsimp only
  rw [h.string]

theorem Stored.view_items (h : Stored s i a q key value) :
    s.view.items i = .item ⟨key, value, true⟩ := by
  unfold view
  dsimp only
  rw [h.items]
  dsimp only
  rw [h.load]

theorem view_items_of_none (h : s.items i = none) : s.view.items i = .null := by
  unfold view
  dsimp only
  rw [h]

/-- Two slots share no block: the hash of the key tells them apart. -/
theorem Stored.apart (h : Stored s i a q key value) (h' : Stored s j a' q' key' value')
    (hij : i ≠ j) : a ≠ a' ∧ q ≠ q' := by
  constructor
  · rintro rfl
    have hitem := h.item.symm.trans h'.item
    cases hitem
    have hstring := h.string.symm.trans h'.string
    cases hstring
    exact hij (h.hash_eq.symm.trans h'.hash_eq)
  · rintro rfl
    have hstring := h.string.symm.trans h'.string
    cases hstring
    exact hij (h.hash_eq.symm.trans h'.hash_eq)

theorem Stored.item_ne_string (h : Stored s i a q key value) (h' : Stored s j a' q' key' value') :
    a ≠ q' := by
  rintro rfl
  have hblock := h.item.symm.trans h'.string
  cases hblock

/-- A slot is as it was when its two blocks are. -/
theorem Stored.congr (h : Stored s i a q key value) (hitems : t.items i = s.items i)
    (ha : t.blocks a = s.blocks a) (hq : t.blocks q = s.blocks q) : Stored t i a q key value :=
  ⟨hitems.trans h.items, ha.trans h.item, hq.trans h.string, h.hash_eq⟩

/-- Every pointer leads to a valid item in the slot of its key, and there are no other blocks. -/
structure Owned (s : MapHeap) : Prop where
  stored : ∀ i a, s.items i = some a → ∃ q key value, Stored s i a q key value
  covered : ∀ b, s.blocks b ≠ none → ∃ i a q key value, Stored s i a q key value ∧ (b = a ∨ b = q)

theorem Owned.live (h : s.Owned) (hinit : s.initialized = true) : s.view.Live := by
  refine ⟨hinit, ?_⟩
  intro i
  cases hitems : s.items i with
  | none => exact Or.inl (view_items_of_none hitems)
  | some a =>
    obtain ⟨q, key, value, hstored⟩ := h.stored i a hitems
    exact Or.inr ⟨key, value, hstored.view_items⟩

theorem Owned.get (h : s.Owned) (key : List UInt8) : s.get key = Naarad.get key s.view := by
  unfold MapHeap.get Naarad.get
  by_cases hinit : s.initialized = true
  · have hview : s.view.initialized = true := hinit
    rw [if_pos hinit, if_pos hview]
    cases hitems : s.items (hash key) with
    | none => rw [view_items_of_none hitems]
    | some a =>
      obtain ⟨q, key', value, hstored⟩ := h.stored _ a hitems
      rw [hstored.view_items]
      dsimp only
      rw [hstored.load, Option.map_some]
      by_cases hkey : key' = key
      · simp [hkey]
      · simp [hkey]
  · have hview : ¬ s.view.initialized = true := hinit
    rw [if_neg hinit, if_neg hview]

/-- Slot `i` now holds a new item or a new value, and the other slots are as they were. -/
structure Filled (s : MapHeap) (i : Fin TABLE_SIZE) (a q : Nat) (key : List UInt8) (value : UInt8)
    (t : MapHeap) : Prop where
  initialized : t.initialized = s.initialized
  stored : Stored t i a q key value
  items : ∀ j, j ≠ i → t.items j = s.items j
  others : ∀ j a' q' key' value', j ≠ i → Stored s j a' q' key' value' → Stored t j a' q' key' value'
  blocks : ∀ b, b ≠ a → b ≠ q → t.blocks b = s.blocks b

theorem Filled.owned (h : Filled s i a q key value t) (hs : s.Owned)
    (hold : ∀ a' q' key' value', Stored s i a' q' key' value' → a' = a ∧ q' = q) : t.Owned := by
  constructor
  · intro j b hj
    by_cases hji : j = i
    · subst hji
      obtain rfl : b = a := Option.some.inj (hj.symm.trans h.stored.items)
      exact ⟨q, key, value, h.stored⟩
    · rw [h.items j hji] at hj
      obtain ⟨q', key', value', hstored⟩ := hs.stored j b hj
      exact ⟨q', key', value', h.others j b q' key' value' hji hstored⟩
  · intro b hb
    by_cases hab : b = a ∨ b = q
    · exact ⟨i, a, q, key, value, h.stored, hab⟩
    · obtain ⟨hba, hbq⟩ := not_or.mp hab
      rw [h.blocks b hba hbq] at hb
      obtain ⟨j, a', q', key', value', hstored, hor⟩ := hs.covered b hb
      by_cases hji : j = i
      · subst hji
        obtain ⟨rfl, rfl⟩ := hold a' q' key' value' hstored
        exact absurd hor hab
      · exact ⟨j, a', q', key', value', h.others j a' q' key' value' hji hstored, hor⟩

theorem Filled.view (h : Filled s i a q key value t) (hs : s.Owned) :
    t.view = { s.view with items := update s.view.items i (.item ⟨key, value, true⟩) } := by
  have hitems : t.view.items = update s.view.items i (.item ⟨key, value, true⟩) := by
    funext j
    by_cases hji : j = i
    · subst hji
      rw [Function.update_self, h.stored.view_items]
    · rw [Function.update_of_ne hji]
      cases hj : s.items j with
      | none => rw [view_items_of_none hj, view_items_of_none ((h.items j hji).trans hj)]
      | some b =>
        obtain ⟨q', key', value', hstored⟩ := hs.stored j b hj
        rw [hstored.view_items, (h.others j b q' key' value' hji hstored).view_items]
  have hinit : t.view.initialized = s.view.initialized := h.initialized
  show (⟨t.view.items, t.view.initialized⟩ : OperationMap) = _
  rw [hitems, hinit]

/-- The addresses are those of unused blocks. -/
def Unused (s : MapHeap) (addrs : Nat × Nat) : Prop :=
  s.blocks addrs.1 = none ∧ s.blocks addrs.2 = none ∧ addrs.1 ≠ addrs.2

instance (s : MapHeap) (addrs : Nat × Nat) : Decidable (s.Unused addrs) :=
  inferInstanceAs (Decidable (_ ∧ _))

theorem insert_new (value : UInt8) (hinit : s.initialized = true)
    (hitems : s.items (hash key) = none) (hunused : s.Unused addrs) :
    ∃ t, s.insert key value addrs = some t ∧
      Filled s (hash key) addrs.1 addrs.2 key value t := by
  obtain ⟨ha, hq, hne⟩ := hunused
  have hq' : update s.blocks addrs.1 (some (.item addrs.2 value true)) addrs.2 = none := by
    rwa [Function.update_of_ne hne.symm]
  refine ⟨{ s with
    items := update s.items (hash key) (some addrs.1)
    blocks := update (update s.blocks addrs.1 (some (.item addrs.2 value true))) addrs.2
      (some (.string key)) }, ?_, ?_⟩
  · simp only [MapHeap.insert, if_pos hinit, hitems, malloc, ha, Option.bind_some, hq',
      Option.map_some]
  refine ⟨rfl, ⟨Function.update_self .., ?_, Function.update_self .., rfl⟩, ?_, ?_, ?_⟩
  · dsimp only
    rw [Function.update_of_ne hne, Function.update_self]
  · intro j hj
    exact Function.update_of_ne hj ..
  · intro j a' q' key' value' hj hstored
    have hfresh : ∀ b, s.blocks b ≠ none → b ≠ addrs.1 ∧ b ≠ addrs.2 := by
      intro b hb
      exact ⟨fun heq => hb (heq ▸ ha), fun heq => hb (heq ▸ hq)⟩
    have ha' := hfresh a' (by rw [hstored.item]; exact Option.some_ne_none _)
    have hq'' := hfresh q' (by rw [hstored.string]; exact Option.some_ne_none _)
    refine hstored.congr (Function.update_of_ne hj ..) ?_ ?_
    · dsimp only
      rw [Function.update_of_ne ha'.2, Function.update_of_ne ha'.1]
    · dsimp only
      rw [Function.update_of_ne hq''.2, Function.update_of_ne hq''.1]
  · intro b hba hbq
    dsimp only
    rw [Function.update_of_ne hbq, Function.update_of_ne hba]

theorem insert_same (value : UInt8) (addrs : Nat × Nat) (hinit : s.initialized = true)
    (hstored : Stored s (hash key) a q key value') :
    ∃ t, s.insert key value addrs = some t ∧ Filled s (hash key) a q key value t := by
  refine ⟨{ s with blocks := update s.blocks a (some (.item q value true)) }, ?_, ?_⟩
  · simp only [MapHeap.insert, if_pos hinit, hstored.items, hstored.item, hstored.string, if_true]
  have hqa : q ≠ a := (hstored.item_ne_string hstored).symm
  refine ⟨rfl, ⟨hstored.items, Function.update_self .., ?_, rfl⟩, fun j _ => rfl, ?_, ?_⟩
  · exact (Function.update_of_ne hqa ..).trans hstored.string
  · intro j a' q' key' value'' hj hother
    refine hother.congr rfl ?_ ?_
    · exact Function.update_of_ne (hother.apart hstored hj).1 ..
    · exact Function.update_of_ne (hstored.item_ne_string hother).symm ..
  · intro b hba _
    exact Function.update_of_ne hba ..

theorem insert_collision (hinit : s.initialized = true) (hitems : s.items (hash key) = some a)
    {it : HashItem} (hload : s.load a = some it) (hne : it.key ≠ key) (value : UInt8)
    (addrs : Nat × Nat) : s.insert key value addrs = some s := by
  obtain ⟨q, hitem, hstring⟩ := load_eq_some hload
  unfold MapHeap.insert
  rw [if_pos hinit, hitems]
  dsimp only
  rw [hitem]
  dsimp only
  rw [hstring]
  exact if_neg hne

/-- What an insertion does to the blocks, and that it is the insertion of the operation map. -/
structure Inserted (s : MapHeap) (key : List UInt8) (value : UInt8) (addrs : Nat × Nat)
    (t : MapHeap) : Prop where
  initialized : t.initialized = true
  owned : t.Owned
  view : Naarad.insert key value s.view = some t.view
  blocks : ∀ b, b ≠ addrs.1 → b ≠ addrs.2 → s.blocks b = none → t.blocks b = none

theorem Owned.insert (hs : s.Owned) (hinit : s.initialized = true) (key : List UInt8) (value : UInt8)
    (hunused : s.Unused addrs) :
    ∃ t, s.insert key value addrs = some t ∧ Inserted s key value addrs t := by
  have hview : s.view.initialized = true := hinit
  cases hitems : s.items (hash key) with
  | none =>
    obtain ⟨t, hinsert, hfilled⟩ := insert_new value hinit hitems hunused
    refine ⟨t, hinsert, hfilled.initialized.trans hinit, ?_, ?_, ?_⟩
    · apply hfilled.owned hs
      intro a' q' key' value' hstored
      cases hitems.symm.trans hstored.items
    · unfold Naarad.insert
      rw [if_pos hview, view_items_of_none hitems, hfilled.view hs]
    · intro b hba hbq hb
      rw [hfilled.blocks b hba hbq, hb]
  | some a =>
    obtain ⟨q, key', value', hstored⟩ := hs.stored _ a hitems
    by_cases hkey : key' = key
    · subst hkey
      obtain ⟨t, hinsert, hfilled⟩ := insert_same value addrs hinit hstored
      refine ⟨t, hinsert, hfilled.initialized.trans hinit, ?_, ?_, ?_⟩
      · apply hfilled.owned hs
        intro a' q' key'' value'' hother
        obtain rfl : a' = a := Option.some.inj (hother.items.symm.trans hitems)
        have hitem := hother.item.symm.trans hstored.item
        cases hitem
        exact ⟨rfl, rfl⟩
      · unfold Naarad.insert
        rw [if_pos hview, hstored.view_items, hfilled.view hs]
        exact if_pos rfl
      · intro b _ _ hb
        have hba : b ≠ a := by
          rintro rfl
          cases hb.symm.trans hstored.item
        have hbq : b ≠ q := by
          rintro rfl
          cases hb.symm.trans hstored.string
        rw [hfilled.blocks b hba hbq, hb]
    · refine ⟨s, insert_collision hinit hitems hstored.load hkey value addrs, hinit, hs, ?_, ?_⟩
      · unfold Naarad.insert
        rw [if_pos hview, hstored.view_items]
        exact if_neg hkey
      · intro b _ _ hb
        exact hb

end MapHeap

end Naarad
