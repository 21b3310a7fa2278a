import Naarad.OperationMap
import Naarad.Queue.Refinement
import Naarad.Queue.Threads

/-!
# The array that `displayEntries` builds (`tui/lock_free_queue.c`)

`ReadPc` follows the reader's accesses to the list; here the same function runs alone and its
array is written out: which elements it writes, what they held before and what they hold after.
Elements from `MAX_ENTRIES` on lie behind the block that was allocated.
-/

set_option autoImplicit false

namespace Naarad.Queue

open LinkedHeap LabelledRun

/-- The allocated array: its elements, and the indices written so far. -/
structure EntryArray where
  slots : Nat → Message
  written : List Nat

def EntryArray.write (array : EntryArray) (index : Nat) (msg : Message) : EntryArray where
  slots := Function.update array.slots index msg
  written := array.written ++ [index]

@[simp] theorem EntryArray.write_self (array : EntryArray) (index : Nat) (msg : Message) :
    (array.write index msg).slots index = msg :=
  Function.update_self ..

theorem EntryArray.write_of_ne {array : EntryArray} {index i : Nat} {msg : Message}
    (h : i ≠ index) : (array.write index msg).slots i = array.slots i :=
  Function.update_of_ne h ..

@[simp] theorem EntryArray.written_write (array : EntryArray) (index : Nat) (msg : Message) :
    (array.write index msg).written = array.written ++ [index] := rfl

/-- One pass of the copy loop; `category` and `timestamp` are not copied. -/
def copyEntry (slot msg : Message) : Message :=
  let slot := { slot with
    op := msg.op
    gid := msg.gid
    uid := msg.uid
    comm := slot.comm.snprintf msg.comm.str
    file := slot.file.snprintf msg.file.str }
  if msg.op = Operation.rename.code then
    { slot with new_file := slot.new_file.snprintf msg.new_file.str }
  else slot

@[simp] theorem copyEntry_op (slot msg : Message) : (copyEntry slot msg).op = msg.op := by
  unfold copyEntry
  dsimp only
  split <;> rfl

@[simp] theorem copyEntry_gid (slot msg : Message) : (copyEntry slot msg).gid = msg.gid := by
  unfold copyEntry
  dsimp only
  split <;> rfl

@[simp] theorem copyEntry_uid (slot msg : Message) : (copyEntry slot msg).uid = msg.uid := by
  unfold copyEntry
  dsimp only
  split <;> rfl

@[simp] theorem copyEntry_comm (slot msg : Message) :
    (copyEntry slot msg).comm = slot.comm.snprintf msg.comm.str := by
  unfold copyEntry
  dsimp only
  split <;> rfl

@[simp] theorem copyEntry_file (slot msg : Message) :
    (copyEntry slot msg).file = slot.file.snprintf msg.file.str := by
  unfold copyEntry
  dsimp only
  split <;> rfl

theorem copyEntry_new_file (slot msg : Message) : (copyEntry slot msg).new_file =
    if msg.op = Operation.rename.code then slot.new_file.snprintf msg.new_file.str
    else slot.new_file := by
  unfold copyEntry
  dsimp only
  split <;> rfl

/-- `while (current != NULL && index < MAX_ENTRIES)`; `left` is `MAX_ENTRIES - index`. -/
def copyLoop (h : Heap Message) :
    Nat → Option Addr → Nat → EntryArray → Option (Nat × EntryArray)
  | 0, _, index, array => some (index, array)
  | _, none, index, array => some (index, array)
  | left + 1, some current, index, array =>
    match h current with
    | some cell => copyLoop h left cell.next (index + 1)
        (array.write index (copyEntry (array.slots index) cell.val))
    | none => none

/-- `block` is what `malloc` returns. The outer `none` is an access through a null pointer or to a
released node, the inner one is the returned null pointer. -/
def displayEntries (block : Option (Nat → Message)) (s : Dequeue) : Option (Option EntryArray) :=
  match block with
  | none => some none
  | some slots => do
    let dummy ← deref s.heap s.head
    let (index, array) ← copyLoop s.heap MAX_ENTRIES dummy.next 0 ⟨slots, []⟩
    if index = 0 then pure none
    else pure (some (array.write index { array.slots index with op := STOP_MESSAG }))

def copyAll : List Message → Nat → EntryArray → EntryArray
  | [], _, array => array
  | m :: ms, index, array =>
    copyAll ms (index + 1) (array.write index (copyEntry (array.slots index) m))

/-- The array for the messages `ms`: their copies, and the element that ends the list. -/
def encode (slots : Nat → Message) (ms : List Message) : Option EntryArray :=
  if ms = [] then none
  else
    let array := copyAll ms 0 ⟨slots, []⟩
    some (array.write ms.length { array.slots ms.length with op := STOP_MESSAG })

theorem copyAll_written (ms : List Message) (index : Nat) (array : EntryArray) :
    (copyAll ms index array).written = array.written ++ List.range' index ms.length := by
  induction ms generalizing index array with
  | nil => simp [copyAll]
  | cons m ms ih =>
    rw [copyAll, ih, EntryArray.written_write, List.append_assoc, List.length_cons,
      List.range'_succ]
    rfl

theorem copyAll_slots_of_lt {ms : List Message} {index i : Nat} {array : EntryArray}
    (h : i < index) : (copyAll ms index array).slots i = array.slots i := by
  induction ms generalizing index array with
  | nil => rfl
  | cons m ms ih =>
    rw [copyAll, ih (Nat.lt_succ_of_lt h), EntryArray.write_of_ne (Nat.ne_of_lt h)]

theorem copyAll_slots {ms : List Message} {i : Nat} (index : Nat) (array : EntryArray)
    (h : i < ms.length) :
    (copyAll ms index array).slots (index + i) = copyEntry (array.slots (index + i)) ms[i] := by
  induction ms generalizing index i array with
  | nil => cases h
  | cons m ms ih =>
    cases i with
    | zero =>
      simp only [copyAll, Nat.add_zero, List.getElem_cons_zero]
      rw [copyAll_slots_of_lt (Nat.lt_add_one index), EntryArray.write_self]
    | succ i =>
      have hi : i < ms.length := Nat.lt_of_succ_lt_succ h
      have hindex : index + (i + 1) = index + 1 + i := by omega
      rw [copyAll, hindex, ih _ _ hi, EntryArray.write_of_ne (by omega)]
      rfl

theorem encode_written {slots : Nat → Message} {ms : List Message} {array : EntryArray}
    (h : encode slots ms = some array) : array.written = List.range (ms.length + 1) := by
  simp only [encode] at h
  split at h
  · cases h
  · obtain rfl := Option.some.inj h
    rw [EntryArray.written_write, copyAll_written, List.range_succ, List.range_eq_range']
    rfl

theorem encode_slots {slots : Nat → Message} {ms : List Message} {array : EntryArray} {i : Nat}
    (h : encode slots ms = some array) (hi : i < ms.length) :
    array.slots i = copyEntry (slots i) ms[i] := by
  simp only [encode] at h
  split at h
  · cases h
  · obtain rfl := Option.some.inj h
    have hslot := copyAll_slots 0 ⟨slots, []⟩ hi
    rw [Nat.zero_add] at hslot
    rw [EntryArray.write_of_ne (Nat.ne_of_lt hi), hslot]

theorem encode_sentinel {slots : Nat → Message} {ms : List Message} {array : EntryArray}
    (h : encode slots ms = some array) : (array.slots ms.length).op = STOP_MESSAG := by
  simp only [encode] at h
  split at h
  · cases h
  · obtain rfl := Option.some.inj h
    rw [EntryArray.write_self]

theorem copyLoop_seg {h : Heap Message} {current : Option Addr} {ns : List Node} {left : Nat}
    (hseg : Seg h current ns none) (index : Nat) (array : EntryArray) :
    copyLoop h left current index array = some (index + ((vals ns).take left).length,
      copyAll ((vals ns).take left) index array) := by
  induction left generalizing current ns index array with
  | zero => rfl
  | succ left ih =>
    cases ns with
    | nil =>
      obtain rfl : current = none := hseg
      rfl
    | cons n ns =>
      obtain ⟨rfl, next, hcell, hrest⟩ := hseg
      rw [copyLoop, hcell]
      dsimp only
      rw [ih hrest, vals_cons, List.take_succ_cons, copyAll, List.length_cons]
      congr 2
      omega

theorem Holds.displayEntries {s : Dequeue} {ns : List Node} {q : List Message} (h : Holds s ns q)
    (slots : Nat → Message) :
    displayEntries (some slots) s = some (encode slots (q.take MAX_ENTRIES)) := by
  obtain ⟨dummy, rest, next, rfl, hhead, hcell, hrest⟩ := h.linked.head_cell
  obtain rfl : vals rest = q := h.messages
  have hdummy : deref s.heap s.head = some ⟨dummy.2, next⟩ := by rw [hhead, deref_some, hcell]
  simp only [Queue.displayEntries, hdummy, copyLoop_seg hrest, encode, Option.bind_eq_bind,
    Option.bind_some, Nat.zero_add, List.length_eq_zero_iff]
  split <;> rfl

/-! The reader of the concurrent system, when nothing else moves, copies what this function
copies. -/

/-- Nothing but the reader moves: at `pc` it is on its way to `q.take MAX_ENTRIES`. -/
def AloneInv (q : List Message) (s : Dequeue) : ReadPc → Prop
  | .loadHead => True
  | .loadNext head => head = s.head
  | .copy current copied => copied.length < MAX_ENTRIES ∧ ∃ ns, ns ≠ [] ∧
      Seg s.heap (some current) ns none ∧ q = copied ++ vals ns
  | .next current copied => copied.length ≤ MAX_ENTRIES ∧ ∃ cell ns, s.heap current = some cell ∧
      Seg s.heap cell.next ns none ∧ q = copied ++ vals ns
  | .loadSize copied => copied = q.take MAX_ENTRIES
  | .done copied => copied = q.take MAX_ENTRIES
  | .crash => False

theorem AloneInv.loop {q copied : List Message} {s : Dequeue} {current : Option Addr}
    {ns : List Node} (hseg : Seg s.heap current ns none) (hlen : copied.length ≤ MAX_ENTRIES)
    (hq : q = copied ++ vals ns) : AloneInv q s (.loop current copied) := by
  have hexit : copied = q.take MAX_ENTRIES → AloneInv q s (.exit copied) := by
    intro h
    unfold ReadPc.exit
    split
    · rename_i hnil
      exact (List.isEmpty_iff.mp hnil).symm.trans h
    · exact h
  cases current with
  | none =>
    cases ns with
    | cons n ns => exact absurd hseg.1 (by simp)
    | nil =>
      apply hexit
      rw [hq, vals_nil, List.append_nil, List.take_of_length_le hlen]
  | some a =>
    unfold ReadPc.loop
    dsimp only
    split
    · rename_i hlt
      refine ⟨hlt, ns, ?_, hseg, hq⟩
      rintro rfl
      cases hseg
    · apply hexit
      rw [hq, List.take_left' (by omega)]

theorem AloneInv.step {q : List Message} {s : Dequeue} {ns : List Node} {pc pc' : ReadPc}
    (hq : Holds s ns q) (h : AloneInv q s pc) (hstep : pc.step s = some pc') :
    AloneInv q s pc' := by
  cases pc with
  | loadHead =>
    obtain rfl := Option.some.inj hstep
    rfl
  | loadNext head =>
    obtain ⟨dummy, rest, next, rfl, hhead, hcell, hrest⟩ := hq.linked.head_cell
    obtain rfl : head = s.head := h
    simp only [ReadPc.step, hhead, deref_some, hcell] at hstep
    obtain rfl := Option.some.inj hstep
    exact .loop hrest (Nat.zero_le _) hq.messages.symm
  | copy current copied =>
    obtain ⟨hlt, ns', hne, hseg, hmsgs⟩ := h
    cases ns' with
    | nil => exact absurd rfl hne
    | cons n ns' =>
      obtain ⟨hn, next, hcell, hrest⟩ := hseg
      obtain rfl := Option.some.inj hn
      simp only [ReadPc.step, hcell] at hstep
      obtain rfl := Option.some.inj hstep
      refine ⟨?_, _, ns', hcell, hrest, ?_⟩
      · rw [List.length_append]
        exact hlt
      · rw [hmsgs, List.append_assoc]
        rfl
  | next current copied =>
    obtain ⟨hlen, cell, ns', hcell, hseg, hmsgs⟩ := h
    simp only [ReadPc.step, hcell] at hstep
    obtain rfl := Option.some.inj hstep
    exact .loop hseg hlen hmsgs
  | loadSize copied =>
    obtain rfl := Option.some.inj hstep
    exact h
  | done copied => cases hstep
  | crash => cases hstep

/-- A `displayEntries` of the TUI thread that no other thread disturbs returns the array of
`displayEntries`. -/
theorem displayEntries_eq_read {q copied : List Message} {s : Dequeue} {ns : List Node}
    {ls : List Unit} (hq : Holds s ns q)
    (hrun : exec (fun _ pc => ReadPc.step s pc) ls .loadHead = some (.done copied))
    (slots : Nat → Message) : displayEntries (some slots) s = some (encode slots copied) := by
  have hstart : AloneInv q s .loadHead := trivial
  have hinv : AloneInv q s (.done copied) :=
    exec_invariant (fun _ _ _ h hstep => AloneInv.step hq h hstep) hstart hrun
  rw [hq.displayEntries, ← show copied = q.take MAX_ENTRIES from hinv]

/-- Every element written lies in the block of `MAX_ENTRIES` messages. -/
def InBounds (result : Option EntryArray) : Prop :=
  ∀ array, result = some array → ∀ i ∈ array.written, i < MAX_ENTRIES

theorem inBounds_encode {slots : Nat → Message} {ms : List Message} :
    InBounds (encode slots ms) ↔ ms.length < MAX_ENTRIES := by
  cases ms with
  | nil => simp [InBounds, encode, MAX_ENTRIES]
  | cons m ms =>
    obtain ⟨array, harray⟩ : ∃ array, encode slots (m :: ms) = some array := ⟨_, rfl⟩
    have hwritten := encode_written harray
    constructor
    · intro h
      apply h array harray
      rw [hwritten, List.mem_range]
      exact Nat.lt_succ_self _
    · rintro h array' harray' i hi
      obtain rfl := Option.some.inj (harray.symm.trans harray')
      rw [hwritten, List.mem_range] at hi
      omega

/-- The array is written within its bounds exactly when the queue is not full. -/
theorem displayEntries_inBounds {c : Choice} {s₀ s : Dequeue} {calls : List (Call × List Choice)}
    {rets : List Ret} (hinit : initDequeue c = some s₀)
    (hrun : runCalls calls s₀ = some (s, rets)) (block : Option (Nat → Message)) :
    ∃ result, displayEntries block s = some result ∧
      (InBounds result ↔ (block.isSome → isFull s = false)) := by
  obtain ⟨⟨ns, hrep⟩, _⟩ := runCalls_represents hinit hrun
  cases block with
  | none => exact ⟨none, rfl, by simp [InBounds]⟩
  | some slots =>
    refine ⟨_, hrep.holds.displayEntries slots, ?_⟩
    have hbound := hrep.bounded
    have hfull := hrep.full_iff
    rw [inBounds_encode, List.take_of_length_le hbound]
    constructor
    · intro hlt _
      exact Bool.eq_false_iff.mpr fun h => Nat.ne_of_lt hlt (hfull.mp h)
    · intro h
      refine Nat.lt_of_le_of_ne hbound fun heq => ?_
      exact Bool.eq_false_iff.mp (h rfl) (hfull.mpr heq)

theorem displayEntries_inBounds_sample : ∃ s₀ s rets, initDequeue { fresh := some 0 } = some s₀ ∧
    runCalls sampleCalls s₀ = some (s, rets) ∧
    ∃ result, displayEntries (some fun _ => Message.zero) s = some result ∧
      (InBounds result ↔ ((some fun _ : Nat => Message.zero).isSome → isFull s = false)) := by
  refine ⟨_, _, _, rfl, rfl, ?_⟩
  exact displayEntries_inBounds (c := { fresh := some 0 }) rfl
    (show runCalls sampleCalls _ = some _ from rfl) _

/-- Pushes that fill an empty queue, each with a block of its own. -/
def fillCalls : List (Call × List Choice) :=
  (List.range MAX_ENTRIES).map fun i => (.pushRear Message.zero,
    { fresh := some (i + 1) } :: List.replicate 8 { fresh := none })

/-- With a full queue the element that ends the list is written behind the block. -/
theorem displayEntries_overrun : ∃ s₀ s rets array, initDequeue { fresh := some 0 } = some s₀ ∧
    runCalls fillCalls s₀ = some (s, rets) ∧
    displayEntries (some fun _ => Message.zero) s = some (some array) ∧
    MAX_ENTRIES ∈ array.written := by
  have hrun : (do
      let s₀ ← initDequeue { fresh := some 0 }
      let r ← runCalls fillCalls s₀
      let array ← displayEntries (some fun _ => Message.zero) r.1
      array.map EntryArray.written) = some (List.range (MAX_ENTRIES + 1)) := by
    decide +kernel
  obtain ⟨s₀, hs₀, hrun⟩ := Option.bind_eq_some_iff.mp hrun
  obtain ⟨⟨s, rets⟩, hs, hrun⟩ := Option.bind_eq_some_iff.mp hrun
  obtain ⟨result, hresult, hrun⟩ := Option.bind_eq_some_iff.mp hrun
  obtain ⟨array, rfl, hwritten⟩ := Option.map_eq_some_iff.mp hrun
  refine ⟨s₀, s, rets, array, hs₀, hs, hresult, ?_⟩
  rw [hwritten, List.mem_range]
  exact Nat.lt_succ_self _

end Naarad.Queue
