import Naarad.HandleEvent
import Naarad.Queue.Display

/-!
# The event table (`tui/tui.c`)

`update_table` decodes the array of `displayEntries` and draws one row of five cells for each entry.
A decoded entry ends the table when it carries the end mark or an empty file name.
-/

set_option autoImplicit false

namespace Naarad

open CharArray Queue

/-- The calls on the table's window; `mvwprintw` right-justifies its text to `width`. -/
inductive Draw where
  | werase
  | box
  | draw_table_headers
  | mvwprintw (y x width : Nat) (text : List UInt8)
  deriving DecidableEq

def Draw.isCell : Draw → Bool
  | .mvwprintw .. => true
  | _ => false

/-- The text that the `switch` puts into `operation`. -/
def operationText (op : UInt8) : List UInt8 :=
  match op with
  | 0 => ascii "open"
  | 1 => ascii "read"
  | 2 => ascii "write"
  | 3 => ascii "create"
  | 4 => ascii "link"
  | 5 => ascii "unlink"
  | 6 => ascii "syslink"
  | 7 => ascii "mkdir"
  | 8 => ascii "rmdir"
  | 9 => ascii "mknod"
  | 10 => ascii "rename"
  | _ => ascii "unknown"

def drawRow (i : Nat) (file comm operation user group : List UInt8) : List Draw :=
  [.mvwprintw (i + 3) 2 8 file,
    .mvwprintw (i + 3) 30 15 comm,
    .mvwprintw (i + 3) 48 8 operation,
    .mvwprintw (i + 3) 62 8 user,
    .mvwprintw (i + 3) 72 8 group]

/-- `for (int i = 0; i < MAX_ENTRIES; i++)`; `left` is `MAX_ENTRIES - i`. A lookup that fails leaves
a null pointer, and reading the name through it is the undefined behaviour `none`. -/
def drawRows (getpwuid getgrgid : UInt32 → Option (List UInt8)) (slots : Nat → Message) :
    Nat → Nat → Option (List Draw)
  | 0, _ => some []
  | left + 1, i =>
    if (slots i).op = STOP_MESSAG ∨ (slots i).file.bytes.head? = some 0 then some []
    else do
      let user ← getpwuid (slots i).uid
      let group ← getgrgid (slots i).gid
      let row :=
        drawRow i (slots i).file.str (slots i).comm.str (operationText (slots i).op) user group
      let rows ← drawRows getpwuid getgrgid slots left (i + 1)
      pure (row ++ rows)

def update_table (getpwuid getgrgid : UInt32 → Option (List UInt8))
    (block : Option (Nat → Message)) (s : Dequeue) : Option (List Draw) := do
  match ← displayEntries block s with
  | none => pure []
  | some array =>
    let rows ← drawRows getpwuid getgrgid array.slots MAX_ENTRIES 0
    pure ([.werase, .box, .draw_table_headers] ++ rows)

/-- The name under which an operation is known. -/
def operationName (op : UInt8) : List UInt8 :=
  match Operation.all.find? fun o => o.code = op with
  | some o => o.key
  | none => ascii "unknown"

theorem operationName_code (o : Operation) : operationName o.code = o.key := by
  cases o <;> decide

theorem operationText_eq (op : UInt8) : operationText op = operationName op := by
  unfold operationText
  split
  all_goals try rfl
  have hnone : Operation.all.find? (fun o => o.code = op) = none := by
    apply List.find?_eq_none.mpr
    intro o _ ho
    obtain rfl : o.code = op := by simpa using ho
    cases o <;> simp_all [Operation.code]
  rw [operationName, hnone]

/-- The rows of a table that shows the messages `ms`, from line `i` on. -/
def rowsFrom (user group : UInt32 → List UInt8) : Nat → List Message → List Draw
  | _, [] => []
  | i, m :: ms =>
    drawRow i m.file.str m.comm.str (operationName m.op) (user m.uid) (group m.gid) ++
      rowsFrom user group (i + 1) ms

theorem length_rowsFrom (user group : UInt32 → List UInt8) (i : Nat) (ms : List Message) :
    (rowsFrom user group i ms).length = 5 * ms.length := by
  induction ms generalizing i with
  | nil => rfl
  | cons m ms ih =>
    rw [rowsFrom, List.length_append, ih, List.length_cons]
    simp only [drawRow, List.length_cons, List.length_nil]
    omega

theorem isCell_rowsFrom (user group : UInt32 → List UInt8) (i : Nat) (ms : List Message) :
    ∀ d ∈ rowsFrom user group i ms, d.isCell = true := by
  induction ms generalizing i with
  | nil => simp [rowsFrom]
  | cons m ms ih =>
    intro d hd
    rcases List.mem_append.mp hd with hd | hd
    · simp only [drawRow, List.mem_cons, List.not_mem_nil, or_false] at hd
      rcases hd with rfl | rfl | rfl | rfl | rfl <;> rfl
    · exact ih (i + 1) d hd

def named (m : Message) : Bool := !m.file.str.isEmpty

/-- What every message that `handle_event` builds satisfies: it does not look like the end mark,
and its strings fit an entry. -/
structure Showable (m : Message) : Prop where
  op : m.op ≠ STOP_MESSAG
  comm : m.comm.str.length ≤ 15
  file : m.file.str.length ≤ 127

theorem MessageOf.showable {e : data_t} {m : Message} (h : MessageOf e m) : Showable m where
  op := by
    rw [h.op]
    exact mappedOp_ne_stop _
  comm := by
    rw [h.comm, List.length_take]
    omega
  file := by
    rw [h.file, List.length_take]
    omega

theorem Showable.comm_str {slot m : Message} (h : Showable m) :
    (copyEntry slot m).comm.str = m.comm.str := by
  rw [copyEntry_comm, str_snprintf _ (by decide) m.comm.nul_notMem_str]
  exact List.take_of_length_le h.comm

theorem Showable.file_str {slot m : Message} (h : Showable m) :
    (copyEntry slot m).file.str = m.file.str := by
  rw [copyEntry_file, str_snprintf _ (by decide) m.file.nul_notMem_str]
  exact List.take_of_length_le h.file

section Lookups
variable {getpwuid getgrgid : UInt32 → Option (List UInt8)} {user group : UInt32 → List UInt8}

/-- Decoding an encoded list stops at the first message without a file name. -/
theorem drawRows_copied (hpw : ∀ uid, getpwuid uid = some (user uid))
    (hgr : ∀ gid, getgrgid gid = some (group gid)) {slots slots' : Nat → Message}
    {ms : List Message} {left i : Nat} (hms : ∀ m ∈ ms, Showable m)
    (hslots : ∀ (k : Nat) (hk : k < ms.length), slots (i + k) = copyEntry (slots' (i + k)) ms[k])
    (hend : (slots (i + ms.length)).op = STOP_MESSAG) (hleft : ms.length < left) :
    drawRows getpwuid getgrgid slots left i =
      some (rowsFrom user group i (ms.takeWhile named)) := by
  induction ms generalizing left i with
  | nil =>
    cases left with
    | zero => cases hleft
    | succ left =>
      rw [List.length_nil, Nat.add_zero] at hend
      rw [drawRows, if_pos (Or.inl hend)]
      rfl
  | cons m ms ih =>
    cases left with
    | zero => cases hleft
    | succ left =>
      have hm := hms m List.mem_cons_self
      have hslot : slots i = copyEntry (slots' i) m := hslots 0 (Nat.zero_lt_succ _)
      have hempty : (slots i).file.bytes.head? = some 0 ↔ m.file.str = [] := by
        rw [← str_eq_nil _ (by decide), hslot, hm.file_str]
      by_cases hnil : m.file.str = []
      · rw [drawRows, if_pos (Or.inr (hempty.mpr hnil)), List.takeWhile_cons_of_neg]
        · rfl
        · simp [named, hnil]
      · have hgo : ¬((slots i).op = STOP_MESSAG ∨ (slots i).file.bytes.head? = some 0) := by
          rintro (h | h)
          · rw [hslot, copyEntry_op] at h
            exact hm.op h
          · exact hnil (hempty.mp h)
        have hrest : drawRows getpwuid getgrgid slots left (i + 1) =
            some (rowsFrom user group (i + 1) (ms.takeWhile named)) := by
          apply ih
          · exact fun m' hm' => hms m' (List.mem_cons_of_mem _ hm')
          · intro k hk
            have hk' : k + 1 < (m :: ms).length := Nat.succ_lt_succ hk
            rw [show i + 1 + k = i + (k + 1) by omega, hslots (k + 1) hk']
            rfl
          · rw [List.length_cons] at hend
            rw [show i + 1 + ms.length = i + (ms.length + 1) by omega]
            exact hend
          · exact Nat.lt_of_succ_lt_succ hleft
        rw [drawRows, if_neg hgo, List.takeWhile_cons_of_pos (by simp [named, hnil]), rowsFrom,
          hrest, hpw, hgr, hslot, hm.file_str, hm.comm_str, copyEntry_op, copyEntry_uid,
          copyEntry_gid, operationText_eq]
        rfl

theorem update_table_encode (hpw : ∀ uid, getpwuid uid = some (user uid))
    (hgr : ∀ gid, getgrgid gid = some (group gid)) {s : Dequeue} {ns : List Node}
    {q : List Message} (hq : Holds s ns q) (hlt : q.length < MAX_ENTRIES)
    (hshow : ∀ m ∈ q, Showable m) (slots : Nat → Message) :
    ∃ draws, update_table getpwuid getgrgid (some slots) s = some draws ∧
      draws.filter Draw.isCell = rowsFrom user group 0 (q.takeWhile named) := by
  have hentries := hq.displayEntries slots
  rw [List.take_of_length_le (Nat.le_of_lt hlt)] at hentries
  cases harray : encode slots q with
  | none =>
    have hnil : q = [] := by
      simp only [encode] at harray
      split at harray
      · assumption
      · cases harray
    refine ⟨[], ?_, ?_⟩
    · rw [update_table, hentries, harray]
      rfl
    · rw [hnil]
      rfl
  | some array =>
    have hrows := drawRows_copied (i := 0) hpw hgr hshow
      (fun k hk => by rw [Nat.zero_add]; exact encode_slots harray hk)
      (by rw [Nat.zero_add]; exact encode_sentinel harray) hlt
    refine ⟨[.werase, .box, .draw_table_headers] ++ rowsFrom user group 0 (q.takeWhile named),
      ?_, ?_⟩
    · rw [update_table, hentries, harray, Option.bind_eq_bind, Option.bind_some]
      dsimp only
      rw [hrows]
      rfl
    · rw [List.filter_append, List.filter_eq_self.mpr (isCell_rowsFrom _ _ _ _)]
      rfl

/-- The drawn rows are those of the queued messages exactly when each of them has a file name, and
there is an array to copy them to. -/
theorem update_table_rows (hpw : ∀ uid, getpwuid uid = some (user uid))
    (hgr : ∀ gid, getgrgid gid = some (group gid)) {c : Choice} {s₀ s : Dequeue}
    {calls : List (Call × List Choice)} {rets : List Ret} {q : List Message}
    (hinit : initDequeue c = some s₀) (hrun : runCalls calls s₀ = some (s, rets))
    (hbuilt : ∀ m cs, (.pushRear m, cs) ∈ calls →
      ∃ stack e, buildMessage .builtin stack e = some m)
    (hq : (specCalls calls []).1 = q) (hlt : q.length < MAX_ENTRIES)
    (block : Option (Nat → Message)) :
    ∃ draws, update_table getpwuid getgrgid block s = some draws ∧
      (draws.filter Draw.isCell = rowsFrom user group 0 q ↔
        (q ≠ [] → block.isSome) ∧ ∀ m ∈ q, m.file.str ≠ []) := by
  obtain ⟨⟨ns, hrep⟩, _⟩ := runCalls_represents hinit hrun
  rw [hq] at hrep
  cases block with
  | none =>
    refine ⟨[], rfl, ?_⟩
    constructor
    · intro h
      have hlen := congrArg List.length h
      rw [length_rowsFrom, List.filter_nil, List.length_nil] at hlen
      obtain rfl : q = [] := List.length_eq_zero_iff.mp (by omega)
      simp
    · rintro ⟨h, _⟩
      obtain rfl : q = [] := by
        by_contra hne
        cases h hne
      rfl
  | some slots =>
    have hshow : ∀ m ∈ q, Showable m := by
      intro m hm
      rw [← hq] at hm
      rcases mem_specCalls hm with hm | ⟨cs, hm⟩
      · cases hm
      · obtain ⟨stack, e, hmsg⟩ := hbuilt m cs hm
        obtain ⟨m', hm', hof⟩ := buildMessage_spec stack e
        obtain rfl := Option.some.inj (hmsg.symm.trans hm')
        exact hof.showable
    obtain ⟨draws, hdraws, hcells⟩ := update_table_encode hpw hgr hrep.holds hlt hshow slots
    refine ⟨draws, hdraws, ?_⟩
    have hall : (∀ m ∈ q, m.file.str ≠ []) ↔ ∀ m ∈ q, named m = true := by
      simp [named]
    rw [hcells, hall, ← List.takeWhile_eq_self_iff]
    constructor
    · intro h
      refine ⟨fun _ => rfl, ?_⟩
      have hlen := congrArg List.length h
      rw [length_rowsFrom, length_rowsFrom] at hlen
      exact (List.takeWhile_prefix named).eq_of_length (by omega)
    · rintro ⟨_, h⟩
      rw [h]

end Lookups

/-- A `read` of a file whose path was never cached, and a `read` of the file `a`. -/
def anonymousRead : data_t :=
  { data_t.zero with operation := (CharArray.zero 16).snprintf (ascii "read") }

def namedRead : data_t :=
  { anonymousRead with filename := (CharArray.zero 256).snprintf (ascii "a") }

/-- The removal of the file `b`. -/
def namedUnlink : data_t :=
  { data_t.zero with
    uid := 1000
    comm := (CharArray.zero 16).snprintf (ascii "rm")
    filename := (CharArray.zero 256).snprintf (ascii "b")
    operation := (CharArray.zero 16).snprintf (ascii "unlink") }

def pushCalls (ms : List Message) : List (Call × List Choice) :=
  ms.zipIdx.map fun (m, i) =>
    (.pushRear m, { fresh := some (i + 1) } :: List.replicate 8 { fresh := none })

theorem mem_of_mem_pushCalls {ms : List Message} {m : Message} {cs : List Choice}
    (h : (.pushRear m, cs) ∈ pushCalls ms) : m ∈ ms := by
  obtain ⟨⟨m', i⟩, hmem, heq⟩ := List.mem_map.mp h
  cases heq
  exact List.fst_mem_of_mem_zipIdx hmem

def root : UInt32 → List UInt8 := fun _ => ascii "root"

theorem update_table_rows_sample : ∃ s₀ s rets m₁ m₂ draws,
    initDequeue { fresh := some 0 } = some s₀ ∧ buildMessage .builtin .zero namedRead = some m₁ ∧
    buildMessage .builtin .zero namedUnlink = some m₂ ∧
    runCalls (pushCalls [m₁, m₂, m₁]) s₀ = some (s, rets) ∧
    update_table (some ∘ root) (some ∘ root) (some fun _ => Message.zero) s = some draws ∧
    draws.filter Draw.isCell = rowsFrom root root 0 [m₁, m₂, m₁] := by
  obtain ⟨m₁, hm₁, hof₁⟩ := buildMessage_spec .zero namedRead
  obtain ⟨m₂, hm₂, hof₂⟩ := buildMessage_spec .zero namedUnlink
  have hroot : ∀ id, (some ∘ root) id = some (root id) := fun _ => rfl
  have hbuilt : ∀ m ∈ [m₁, m₂, m₁], ∃ stack e, buildMessage .builtin stack e = some m := by
    simp only [List.forall_mem_cons]
    exact ⟨⟨_, _, hm₁⟩, ⟨_, _, hm₂⟩, ⟨_, _, hm₁⟩, fun m hm => absurd hm List.not_mem_nil⟩
  obtain ⟨draws, hdraws, hiff⟩ := update_table_rows hroot hroot (c := { fresh := some 0 }) rfl
    (show runCalls (pushCalls [m₁, m₂, m₁]) _ = some _ from rfl)
    (fun m cs h => hbuilt m (mem_of_mem_pushCalls h))
    (show (specCalls (pushCalls [m₁, m₂, m₁]) []).1 = [m₁, m₂, m₁] from rfl)
    (show 3 < MAX_ENTRIES by decide) (some fun _ => Message.zero)
  have hnamed₁ : m₁.file.str ≠ [] := by
    rw [hof₁.file]
    decide +kernel
  have hnamed₂ : m₂.file.str ≠ [] := by
    rw [hof₂.file]
    decide +kernel
  refine ⟨_, _, _, m₁, m₂, draws, rfl, hm₁, hm₂, rfl, hdraws, hiff.mpr ⟨fun _ => rfl, ?_⟩⟩
  simp [hnamed₁, hnamed₂]

/-- A message without a file name hides itself and the named one behind it. -/
theorem update_table_hides : ∃ s₀ s rets m₁ m₂ draws, initDequeue { fresh := some 0 } = some s₀ ∧
    buildMessage .builtin .zero anonymousRead = some m₁ ∧
    buildMessage .builtin .zero namedRead = some m₂ ∧
    runCalls (pushCalls [m₁, m₂]) s₀ = some (s, rets) ∧
    (specCalls (pushCalls [m₁, m₂]) []).1 = [m₁, m₂] ∧
    update_table (some ∘ root) (some ∘ root) (some fun _ => Message.zero) s = some draws ∧
    draws.filter Draw.isCell = [] ∧ rowsFrom root root 0 [m₁, m₂] ≠ [] := by
  have hrun : (do
      let s₀ ← initDequeue { fresh := some 0 }
      let m₁ ← buildMessage .builtin .zero anonymousRead
      let m₂ ← buildMessage .builtin .zero namedRead
      let r ← runCalls (pushCalls [m₁, m₂]) s₀
      let draws ← update_table (some ∘ root) (some ∘ root) (some fun _ => Message.zero) r.1
      pure (draws.filter Draw.isCell)) = some [] := by
    decide +kernel
  obtain ⟨s₀, hs₀, hrun⟩ := Option.bind_eq_some_iff.mp hrun
  obtain ⟨m₁, hm₁, hrun⟩ := Option.bind_eq_some_iff.mp hrun
  obtain ⟨m₂, hm₂, hrun⟩ := Option.bind_eq_some_iff.mp hrun
  obtain ⟨⟨s, rets⟩, hs, hrun⟩ := Option.bind_eq_some_iff.mp hrun
  obtain ⟨draws, hdraws, hcells⟩ := Option.bind_eq_some_iff.mp hrun
  exact ⟨s₀, s, rets, m₁, m₂, draws, hs₀, hm₁, hm₂, hs, rfl, hdraws, Option.some.inj hcells,
    List.cons_ne_nil _ _⟩

end Naarad
