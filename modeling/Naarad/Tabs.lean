import Naarad.Lib.PointerUse
import Naarad.Table

/-!
# The tabs and what they draw (`tui/tui.c`)

`create_tabs` returns nothing, and early where a window cannot be created; the fields behind are
then not assigned. The screen is drawn from them. `newwin`, `derwin` and `malloc` return what a
pattern of successes says, and the lookups of a row succeed or fail per row. `content_win` and
`stdscr` are there before.
-/

set_option autoImplicit false

namespace Naarad.Tui

open Function (update)
open PointerUse Queue

def NUM_BLOCKS : Nat := 3
def NUM_TABS : Nat := 2

structure Block where
  win : Pointer
  startx : Option Int32
  starty : Option Int32
  width : Option Int32
  height : Option Int32

structure Tab where
  win : Pointer
  title : Pointer
  blocks : Fin NUM_BLOCKS → Block
  table_win : Pointer

def Block.unassigned : Block := ⟨.unassigned, none, none, none, none⟩

/-- A local variable before any of its fields is assigned. -/
def Tab.unassigned : Tab := ⟨.unassigned, .unassigned, fun _ => .unassigned, .unassigned⟩

/-- Which of the calls during the creation succeed, and the size of `content_win`. -/
structure Creation where
  max_y : Int32
  max_x : Int32
  newwin : Fin NUM_TABS → Bool
  malloc : Fin NUM_TABS → Bool
  derwin : Fin NUM_BLOCKS → Bool
  derwin_table : Bool

/-! All that matters of the library's drawing functions is which arguments they need. -/

def wbkgd (win : Pointer) (_color_pair : Nat) : Checked Unit := win.pass
def werase (win : Pointer) : Checked Unit := win.pass
def box (win : Pointer) : Checked Unit := win.pass
def wnoutrefresh (win : Pointer) : Checked Unit := win.pass

/-- `strings` are the arguments for `%s` that are not literals or arrays. -/
def mvwprintw (win : Pointer) (strings : List Pointer) : Checked Unit := do
  win.pass
  strings.forM Pointer.pass

/-! Every call in these four is on their argument. -/

def draw_bar_graph (win : Pointer) : Checked Unit := win.pass
def draw_paragraph (win : Pointer) : Checked Unit := win.pass
def draw_list (win : Pointer) : Checked Unit := win.pass
def draw_table_headers (win : Pointer) : Checked Unit := win.pass

/-- The blocks from `i` on; a block without a window ends the loop. -/
def createBlocks (c : Creation) :
    List (Fin NUM_BLOCKS) → (Fin NUM_BLOCKS → Block) → Checked (Fin NUM_BLOCKS → Block)
  | [], blocks => pure blocks
  | i :: is, blocks => do
    let block_height := c.max_y / Int32.ofNat NUM_BLOCKS
    let block := { blocks i with
      width := some c.max_x
      height := some block_height
      startx := some 0
      starty := some (Int32.ofNat i * block_height) }
    let _ ← field block.starty
    let _ ← field block.startx
    let block := { block with win := .ofResult (c.derwin i) }
    let blocks := update blocks i block
    if block.win = .null then pure blocks
    else do
      box block.win
      wbkgd block.win 1
      createBlocks c is blocks

def create_blocks (c : Creation) (blocks : Fin NUM_BLOCKS → Block) :
    Checked (Fin NUM_BLOCKS → Block) :=
  createBlocks c (List.finRange NUM_BLOCKS) blocks

def create_table (c : Creation) (tab : Tab) : Checked Tab := do
  let tab := { tab with table_win := .ofResult c.derwin_table }
  if tab.table_win = .null then pure tab
  else do
    box tab.table_win
    wbkgd tab.table_win 1
    pure tab

def overview : Fin NUM_TABS := ⟨0, by decide⟩
def fileActivity : Fin NUM_TABS := ⟨1, by decide⟩

def create_tabs (c : Creation) (tabs : Fin NUM_TABS → Tab) : Checked (Fin NUM_TABS → Tab) := do
  let first : Tab := { tabs overview with win := .ofResult (c.newwin overview) }
  if first.win = .null then pure (update tabs overview first)
  else do
    let first := { first with title := .ofResult (c.malloc overview) }
    first.title.pass  -- `snprintf` writes "Overview"
    let blocks ← create_blocks c first.blocks
    let tabs := update tabs overview { first with blocks }
    let second : Tab := { tabs fileActivity with win := .ofResult (c.newwin fileActivity) }
    if second.win = .null then pure (update tabs fileActivity second)
    else do
      let second := { second with title := .ofResult (c.malloc fileActivity) }
      second.title.pass  -- "File Activity"
      let second ← create_table c second
      pure (update tabs fileActivity second)

def draw_tabs (tabs : Fin NUM_TABS → Tab) (current_tab : Fin NUM_TABS) : Checked Unit :=
  (List.finRange NUM_TABS).forM fun i => do
    wbkgd (tabs i).win (if i = current_tab then 4 else 2)
    werase (tabs i).win
    box (tabs i).win
    mvwprintw (tabs i).win [(tabs i).title]
    wnoutrefresh (tabs i).win

/-- What one call of `update_table` meets: a queue at rest, the block that `displayEntries`
allocates, and the answers of the lookups, row by row. -/
structure View where
  block : Option (Nat → Message)
  queue : Dequeue
  nodes : List Node
  messages : List Message
  holds : Holds queue nodes messages
  short : messages.length < MAX_ENTRIES
  getpwuid : Nat → UInt32 → Option (List UInt8)
  getgrgid : Nat → UInt32 → Option (List UInt8)

/-- `for (int i = 0; i < MAX_ENTRIES; i++)`; `left` is `MAX_ENTRIES - i`. -/
def showRows (v : View) (table_win : Pointer) (slots : Nat → Message) : Nat → Nat → Checked Unit
  | 0, _ => pure ()
  | left + 1, i =>
    if (slots i).op = STOP_MESSAG ∨ (slots i).file.bytes.head? = some 0 then pure ()
    else do
      let pw := v.getpwuid i (slots i).uid
      let gr := v.getgrgid i (slots i).gid
      -- `file`, `comm` and `operation` are arrays
      mvwprintw table_win []
      mvwprintw table_win []
      mvwprintw table_win []
      let _ ← deref pw
      mvwprintw table_win []
      let _ ← deref gr
      mvwprintw table_win []
      showRows v table_win slots left (i + 1)

def update_table (v : View) (tab : Tab) : Checked Unit :=
  match displayEntries v.block v.queue with
  | none => .error .null_dereferenced
  | some none => pure ()
  | some (some array) => do
    werase tab.table_win
    box tab.table_win
    draw_table_headers tab.table_win
    showRows v tab.table_win array.slots MAX_ENTRIES 0
    wnoutrefresh tab.table_win

def drawBlock (i : Fin NUM_BLOCKS) (win : Pointer) : Checked Unit :=
  match i.val with
  | 0 => draw_bar_graph win
  | 1 => draw_paragraph win
  | _ => draw_list win

def show_tab (v : View) (tab : Tab) (tab_index : Fin NUM_TABS) (current_block : Nat) :
    Checked Unit :=
  if tab_index.val = 0 then
    (List.finRange NUM_BLOCKS).forM fun i => do
      wbkgd (tab.blocks i).win (if i.val = current_block then 3 else 1)
      werase (tab.blocks i).win
      box (tab.blocks i).win
      mvwprintw (tab.blocks i).win []
      drawBlock i (tab.blocks i).win
      wnoutrefresh (tab.blocks i).win
  else update_table v tab

def redraw_screen (v : View) (tabs : Fin NUM_TABS → Tab) (current_tab : Fin NUM_TABS)
    (current_block : Nat) : Checked Unit := do
  draw_tabs tabs current_tab
  show_tab v (tabs current_tab) current_tab current_block

/-! What makes each function safe -/

@[simp] theorem safe_mvwprintw {win : Pointer} {strings : List Pointer} :
    Safe (mvwprintw win strings) ↔ win = .valid ∧ ∀ p ∈ strings, p = .valid := by
  unfold mvwprintw
  rw [safe_seq, safe_forM]
  simp only [Pointer.safe_pass]

theorem safe_drawBlock {i : Fin NUM_BLOCKS} {win : Pointer} :
    Safe (drawBlock i win) ↔ win = .valid := by
  unfold drawBlock
  split <;> exact Pointer.safe_pass

theorem safe_draw_tabs {tabs : Fin NUM_TABS → Tab} {current_tab : Fin NUM_TABS} :
    Safe (draw_tabs tabs current_tab) ↔ ∀ i, (tabs i).win = .valid ∧ (tabs i).title = .valid := by
  unfold draw_tabs
  rw [safe_forM]
  simp only [List.mem_finRange, true_implies, wbkgd, werase, box, wnoutrefresh, safe_seq,
    safe_mvwprintw, Pointer.safe_pass, List.forall_mem_singleton]
  apply forall_congr'
  intro i
  constructor
  · exact fun h => h.2.2.2.1
  · exact fun h => ⟨h.1, h.1, h.1, h, h.1⟩

theorem safe_show_overview {v : View} {tab : Tab} {current_block : Nat} :
    Safe (show_tab v tab overview current_block) ↔ ∀ i, (tab.blocks i).win = .valid := by
  unfold show_tab
  rw [if_pos (show overview.val = 0 from rfl), safe_forM]
  simp only [List.mem_finRange, true_implies, wbkgd, werase, box, wnoutrefresh, safe_seq,
    safe_mvwprintw, safe_drawBlock, Pointer.safe_pass]
  apply forall_congr'
  intro i
  constructor
  · exact fun h => h.1
  · exact fun h => ⟨h, h, h, ⟨h, fun p hp => by cases hp⟩, h, h⟩

/-- The block that one pass of the loop assigns. -/
def Creation.block (c : Creation) (i : Fin NUM_BLOCKS) : Block where
  win := .ofResult (c.derwin i)
  startx := some 0
  starty := some (Int32.ofNat i * (c.max_y / Int32.ofNat NUM_BLOCKS))
  width := some c.max_x
  height := some (c.max_y / Int32.ofNat NUM_BLOCKS)

theorem createBlocks_cons (c : Creation) (i : Fin NUM_BLOCKS) (is : List (Fin NUM_BLOCKS))
    (blocks : Fin NUM_BLOCKS → Block) : createBlocks c (i :: is) blocks =
      if c.derwin i = true then createBlocks c is (update blocks i (c.block i))
      else .ok (update blocks i (c.block i)) := by
  cases hderwin : c.derwin i with
  | false =>
    rw [if_neg Bool.false_ne_true]
    simp only [createBlocks, Creation.block, hderwin]
    rfl
  | true =>
    rw [if_pos rfl]
    simp only [createBlocks, Creation.block, hderwin]
    rfl

theorem createBlocks_spec (c : Creation) {is : List (Fin NUM_BLOCKS)} (hdistinct : is.Nodup)
    (blocks : Fin NUM_BLOCKS → Block) :
    ∃ r, createBlocks c is blocks = .ok r ∧ (∀ i, i ∉ is → r i = blocks i) ∧
      ((∀ i ∈ is, (r i).win = .valid) ↔ ∀ i ∈ is, c.derwin i = true) := by
  induction is generalizing blocks with
  | nil => exact ⟨blocks, rfl, fun _ _ => rfl, by simp⟩
  | cons i is ih =>
    obtain ⟨hi, hrest⟩ := List.nodup_cons.mp hdistinct
    rw [createBlocks_cons]
    by_cases hderwin : c.derwin i = true
    · rw [if_pos hderwin]
      obtain ⟨r, hr, hother, hvalid⟩ := ih hrest (update blocks i (c.block i))
      have hwin : (r i).win = .valid := by
        rw [hother i hi, Function.update_self]
        exact Pointer.ofResult_eq_valid.mpr hderwin
      refine ⟨r, hr, ?_, ?_⟩
      · intro j hj
        rw [hother j fun hmem => hj (List.mem_cons_of_mem _ hmem),
          Function.update_of_ne (List.ne_of_not_mem_cons hj)]
      · rw [List.forall_mem_cons, List.forall_mem_cons, hvalid]
        exact and_congr_left' (iff_of_true hwin hderwin)
    · rw [if_neg hderwin]
      refine ⟨_, rfl, ?_, ?_⟩
      · intro j hj
        exact Function.update_of_ne (List.ne_of_not_mem_cons hj) _ _
      · constructor
        · intro h
          have hwin := h i List.mem_cons_self
          rw [Function.update_self] at hwin
          exact absurd (Pointer.ofResult_eq_valid.mp hwin) hderwin
        · exact fun h => absurd (h i List.mem_cons_self) hderwin

theorem create_table_eq (c : Creation) (tab : Tab) :
    create_table c tab = .ok { tab with table_win := .ofResult c.derwin_table } := by
  cases htable : c.derwin_table with
  | false =>
    simp only [create_table, htable]
    rfl
  | true =>
    simp only [create_table, htable]
    rfl

/-- Every call succeeds whose result the first screen needs. -/
structure Creation.Complete (c : Creation) : Prop where
  newwin : ∀ i, c.newwin i = true
  malloc : ∀ i, c.malloc i = true
  derwin : ∀ i, c.derwin i = true

/-- The pointers that the first screen uses. -/
structure Ready (tabs : Fin NUM_TABS → Tab) : Prop where
  headed : ∀ i, (tabs i).win = .valid ∧ (tabs i).title = .valid
  blocks : ∀ i, ((tabs overview).blocks i).win = .valid

theorem tab_cases (i : Fin NUM_TABS) : i = overview ∨ i = fileActivity := by
  have hi : i.val < 2 := i.isLt
  rcases Nat.lt_succ_iff_lt_or_eq.mp hi with hlt | heq
  · exact Or.inl (Fin.ext (Nat.lt_one_iff.mp hlt))
  · exact Or.inr (Fin.ext heq)

theorem forall_tabs {P : Fin NUM_TABS → Prop} : (∀ i, P i) ↔ P overview ∧ P fileActivity := by
  constructor
  · exact fun h => ⟨h _, h _⟩
  · rintro ⟨hfirst, hsecond⟩ i
    rcases tab_cases i with rfl | rfl
    · exact hfirst
    · exact hsecond

/-- `create_tabs` by where it ends. -/
theorem create_tabs_eq (c : Creation) (tabs : Fin NUM_TABS → Tab)
    {blocks : Fin NUM_BLOCKS → Block} (hblocks : create_blocks c (tabs overview).blocks = .ok blocks) :
    create_tabs c tabs =
      let first : Tab := { tabs overview with win := .ofResult (c.newwin overview) }
      let titled : Tab := { first with title := .valid, blocks }
      let second : Tab := { tabs fileActivity with win := .ofResult (c.newwin fileActivity) }
      if c.newwin overview = false then .ok (update tabs overview first)
      else if c.malloc overview = false then .error .null_passed
      else if c.newwin fileActivity = false then
        .ok (update (update tabs overview titled) fileActivity second)
      else if c.malloc fileActivity = false then .error .null_passed
      else .ok (update (update tabs overview titled) fileActivity
        { second with title := .valid, table_win := .ofResult c.derwin_table }) := by
  unfold create_tabs
  cases hwin : c.newwin overview with
  | false => rfl
  | true =>
    cases hmalloc : c.malloc overview with
    | false => rfl
    | true =>
      show (create_blocks c (tabs overview).blocks >>= _) = _
      rw [hblocks]
      cases hwin' : c.newwin fileActivity with
      | false => rfl
      | true =>
        cases hmalloc' : c.malloc fileActivity with
        | false => rfl
        | true =>
          show (create_table c _ >>= _) = _
          rw [create_table_eq]
          rfl

theorem create_blocks_spec (c : Creation) (blocks : Fin NUM_BLOCKS → Block) :
    ∃ r, create_blocks c blocks = .ok r ∧
      ((∀ i, (r i).win = .valid) ↔ ∀ i, c.derwin i = true) := by
  obtain ⟨r, hr, _, hvalid⟩ := createBlocks_spec c (List.nodup_finRange NUM_BLOCKS) blocks
  simp only [List.mem_finRange, true_implies] at hvalid
  exact ⟨r, hr, hvalid⟩

/-- After the creation the first screen can be drawn if and only if every call has succeeded whose
result it needs. -/
theorem create_tabs_ready (c : Creation) (tabs : Fin NUM_TABS → Tab) :
    (∃ r, create_tabs c tabs = .ok r ∧ Ready r) ↔ c.Complete := by
  obtain ⟨blocks, hblocks, hvalid⟩ := create_blocks_spec c (tabs overview).blocks
  rw [create_tabs_eq c tabs hblocks]
  dsimp only
  constructor
  · rintro ⟨r, hr, hheaded, hdrawn⟩
    obtain ⟨⟨hwin, _⟩, hwin', _⟩ := forall_tabs.mp hheaded
    split at hr
    · rename_i hfails
      cases hr
      rw [Function.update_self] at hwin
      rw [Pointer.ofResult_eq_valid.mp hwin] at hfails
      cases hfails
    · rename_i hnewwin
      split at hr
      · cases hr
      · rename_i hmalloc
        split at hr
        · rename_i hfails
          cases hr
          rw [Function.update_self] at hwin'
          rw [Pointer.ofResult_eq_valid.mp hwin'] at hfails
          cases hfails
        · rename_i hnewwin'
          split at hr
          · cases hr
          · rename_i hmalloc'
            cases hr
            refine ⟨?_, ?_, ?_⟩
            · exact forall_tabs.mpr ⟨Bool.eq_true_of_not_eq_false hnewwin,
                Bool.eq_true_of_not_eq_false hnewwin'⟩
            · exact forall_tabs.mpr ⟨Bool.eq_true_of_not_eq_false hmalloc,
                Bool.eq_true_of_not_eq_false hmalloc'⟩
            · rw [Function.update_of_ne (by decide), Function.update_self] at hdrawn
              exact hvalid.mp hdrawn
  · intro h
    simp only [h.newwin, h.malloc, Bool.true_eq_false, if_false]
    refine ⟨_, rfl, forall_tabs.mpr ⟨?_, ?_⟩, ?_⟩
    · rw [Function.update_of_ne (by decide), Function.update_self]
      exact ⟨rfl, rfl⟩
    · rw [Function.update_self]
      exact ⟨rfl, rfl⟩
    · rw [Function.update_of_ne (by decide), Function.update_self]
      exact hvalid.mpr h.derwin

theorem create_tabs_table {c : Creation} (h : c.Complete) {tabs r : Fin NUM_TABS → Tab}
    (hr : create_tabs c tabs = .ok r) : (r fileActivity).table_win = .ofResult c.derwin_table := by
  obtain ⟨blocks, hblocks, _⟩ := create_blocks_spec c (tabs overview).blocks
  rw [create_tabs_eq c tabs hblocks] at hr
  simp only [h.newwin, h.malloc, Bool.true_eq_false, if_false] at hr
  cases hr
  rw [Function.update_self]

/-- A message that `update_table` does not take for the end of the array. -/
def shown (m : Message) : Bool := m.op ≠ STOP_MESSAG ∧ m.file.str ≠ []

theorem ends_row_iff (slot m : Message) :
    ((copyEntry slot m).op = STOP_MESSAG ∨ (copyEntry slot m).file.bytes.head? = some 0) ↔
      ¬ shown m = true := by
  rw [← CharArray.str_eq_nil _ (by decide), copyEntry_op, copyEntry_file,
    CharArray.str_snprintf _ (by decide) m.file.nul_notMem_str, List.take_eq_nil_iff]
  simp only [shown, ne_eq, decide_eq_true_eq]
  tauto

namespace View

/-- `displayEntries` returns an array. -/
def Draws (v : View) : Prop := v.block.isSome = true ∧ v.messages ≠ []

/-- The messages that get a row. -/
def rows (v : View) : List Message := if v.block.isSome then v.messages.takeWhile shown else []

/-- The owner and the group of the message in row `i` have an entry. -/
def Resolved (v : View) (row : Message × Nat) : Prop :=
  (v.getpwuid row.2 row.1.uid).isSome = true ∧ (v.getgrgid row.2 row.1.gid).isSome = true

def Known (v : View) : Prop := ∀ row ∈ v.rows.zipIdx, v.Resolved row

end View

theorem safe_showRows {v : View} {slots slots' : Nat → Message} {ms : List Message} {left i : Nat}
    (hslots : ∀ (k : Nat) (hk : k < ms.length), slots (i + k) = copyEntry (slots' (i + k)) ms[k])
    (hend : (slots (i + ms.length)).op = STOP_MESSAG) (hleft : ms.length < left) :
    Safe (showRows v .valid slots left i) ↔
      ∀ row ∈ (ms.takeWhile shown).zipIdx i, v.Resolved row := by
  induction ms generalizing left i with
  | nil =>
    cases left with
    | zero => cases hleft
    | succ left =>
      rw [List.length_nil, Nat.add_zero] at hend
      rw [showRows, if_pos (Or.inl hend)]
      simp
  | cons m ms ih =>
    cases left with
    | zero => cases hleft
    | succ left =>
      have hslot : slots i = copyEntry (slots' i) m := hslots 0 (Nat.zero_lt_succ _)
      rw [showRows]
      by_cases hshown : shown m = true
      · have hrest : Safe (showRows v .valid slots left (i + 1)) ↔
            ∀ row ∈ (ms.takeWhile shown).zipIdx (i + 1), v.Resolved row := by
          apply ih
          · intro k hk
            rw [Nat.add_right_comm]
            exact hslots (k + 1) (Nat.succ_lt_succ hk)
          · rw [Nat.add_right_comm]
            exact hend
          · exact Nat.lt_of_succ_lt_succ hleft
        rw [hslot, if_neg ((ends_row_iff _ m).not.mpr (not_not.mpr hshown)),
          List.takeWhile_cons_of_pos hshown, List.zipIdx_cons, List.forall_mem_cons, ← hrest]
        simp only [safe_seq, safe_mvwprintw, safe_deref, copyEntry_uid, copyEntry_gid,
          View.Resolved, List.not_mem_nil, false_implies, implies_true, true_and, and_true,
          and_assoc]
      · rw [hslot, if_pos ((ends_row_iff _ m).mpr hshown), List.takeWhile_cons_of_neg hshown]
        simp

theorem safe_update_table (v : View) (tab : Tab) :
    Safe (update_table v tab) ↔ (v.Draws → tab.table_win = .valid) ∧ v.Known := by
  unfold update_table View.Draws View.Known View.rows
  cases hblock : v.block with
  | none => simp [displayEntries]
  | some slots =>
    rw [v.holds.displayEntries slots, List.take_of_length_le (Nat.le_of_lt v.short)]
    cases harray : encode slots v.messages with
    | none =>
      have hnil : v.messages = [] := by
        by_contra hne
        rw [encode, if_neg hne] at harray
        cases harray
      simp [hnil]
    | some array =>
      have hne : v.messages ≠ [] := by
        intro hnil
        rw [encode, if_pos hnil] at harray
        cases harray
      have hrows : Safe (showRows v .valid array.slots MAX_ENTRIES 0) ↔ _ :=
        safe_showRows (fun k hk => by rw [Nat.zero_add]; exact encode_slots harray hk)
          (by rw [Nat.zero_add]; exact encode_sentinel harray) v.short
      simp only [werase, box, draw_table_headers, wnoutrefresh, safe_seq, Pointer.safe_pass]
      constructor
      · rintro ⟨hwin, _, _, hshow, _⟩
        rw [hwin] at hshow
        exact ⟨fun _ => hwin, hrows.mp hshow⟩
      · rintro ⟨hwin, hknown⟩
        have hvalid := hwin ⟨rfl, hne⟩
        rw [hvalid]
        exact ⟨rfl, rfl, rfl, hrows.mpr hknown, rfl⟩

/-- When the answers of the lookups depend on the id only, this is where the table that
`Naarad.update_table` draws is defined. -/
theorem safe_showRows_iff_drawRows {v : View} {getpwuid getgrgid : UInt32 → Option (List UInt8)}
    (hpw : ∀ i uid, v.getpwuid i uid = getpwuid uid)
    (hgr : ∀ i gid, v.getgrgid i gid = getgrgid gid) (slots : Nat → Message) (left i : Nat) :
    Safe (showRows v .valid slots left i) ↔
      (drawRows getpwuid getgrgid slots left i).isSome = true := by
  induction left generalizing i with
  | zero => simp [showRows, drawRows]
  | succ left ih =>
    rw [showRows, drawRows]
    split
    · simp
    · simp only [safe_seq, safe_mvwprintw, safe_deref, hpw, hgr, ih]
      cases getpwuid (slots i).uid with
      | none => simp
      | some user =>
        cases getgrgid (slots i).gid with
        | none => simp
        | some group => cases drawRows getpwuid getgrgid slots left (i + 1) <;> simp

theorem update_table_isSome_iff {v : View} {getpwuid getgrgid : UInt32 → Option (List UInt8)}
    (hpw : ∀ i uid, v.getpwuid i uid = getpwuid uid)
    (hgr : ∀ i gid, v.getgrgid i gid = getgrgid gid) {tab : Tab} (hwin : tab.table_win = .valid) :
    Safe (update_table v tab) ↔
      (Naarad.update_table getpwuid getgrgid v.block v.queue).isSome = true := by
  unfold update_table Naarad.update_table
  cases displayEntries v.block v.queue with
  | none => simp
  | some result =>
    cases result with
    | none => simp
    | some array =>
      simp only [werase, box, draw_table_headers, wnoutrefresh, hwin, safe_seq, Pointer.safe_pass,
        safe_showRows_iff_drawRows hpw hgr, true_and, and_true]
      cases hrows : drawRows getpwuid getgrgid array.slots MAX_ENTRIES 0 <;> simp [hrows]

end Naarad.Tui
