import Naarad.Lib.LabelledRun
import Naarad.Tabs

/-!
# The thread of the screen (`file_monitor.c`)

`make_tui` creates the tabs, draws the first screen, and then draws again at the keys that change
what is shown. It frees the titles after the key `q`. What depends on the keys and on the time alone
is `Ui`.
-/

set_option autoImplicit false

namespace Naarad.Tui

open LabelledRun PointerUse Queue

def KEY_DOWN : Int := 258
def KEY_UP : Int := 259
def TAB : Int := 9
def SHIFT_TAB : Int := 353
def QUIT : Int := 113

structure Ui where
  current_tab : Fin NUM_TABS
  current_block : Nat
  last_update : Int

/-- One pass of the loop: what `getch` returns, the times of the comparison and of the assignment,
and what the table would meet in the early update and in the redrawing. -/
structure Tick where
  ch : Int
  now : Int
  updated : Int
  early : View
  redraw : View

namespace Ui

/-- `current_tab == 1 && time(NULL) - last_update >= 1`. -/
def due (now : Int) (ui : Ui) : Bool := ui.current_tab = fileActivity ∧ now - ui.last_update ≥ 1

/-- The `switch` over the key, and `need_redraw`. -/
def press (ch : Int) (ui : Ui) : Ui × Bool :=
  if ch = KEY_UP then
    if ui.current_tab = overview ∧ 0 < ui.current_block then
      ({ ui with current_block := ui.current_block - 1 }, true)
    else (ui, false)
  else if ch = KEY_DOWN then
    if ui.current_tab = overview ∧ ui.current_block < NUM_BLOCKS - 1 then
      ({ ui with current_block := ui.current_block + 1 }, true)
    else (ui, false)
  else if ch = TAB then
    ({ ui with
      current_tab := ⟨(ui.current_tab.val + 1) % NUM_TABS, Nat.mod_lt _ (by decide)⟩
      current_block := 0 }, true)
  else if ch = SHIFT_TAB then
    ({ ui with
      current_tab := ⟨(ui.current_tab.val + NUM_TABS - 1) % NUM_TABS, Nat.mod_lt _ (by decide)⟩
      current_block := 0 }, true)
  else (ui, false)

end Ui

/-- The body of the loop for a key other than `q`. -/
def tick (tabs : Fin NUM_TABS → Tab) (t : Tick) (ui : Ui) : Checked Ui := do
  let (ui, need_redraw) := ui.press t.ch
  if need_redraw then
    let ui ←
      if ui.due t.now then do
        update_table t.early (tabs ui.current_tab)
        wnoutrefresh (tabs ui.current_tab).table_win
        pure { ui with last_update := t.updated }
      else pure ui
    redraw_screen t.redraw tabs ui.current_tab ui.current_block
    pure ui
  else pure ui

def free_titles (tabs : Fin NUM_TABS → Tab) : Checked Unit :=
  (List.finRange NUM_TABS).forM fun i => (tabs i).title.read

/-- `while (1)`, as far as it has come. -/
def loop (tabs : Fin NUM_TABS → Tab) : List Tick → Ui → Checked Unit
  | [], _ => pure ()
  | t :: ts, ui =>
    if t.ch = QUIT then free_titles tabs
    else do
      let ui ← tick tabs t ui
      loop tabs ts ui

def Ui.start (time : Int) : Ui := ⟨overview, 0, time⟩

def make_tui (c : Creation) (first : View) (time : Int) (ticks : List Tick) : Checked Unit := do
  let tabs ← create_tabs c fun _ => .unassigned
  redraw_screen first tabs overview 0
  loop tabs ticks (.start time)

/-- What a pass leaves behind when it comes to its end. -/
def Ui.after (t : Tick) (ui : Ui) : Ui :=
  let (ui, need_redraw) := ui.press t.ch
  if need_redraw ∧ ui.due t.now then { ui with last_update := t.updated } else ui

def Ui.step (t : Tick) (ui : Ui) : Option Ui := if t.ch = QUIT then none else some (ui.after t)

/-- What the pass needs of the table's window and of the lookups, where it draws the table. -/
structure Ui.TableReady (table : Bool) (t : Tick) (ui : Ui) : Prop where
  early : ui.due t.now = true → table = true ∧ t.early.Known
  redraw : ui.current_tab = fileActivity → (t.redraw.Draws → table = true) ∧ t.redraw.Known

/-- The condition on a pass of the loop: if its key has the screen drawn again, the table is ready
on the tab that is then shown. -/
def Ui.PassReady (table : Bool) (t : Tick) (ui : Ui) : Prop :=
  (ui.press t.ch).2 = true → (ui.press t.ch).1.TableReady table t

theorem safe_redraw_overview {v : View} {tabs : Fin NUM_TABS → Tab} {current_block : Nat} :
    Safe (redraw_screen v tabs overview current_block) ↔ Ready tabs := by
  unfold redraw_screen
  rw [safe_seq, safe_draw_tabs, safe_show_overview]
  exact ⟨fun ⟨hheaded, hblocks⟩ => ⟨hheaded, hblocks⟩, fun h => ⟨h.headed, h.blocks⟩⟩

theorem tick_eq {tabs : Fin NUM_TABS → Tab} {t : Tick} {ui ui' : Ui}
    (h : tick tabs t ui = .ok ui') : ui' = ui.after t := by
  unfold tick at h
  unfold Ui.after
  generalize ui.press t.ch = pressed at h ⊢
  obtain ⟨ui₁, need_redraw⟩ := pressed
  dsimp only at h ⊢
  cases need_redraw with
  | false =>
    cases h
    rfl
  | true =>
    cases hdue : ui₁.due t.now with
    | true =>
      simp only [hdue, if_true, pure_bind] at h
      cases ok_of_seq (ok_of_seq (ok_of_seq h))
      rfl
    | false =>
      simp only [hdue, if_true, Bool.false_eq_true, if_false, pure_bind] at h
      cases ok_of_seq h
      rfl

theorem safe_free_titles {tabs : Fin NUM_TABS → Tab} (hready : Ready tabs) :
    Safe (free_titles tabs) := by
  unfold free_titles
  apply (safe_forM _ _).mpr
  intro i _
  rw [Pointer.safe_read, (hready.headed i).2]
  exact Pointer.noConfusion

section Loop
variable {tabs : Fin NUM_TABS → Tab} {table : Bool} (hready : Ready tabs)
  (htable : (tabs fileActivity).table_win = .ofResult table)
include hready htable

theorem safe_redraw_screen (v : View) (ui : Ui) :
    Safe (redraw_screen v tabs ui.current_tab ui.current_block) ↔
      (ui.current_tab = fileActivity → (v.Draws → table = true) ∧ v.Known) := by
  rcases tab_cases ui.current_tab with htab | htab <;> rw [htab]
  · rw [safe_redraw_overview]
    exact iff_of_true hready fun h => absurd h (by decide)
  · unfold redraw_screen show_tab
    rw [safe_seq, safe_draw_tabs, if_neg (by decide), safe_update_table, htable,
      Pointer.ofResult_eq_valid]
    exact ⟨fun h _ => h.2, fun h => ⟨hready.headed, h rfl⟩⟩

theorem safe_tick (t : Tick) (ui : Ui) : Safe (tick tabs t ui) ↔ ui.PassReady table t := by
  unfold tick Ui.PassReady
  generalize ui.press t.ch = pressed
  obtain ⟨ui₁, need_redraw⟩ := pressed
  dsimp only
  cases need_redraw with
  | false => exact iff_of_true (safe_pure ui₁) fun h => by cases h
  | true =>
    cases hdue : ui₁.due t.now with
    | true =>
      obtain ⟨htab, _⟩ : ui₁.current_tab = fileActivity ∧ _ := of_decide_eq_true hdue
      have hearly : Safe (update_table t.early (tabs ui₁.current_tab)) ∧
          Safe (wnoutrefresh (tabs ui₁.current_tab).table_win) ↔
            table = true ∧ t.early.Known := by
        rw [safe_update_table, wnoutrefresh, Pointer.safe_pass, htab, htable,
          Pointer.ofResult_eq_valid]
        exact ⟨fun h => ⟨h.2, h.1.2⟩, fun h => ⟨⟨fun _ => h.1, h.2⟩, h.1⟩⟩
      simp only [if_true, pure_bind]
      rw [safe_seq, safe_seq, safe_seq, ← and_assoc, hearly,
        safe_redraw_screen hready htable t.redraw ui₁]
      constructor
      · exact fun h _ => ⟨fun _ => h.1, h.2.1⟩
      · intro h
        have htables := h trivial
        exact ⟨htables.early hdue, htables.redraw, safe_pure _⟩
    | false =>
      simp only [if_true, Bool.false_eq_true, if_false, pure_bind]
      rw [safe_seq, safe_redraw_screen hready htable]
      constructor
      · intro h _
        refine ⟨?_, h.1⟩
        rw [hdue]
        exact fun hfalse => by cases hfalse
      · exact fun h => ⟨(h trivial).redraw, safe_pure _⟩

theorem safe_loop (ts : List Tick) (ui : Ui) :
    Safe (loop tabs ts ui) ↔ Along Ui.step (fun t ui => ui.PassReady table t) ts ui := by
  induction ts generalizing ui with
  | nil => exact ⟨fun _ => trivial, fun _ => safe_pure ()⟩
  | cons t ts ih =>
    unfold loop Along
    by_cases hquit : t.ch = QUIT
    · have hstep : Ui.step t ui = none := if_pos hquit
      rw [if_pos hquit, hstep]
      refine iff_of_true (safe_free_titles hready) ⟨?_, trivial⟩
      unfold Ui.PassReady Ui.press
      rw [hquit]
      exact fun hdraw => by cases hdraw
    · have hstep : Ui.step t ui = some (ui.after t) := if_neg hquit
      rw [if_neg hquit, hstep, safe_bind, ← safe_tick hready htable]
      dsimp only
      rw [← ih]
      constructor
      · rintro ⟨ui', htick, hrest⟩
        rw [← tick_eq htick]
        exact ⟨⟨ui', htick⟩, hrest⟩
      · rintro ⟨⟨ui', htick⟩, hrest⟩
        rw [← tick_eq htick] at hrest
        exact ⟨ui', htick, hrest⟩

end Loop

/-- `make_tui` uses no null and no unassigned pointer, whatever the keys, the times and the queue, if
and only if the creation of what the first screen shows succeeds, and each pass that draws the table
has its window and an entry for every user and group in it. -/
theorem make_tui_safe_iff (c : Creation) (first : View) (time : Int) (ticks : List Tick) :
    Safe (make_tui c first time ticks) ↔
      c.Complete ∧
        Along Ui.step (fun t ui => ui.PassReady c.derwin_table t) ticks (.start time) := by
  unfold make_tui
  rw [safe_bind, ← create_tabs_ready c fun _ => .unassigned]
  constructor
  · rintro ⟨tabs, htabs, hrun⟩
    obtain ⟨hfirst, hloop⟩ := safe_seq.mp hrun
    have hready := safe_redraw_overview.mp hfirst
    have hcomplete := (create_tabs_ready c _).mp ⟨tabs, htabs, hready⟩
    have htable := create_tabs_table hcomplete htabs
    exact ⟨⟨tabs, htabs, hready⟩, (safe_loop hready htable ticks _).mp hloop⟩
  · rintro ⟨⟨tabs, htabs, hready⟩, hpasses⟩
    have hcomplete := (create_tabs_ready c _).mp ⟨tabs, htabs, hready⟩
    have htable := create_tabs_table hcomplete htabs
    exact ⟨tabs, htabs,
      safe_seq.mpr ⟨safe_redraw_overview.mpr hready, (safe_loop hready htable ticks _).mpr hpasses⟩⟩

/-- Every call of the creation succeeds. -/
def allCreated : Creation where
  max_y := 21
  max_x := 80
  newwin := fun _ => true
  malloc := fun _ => true
  derwin := fun _ => true
  derwin_table := true

/-- The file `a`, opened by the user 1000. -/
def openedFile : Message :=
  { Message.zero with uid := 1000, file := (CharArray.zero 128).snprintf (CharArray.ascii "a") }

theorem exists_openedFile : ∃ v : View, v.block.isSome = true ∧ v.messages = [openedFile] ∧
    ∀ i uid, v.getpwuid i uid = none := by
  obtain ⟨⟨ns, hrep⟩, _⟩ := runCalls_represents (c := { fresh := some 0 }) rfl
    (show runCalls (pushCalls [openedFile]) _ = some _ from rfl)
  have hlen : (specCalls (pushCalls [openedFile]) []).1.length < MAX_ENTRIES := by decide +kernel
  exact ⟨⟨some fun _ => Message.zero, _, ns, _, hrep.holds, hlen, fun _ _ => none,
    fun _ _ => none⟩, rfl, rfl, fun _ _ => rfl⟩

/-- Without the window of the first tab the first screen is not drawn safely; with all of them, the
tab key shows a file whose owner has no entry. -/
theorem make_tui_unsafe : ∃ v : View, v.messages = [openedFile] ∧
    (∀ i uid, v.getpwuid i uid = none) ∧
    ¬ Safe (make_tui { allCreated with newwin := fun _ => false } v 0 []) ∧
    ¬ Safe (make_tui allCreated v 0 [⟨TAB, 0, 0, v, v⟩]) := by
  obtain ⟨v, hblock, hmessages, hunknown⟩ := exists_openedFile
  refine ⟨v, hmessages, hunknown, ?_, ?_⟩
  · intro hsafe
    obtain ⟨tabs, htabs, hrun⟩ := safe_bind.mp hsafe
    have hready := safe_redraw_overview.mp (safe_seq.mp hrun).1
    have hcomplete := (create_tabs_ready _ _).mp ⟨tabs, htabs, hready⟩
    cases hcomplete.newwin overview
  · intro hsafe
    obtain ⟨tabs, htabs, hrun⟩ := safe_bind.mp hsafe
    obtain ⟨hfirst, hloop⟩ := safe_seq.mp hrun
    have hready := safe_redraw_overview.mp hfirst
    have htable := create_tabs_table ((create_tabs_ready _ _).mp ⟨tabs, htabs, hready⟩) htabs
    have hpass := ((safe_loop hready htable _ _).mp hloop).1 rfl
    have hrow : (openedFile, 0) ∈ v.rows.zipIdx := by
      rw [View.rows, if_pos hblock, hmessages]
      decide +kernel
    have hknown := ((hpass.redraw rfl).2 _ hrow).1
    rw [hunknown] at hknown
    cases hknown

end Naarad.Tui
