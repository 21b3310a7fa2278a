import Naarad.MakeTui

/-!
# What the screen shows while keys are pressed

`make_tui` draws the screen again only at the keys that change what is selected. What is on the
screen is the selection, with the contents as they were when it was made.
-/

set_option autoImplicit false

namespace Naarad.Tui

open LabelledRun

/-- The color pairs of the last drawing, and the pass of the loop it was made in; the first screen
is drawn before the first pass. -/
structure Shown where
  tabPair : Fin NUM_TABS → Nat
  blockPair : Fin NUM_BLOCKS → Option Nat
  pass : Nat

/-- The pairs that `draw_tabs` and `show_tab` give to the tabs, and to the blocks where the blocks
are drawn. -/
def Shown.draw (current_tab : Fin NUM_TABS) (current_block pass : Nat) : Shown where
  tabPair i := if i = current_tab then 4 else 2
  blockPair i :=
    if current_tab = overview then some (if i.val = current_block then 3 else 1) else none
  pass := pass

theorem Shown.tabPair_draw {current_tab : Fin NUM_TABS} {current_block pass : Nat}
    {i : Fin NUM_TABS} : (draw current_tab current_block pass).tabPair i = 4 ↔ i = current_tab := by
  unfold draw
  dsimp only
  split
  · rename_i h
    exact iff_of_true rfl h
  · rename_i h
    exact iff_of_false (by decide) h

theorem Shown.blockPair_draw {current_tab : Fin NUM_TABS} {current_block pass : Nat}
    {i : Fin NUM_BLOCKS} : (draw current_tab current_block pass).blockPair i = some 3 ↔
      current_tab = overview ∧ i.val = current_block := by
  unfold draw
  dsimp only
  by_cases htab : current_tab = overview
  · rw [if_pos htab, Option.some.injEq]
    by_cases hblock : i.val = current_block
    · rw [if_pos hblock]
      exact iff_of_true rfl ⟨htab, hblock⟩
    · rw [if_neg hblock]
      exact iff_of_false (by decide) fun h => hblock h.2
  · rw [if_neg htab]
    exact iff_of_false (by decide) fun h => htab h.1

structure Session where
  ui : Ui
  shown : Shown
  passes : Nat

namespace Session

def start (time : Int) : Session := ⟨.start time, .draw overview 0 0, 0⟩

/-- One pass of the loop that does not end it. -/
def step (t : Tick) (s : Session) : Option Session :=
  if t.ch = QUIT then none
  else
    let ui := s.ui.after t
    let shown :=
      if (s.ui.press t.ch).2 then .draw ui.current_tab ui.current_block (s.passes + 1) else s.shown
    some ⟨ui, shown, s.passes + 1⟩

end Session

namespace Ui

def selection (ui : Ui) : Fin NUM_TABS × Nat := (ui.current_tab, ui.current_block)

def Switches (ch : Int) : Prop := ch = TAB ∨ ch = SHIFT_TAB

instance : DecidablePred Switches := fun _ => inferInstanceAs (Decidable (_ ∨ _))

/-- A block of the overview is selected, and no block of the table. -/
structure Selected (ui : Ui) : Prop where
  block_lt : ui.current_block < NUM_BLOCKS
  table : ui.current_tab = fileActivity → ui.current_block = 0

theorem selection_after (t : Tick) (ui : Ui) :
    (ui.after t).selection = (ui.press t.ch).1.selection := by
  unfold after
  dsimp only
  split <;> rfl

theorem Selected.of_selection {ui ui' : Ui} (h : ui.Selected) (heq : ui'.selection = ui.selection) :
    ui'.Selected := by
  obtain ⟨htab, hblock⟩ := Prod.mk.inj heq
  refine ⟨?_, fun htable => ?_⟩
  · rw [hblock]
    exact h.block_lt
  · rw [hblock]
    exact h.table (htab.symm.trans htable)

/-- What a key does to the selection. -/
inductive Pressed (ui : Ui) (ch : Int) : Ui → Bool → Prop where
  | up : ch = KEY_UP → ui.current_tab = overview → 0 < ui.current_block →
    Pressed ui ch { ui with current_block := ui.current_block - 1 } true
  | down : ch = KEY_DOWN → ui.current_tab = overview → ui.current_block < NUM_BLOCKS - 1 →
    Pressed ui ch { ui with current_block := ui.current_block + 1 } true
  | switch {tab} : Switches ch → tab.val = (ui.current_tab.val + 1) % NUM_TABS →
    Pressed ui ch { ui with current_tab := tab, current_block := 0 } true
  | other : ¬ Switches ch → Pressed ui ch ui false

theorem pressed_of_press (ch : Int) (ui : Ui) : Pressed ui ch (ui.press ch).1 (ui.press ch).2 := by
  have hnotSwitch : ch = KEY_UP ∨ ch = KEY_DOWN → ¬ Switches ch := by
    rintro (rfl | rfl) <;> decide
  unfold press
  by_cases hup : ch = KEY_UP
  · rw [if_pos hup]
    by_cases hmoves : ui.current_tab = overview ∧ 0 < ui.current_block
    · rw [if_pos hmoves]
      exact .up hup hmoves.1 hmoves.2
    · rw [if_neg hmoves]
      exact .other (hnotSwitch (Or.inl hup))
  · rw [if_neg hup]
    by_cases hdown : ch = KEY_DOWN
    · rw [if_pos hdown]
      by_cases hmoves : ui.current_tab = overview ∧ ui.current_block < NUM_BLOCKS - 1
      · rw [if_pos hmoves]
        exact .down hdown hmoves.1 hmoves.2
      · rw [if_neg hmoves]
        exact .other (hnotSwitch (Or.inr hdown))
    · rw [if_neg hdown]
      by_cases htab : ch = TAB
      · rw [if_pos htab]
        exact .switch (Or.inl htab) rfl
      · rw [if_neg htab]
        by_cases hshift : ch = SHIFT_TAB
        · rw [if_pos hshift]
          refine .switch (Or.inr hshift) ?_
          have hlt := ui.current_tab.isLt
          simp only [NUM_TABS] at hlt ⊢
          omega
        · rw [if_neg hshift]
          refine .other ?_
          rintro (h | h)
          · exact htab h
          · exact hshift h

/-- A key has the screen drawn again if and only if it changes the selection. -/
theorem press_changes (ch : Int) (ui : Ui) :
    (ui.press ch).2 = true ↔ (ui.press ch).1.selection ≠ ui.selection := by
  have hpressed := pressed_of_press ch ui
  generalize (ui.press ch).1 = ui' at *
  generalize (ui.press ch).2 = need_redraw at *
  cases hpressed with
  | up _ _ hpos =>
    refine iff_of_true rfl fun heq => ?_
    have hblock := (Prod.mk.inj heq).2
    dsimp only at hblock
    omega
  | down =>
    refine iff_of_true rfl fun heq => ?_
    have hblock := (Prod.mk.inj heq).2
    dsimp only at hblock
    omega
  | switch _ htab =>
    refine iff_of_true rfl fun heq => ?_
    have hval := congrArg Fin.val (Prod.mk.inj heq).1
    have hlt := ui.current_tab.isLt
    simp only [NUM_TABS] at htab hlt
    dsimp only at hval
    omega
  | other => exact iff_of_false Bool.false_ne_true fun h => h rfl

theorem Selected.press {ui : Ui} (h : ui.Selected) (ch : Int) : (ui.press ch).1.Selected := by
  have hpressed := pressed_of_press ch ui
  have hlt := h.block_lt
  generalize (ui.press ch).1 = ui' at *
  generalize (ui.press ch).2 = need_redraw at *
  cases hpressed with
  | up _ htab =>
    refine ⟨by dsimp only; omega, fun htable => ?_⟩
    rw [htab] at htable
    exact absurd htable (by decide)
  | down _ htab hroom =>
    refine ⟨by dsimp only; omega, fun htable => ?_⟩
    rw [htab] at htable
    exact absurd htable (by decide)
  | switch => exact ⟨Nat.succ_pos 2, fun _ => rfl⟩
  | other => exact h

/-- The tab after a key. -/
theorem tab_press (ch : Int) (ui : Ui) : (ui.press ch).1.current_tab.val =
    (ui.current_tab.val + if Switches ch then 1 else 0) % NUM_TABS := by
  have hpressed := pressed_of_press ch ui
  have hlt := ui.current_tab.isLt
  generalize (ui.press ch).1 = ui' at *
  generalize (ui.press ch).2 = need_redraw at *
  cases hpressed with
  | up hch =>
    dsimp only
    rw [hch, if_neg (by decide), Nat.add_zero, Nat.mod_eq_of_lt hlt]
  | down hch =>
    dsimp only
    rw [hch, if_neg (by decide), Nat.add_zero, Nat.mod_eq_of_lt hlt]
  | switch hswitch htab => rw [if_pos hswitch, htab]
  | other hother => rw [if_neg hother, Nat.add_zero, Nat.mod_eq_of_lt hlt]

end Ui

namespace Session

theorem step_eq_some {t : Tick} {s s' : Session} (h : step t s = some s') :
    t.ch ≠ QUIT ∧ s'.ui = s.ui.after t ∧ s'.passes = s.passes + 1 ∧
      s'.shown = if (s.ui.press t.ch).2 then
        .draw s'.ui.current_tab s'.ui.current_block s'.passes else s.shown := by
  unfold step at h
  split at h
  · cases h
  · rename_i hquit
    cases h
    exact ⟨hquit, rfl, rfl, rfl⟩

/-- After the passes `ts`: the selection on the screen has been the same since the pass that drew it,
and was another one before. -/
structure UpToDate (time : Int) (ts : List Tick) (s : Session) : Prop where
  ui : exec Ui.step ts (.start time) = some s.ui
  passes : s.passes = ts.length
  selected : s.ui.Selected
  tab : s.ui.current_tab.val = (ts.countP fun t => Ui.Switches t.ch) % NUM_TABS
  shown : s.shown = .draw s.ui.current_tab s.ui.current_block s.shown.pass
  drawn : s.shown.pass ≤ ts.length
  since : ∀ ks ms k, ts = ks ++ ms → exec Session.step ks (.start time) = some k →
    s.shown.pass ≤ ks.length → k.ui.selection = s.ui.selection
  before : ∀ ks ms k, ts = ks ++ ms → exec Session.step ks (.start time) = some k →
    ks.length + 1 = s.shown.pass → k.ui.selection ≠ s.ui.selection

theorem UpToDate.start (time : Int) : UpToDate time [] (.start time) where
  ui := rfl
  passes := rfl
  selected := ⟨Nat.succ_pos 2, fun _ => rfl⟩
  tab := rfl
  shown := rfl
  drawn := Nat.le_refl 0
  since := by
    intro ks ms k hks hk _
    obtain ⟨rfl, rfl⟩ := List.append_eq_nil_iff.mp hks.symm
    cases Option.some.inj hk
    rfl
  before := fun _ _ _ _ _ h => absurd h (Nat.succ_ne_zero _)

/-- A run that begins `ts ++ [t]` is the whole of it, or begins `ts`. -/
theorem begins_concat {ts ks ms : List Tick} {t : Tick} (h : ts ++ [t] = ks ++ ms) :
    ks = ts ++ [t] ∨ ∃ ms', ts = ks ++ ms' := by
  rcases List.append_eq_append_iff.mp h with ⟨as, hks, hms⟩ | ⟨bs, hts, _⟩
  · cases as with
    | nil => exact Or.inr ⟨[], by rw [hks, List.append_nil, List.append_nil]⟩
    | cons a as =>
      obtain ⟨rfl, hnil⟩ := List.cons.inj hms
      obtain ⟨rfl, _⟩ := List.append_eq_nil_iff.mp hnil.symm
      exact Or.inl hks
  · exact Or.inr ⟨bs, hts⟩

theorem UpToDate.step {time : Int} {ts : List Tick} {t : Tick} {s s' : Session}
    (h : UpToDate time ts s) (hrun : exec Session.step ts (.start time) = some s)
    (hstep : Session.step t s = some s') : UpToDate time (ts ++ [t]) s' := by
  obtain ⟨hquit, hui, hpasses, hshown⟩ := step_eq_some hstep
  have hlen : (ts ++ [t]).length = ts.length + 1 := List.length_append
  have hwhole : exec Session.step (ts ++ [t]) (.start time) = some s' :=
    exec_append_some.mpr ⟨s, hrun, exec_cons.mpr ⟨s', hstep, rfl⟩⟩
  have hselection : s'.ui.selection = (s.ui.press t.ch).1.selection := by
    rw [hui, Ui.selection_after]
  have hchanges := Ui.press_changes t.ch s.ui
  rw [← hselection] at hchanges
  have hbegins : ∀ ks ms k, ts ++ [t] = ks ++ ms → exec Session.step ks (.start time) = some k →
      ks.length = ts.length + 1 ∧ k = s' ∨ ∃ ms', ts = ks ++ ms' := by
    intro ks ms k hks hk
    rcases begins_concat hks with rfl | hms
    · rw [hwhole] at hk
      exact Or.inl ⟨hlen, (Option.some.inj hk).symm⟩
    · exact Or.inr hms
  have hui' : exec Ui.step (ts ++ [t]) (.start time) = some s'.ui := by
    refine exec_append_some.mpr ⟨s.ui, h.ui, exec_cons.mpr ⟨s'.ui, ?_, rfl⟩⟩
    rw [hui]
    exact if_neg hquit
  have htab : s'.ui.current_tab.val =
      ((ts ++ [t]).countP fun t => Ui.Switches t.ch) % NUM_TABS := by
    rw [show s'.ui.current_tab = (s.ui.press t.ch).1.current_tab from (Prod.mk.inj hselection).1,
      Ui.tab_press, h.tab, List.countP_append, List.countP_singleton, Nat.mod_add_mod]
    simp only [decide_eq_true_eq]
  have hpassed : s'.passes = (ts ++ [t]).length := by rw [hpasses, hlen, h.passes]
  have hselected := (h.selected.press t.ch).of_selection hselection
  cases hredraw : (s.ui.press t.ch).2 with
  | true =>
    rw [if_pos hredraw] at hshown
    have hpass : s'.shown.pass = ts.length + 1 := by
      rw [hshown, ← h.passes, ← hpasses]
      rfl
    refine ⟨hui', hpassed, hselected, htab, ?_, by rw [hpass, hlen], ?_, ?_⟩
    · rw [hpass, ← h.passes, ← hpasses]
      exact hshown
    · intro ks ms k hks hk hle
      rcases hbegins ks ms k hks hk with ⟨_, rfl⟩ | ⟨ms', hms⟩
      · rfl
      · rw [hms, List.length_append] at hpass
        omega
    · intro ks ms k hks hk heq
      rcases hbegins ks ms k hks hk with ⟨hks, _⟩ | ⟨ms', hms⟩
      · omega
      · rw [hpass, hms, List.length_append] at heq
        have hnil : ms' = [] := List.eq_nil_of_length_eq_zero (by omega)
        rw [hms, hnil, List.append_nil, hk] at hrun
        cases Option.some.inj hrun
        exact (hchanges.mp hredraw).symm
  | false =>
    rw [if_neg (Bool.eq_false_iff.mp hredraw)] at hshown
    have hsame : s'.ui.selection = s.ui.selection := by
      by_contra hne
      rw [hchanges.mpr hne] at hredraw
      cases hredraw
    obtain ⟨hsameTab, hsameBlock⟩ := Prod.mk.inj hsame
    have hdrawn : s'.shown.pass ≤ (ts ++ [t]).length := by
      rw [hshown, hlen]
      exact Nat.le_succ_of_le h.drawn
    refine ⟨hui', hpassed, hselected, htab, ?_, hdrawn, ?_, ?_⟩ <;> rw [hshown]
    · rw [hsameTab, hsameBlock]
      exact h.shown
    · intro ks ms k hks hk hle
      rcases hbegins ks ms k hks hk with ⟨_, rfl⟩ | ⟨ms', hms⟩
      · rfl
      · exact (h.since ks ms' k hms hk hle).trans hsame.symm
    · intro ks ms k hks hk heq
      rw [hsame]
      rcases hbegins ks ms k hks hk with ⟨hks, _⟩ | ⟨ms', hms⟩
      · have hdrawn := h.drawn
        omega
      · exact h.before ks ms' k hms hk heq

theorem upToDate {time : Int} {ts : List Tick} {s : Session}
    (hrun : exec Session.step ts (.start time) = some s) : UpToDate time ts s :=
  exec_history (.start time) (fun _ _ _ _ hks h ht => h.step hks ht) hrun

end Session

/-- After any keys, the tab that is highlighted is the one that the number of switches says, one
block is highlighted on the overview and none on the table, and what is shown was drawn in the pass
that made this selection: the selection was another one before, and the same ever since. -/
theorem screen_shows_selection {time : Int} {ts : List Tick} {s : Session}
    (hrun : exec Session.step ts (.start time) = some s) :
    exec Ui.step ts (.start time) = some s.ui ∧
      (∀ i, s.shown.tabPair i = 4 ↔
        i.val = (ts.countP fun t => t.ch = TAB ∨ t.ch = SHIFT_TAB) % NUM_TABS) ∧
      (∀ i, s.shown.blockPair i = some 3 ↔
        s.ui.current_tab = overview ∧ i.val = s.ui.current_block) ∧
      s.ui.current_block < NUM_BLOCKS ∧
      s.shown.pass ≤ ts.length ∧
      ∀ ks ms k, ts = ks ++ ms → exec Session.step ks (.start time) = some k →
        (s.shown.pass ≤ ks.length → k.ui.selection = s.ui.selection) ∧
          (ks.length + 1 = s.shown.pass → k.ui.selection ≠ s.ui.selection) := by
  have h := Session.upToDate hrun
  refine ⟨h.ui, fun i => ?_, fun i => ?_, h.selected.block_lt, h.drawn, ?_⟩
  · rw [h.shown, Shown.tabPair_draw, Fin.ext_iff, h.tab]
    rfl
  · rw [h.shown, Shown.blockPair_draw]
  · intro ks ms k hks hk
    exact ⟨h.since ks ms k hks hk, h.before ks ms k hks hk⟩

/-- Down to the second block, to the table and back, and a key that does nothing. -/
theorem screen_shows_selection_sample : ∃ v s,
    exec Session.step
      [⟨KEY_DOWN, 0, 0, v, v⟩, ⟨TAB, 0, 0, v, v⟩, ⟨SHIFT_TAB, 0, 0, v, v⟩, ⟨KEY_UP, 0, 0, v, v⟩]
      (.start 0) = some s ∧
    s.shown.pass = 3 ∧ ∀ i, s.shown.blockPair i = some 3 ↔ i.val = 0 := by
  obtain ⟨v, _⟩ := exists_openedFile
  have hrun : exec Session.step
      [⟨KEY_DOWN, 0, 0, v, v⟩, ⟨TAB, 0, 0, v, v⟩, ⟨SHIFT_TAB, 0, 0, v, v⟩, ⟨KEY_UP, 0, 0, v, v⟩]
      (.start 0) = some ⟨⟨overview, 0, 0⟩, .draw overview 0 3, 4⟩ := by
    refine exec_cons.mpr ⟨⟨⟨overview, 1, 0⟩, .draw overview 1 1, 1⟩, rfl, ?_⟩
    refine exec_cons.mpr ⟨⟨⟨fileActivity, 0, 0⟩, .draw fileActivity 0 2, 2⟩, rfl, ?_⟩
    refine exec_cons.mpr ⟨⟨⟨overview, 0, 0⟩, .draw overview 0 3, 3⟩, rfl, ?_⟩
    exact exec_cons.mpr ⟨_, rfl, rfl⟩
  refine ⟨v, _, hrun, rfl, fun i => ?_⟩
  rw [(screen_shows_selection hrun).2.2.1 i]
  exact ⟨fun hi => hi.2, fun hi => ⟨rfl, hi⟩⟩

end Naarad.Tui
