import Naarad.BarGraph
import Naarad.Lib.Canvas
import Mathlib.Data.Nat.Digits.Lemmas

/-!
# What the overview puts into its windows (`tui/tui.c`)

The three blocks of the first tab, as the glyphs that the library puts into a window. The borders
are drawn before; the last row and column are the last that a window has.
-/

set_option autoImplicit false

namespace Naarad.Screen

open Canvas CharArray

/-- A character in a color pair. -/
structure Glyph where
  char : UInt8
  pair : Nat
  deriving DecidableEq

/-- A window of `max_y` rows and `max_x` columns, with the pair of its background. The library keeps
the sizes in 16 bits. -/
structure Window where
  max_y : Nat
  max_x : Nat
  pair : Nat
  small_y : max_y < 2 ^ 15
  small_x : max_x < 2 ^ 15

def colored (pair : Nat) (text : List UInt8) : List Glyph := text.map fun c => ⟨c, pair⟩

namespace Window

def Holds (win : Window) (p : Position) : Prop :=
  0 ≤ p.1 ∧ p.1 < win.max_y ∧ 0 ≤ p.2 ∧ p.2 < win.max_x

instance (win : Window) : DecidablePred win.Holds := fun _ => inferInstanceAs (Decidable (_ ∧ _))

/-- The `k`-th position from `p` on, row by row. -/
def onward (win : Window) (p : Position) (k : Nat) : Position :=
  ((p.1 * win.max_x + p.2 + k) / win.max_x, (p.1 * win.max_x + p.2 + k) % win.max_x)

/-- How many positions there are from `p` on. -/
def room (win : Window) (p : Position) : Nat :=
  win.max_y * win.max_x - (p.1 * win.max_x + p.2).toNat

end Window

/-- The library puts these characters as they are; others move the cursor. -/
def Printable (c : UInt8) : Prop := 32 ≤ c.toNat ∧ c.toNat < 127

instance : DecidablePred Printable := fun _ => inferInstanceAs (Decidable (_ ∧ _))

/-- The functions of the library, with the color pair that is turned on when they are called. -/
structure Curses where
  mvwaddch : Window → Position → UInt8 → Drawing Glyph
  mvwprintw : Window → Nat → Position → List UInt8 → Drawing Glyph
  mvwhline : Window → Nat → Position → UInt8 → Int → Drawing Glyph

namespace Curses

/-- The functions as they are documented. They do nothing when the cursor cannot be moved to the
position; a text goes on in the next row, and ends at the last position of the window; a line ends
at the end of the row. -/
structure Documented (nc : Curses) : Prop where
  addch : ∀ {win p c}, win.Holds p → Printable c → nc.mvwaddch win p c = [(p, ⟨c, win.pair⟩)]
  printw : ∀ {win pair p text}, win.Holds p → (∀ c ∈ text, Printable c) →
    nc.mvwprintw win pair p text = place (win.onward p) ((colored pair text).take (win.room p))
  printw_off : ∀ {win pair p text}, ¬ win.Holds p → nc.mvwprintw win pair p text = []
  hline : ∀ {win pair p c n}, win.Holds p → Printable c →
    nc.mvwhline win pair p c n =
      run p (List.replicate (min n (win.max_x - p.2)).toNat ⟨c, pair⟩)
  hline_off : ∀ {win pair p c n}, ¬ win.Holds p → nc.mvwhline win pair p c n = []

/-- A screen that has a glyph for every byte. -/
def reference : Curses where
  mvwaddch win p c := if win.Holds p then [(p, ⟨c, win.pair⟩)] else []
  mvwprintw win pair p text :=
    if win.Holds p then place (win.onward p) ((colored pair text).take (win.room p)) else []
  mvwhline win pair p c n :=
    if win.Holds p then run p (List.replicate (min n (win.max_x - p.2)).toNat ⟨c, pair⟩) else []

theorem reference_documented : reference.Documented where
  addch hp _ := if_pos hp
  printw hp _ := if_pos hp
  printw_off hp := if_neg hp
  hline hp _ := if_pos hp
  hline_off hp := if_neg hp

end Curses

/-- `%d`. -/
def decimal (n : Int) : List UInt8 :=
  let digits : List UInt8 :=
    if n = 0 then [48] else (Nat.digits 10 n.natAbs).reverse.map fun d => 48 + UInt8.ofNat d
  if n < 0 then 45 :: digits else digits

/-- The bar, its number and its label. -/
def drawBar (nc : Curses) (win : Window) (i : Fin 5) (bar : Bar) : Drawing Glyph :=
  nc.mvwhline win (6 + i.val) (bar.row.toInt, 2) 32 bar.bar_length.toInt ++
  nc.mvwprintw win win.pair (bar.row.toInt, (bar.bar_length + 3).toInt)
    (decimal bar.number.toInt) ++
  nc.mvwprintw win win.pair (bar.row.toInt, 1) bar.label

def drawLegend (nc : Curses) (win : Window) : Drawing Glyph :=
  nc.mvwprintw win win.pair (win.max_y - 1, 2) (ascii "Legend:") ++
  (List.finRange 5).flatMap fun i =>
    nc.mvwprintw win (6 + i.val) (win.max_y - 1, 11 + (i.val : Int) * 8) (ascii "  ") ++
    nc.mvwprintw win win.pair (win.max_y - 1, 13 + (i.val : Int) * 8) (barLabels i)

def drawBars (nc : Curses) (win : Window) (c : OperationCounters) : Drawing Glyph :=
  (List.finRange 5).flatMap fun i =>
    drawBar nc win i (Naarad.draw_bar_graph (Int32.ofNat win.max_y) (Int32.ofNat win.max_x) c i)

def draw_bar_graph (nc : Curses) (win : Window) (c : OperationCounters) : Drawing Glyph :=
  drawBars nc win c ++ drawLegend nc win

def paragraphText : List UInt8 :=
  ascii ("This is a sample paragraph to demonstrate text wrapping in ncurses. " ++
    "It will automatically wrap to the next line when it reaches the edge of the window. " ++
    "This allows for easy display of longer text content within a confined space.")

/-- The loop over the characters of the text. -/
def paragraphLoop (nc : Curses) (win : Window) : List UInt8 → Int → Int → Drawing Glyph
  | [], _, _ => []
  | c :: text, start_y, start_x =>
    nc.mvwaddch win (start_y, start_x) c ++
      if start_x + 1 ≥ win.max_x - 2 then
        if start_y + 1 ≥ win.max_y - 1 then [] else paragraphLoop nc win text (start_y + 1) 2
      else paragraphLoop nc win text start_y (start_x + 1)

def draw_paragraph (nc : Curses) (win : Window) : Drawing Glyph :=
  paragraphLoop nc win paragraphText 2 2

def listItems : Fin 5 → List UInt8
  | 0 => ascii "Apple"
  | 1 => ascii "Banana"
  | 2 => ascii "Cherry"
  | 3 => ascii "Date"
  | 4 => ascii "Elderberry"

/-- `"%d. %s"`. -/
def listText (i : Fin 5) : List UInt8 := decimal (i.val + 1) ++ ascii ". " ++ listItems i

/-- `for (int i = 0; i < 5 && i < max_y - 2; i++)`. -/
def draw_list (nc : Curses) (win : Window) : Drawing Glyph :=
  ((List.finRange 5).takeWhile fun i => (i.val : Int) < win.max_y - 2).flatMap fun i =>
    nc.mvwprintw win win.pair ((i.val : Int) + 2, 2) (listText i)

theorem length_colored (pair : Nat) (text : List UInt8) :
    (colored pair text).length = text.length := List.length_map ..

namespace Window

variable {win : Window} {p : Position} {text : List UInt8}

theorem onward_of_lt {k : Nat} (hp : win.Holds p) (hk : p.2 + k < win.max_x) :
    win.onward p k = (p.1, p.2 + k) := by
  obtain ⟨_, _, hx, hlt⟩ := hp
  have hpos : (0 : Int) < win.max_x := by omega
  have hsum : p.1 * win.max_x + p.2 + k = p.2 + k + p.1 * win.max_x := by omega
  unfold onward
  rw [hsum, Int.add_mul_ediv_right _ _ (Int.ne_of_gt hpos), Int.add_mul_emod_self_right,
    Int.ediv_eq_zero_of_lt (by omega) hk, Int.emod_eq_of_lt (by omega) hk, Int.zero_add]

theorem length_le_room (hp : win.Holds p) (hfits : p.2 + text.length ≤ win.max_x) :
    text.length ≤ win.room p := by
  obtain ⟨hy, hy', hx, hx'⟩ := hp
  have hle : (p.1 + 1) * win.max_x ≤ win.max_y * win.max_x :=
    Int.mul_le_mul_of_nonneg_right (by omega) (by omega)
  have hnonneg : 0 ≤ p.1 * win.max_x := Int.mul_nonneg hy (by omega)
  rw [Int.add_mul, Int.one_mul] at hle
  have hcast : ((win.max_y * win.max_x : Nat) : Int) = win.max_y * win.max_x := Int.natCast_mul ..
  unfold room
  omega

end Window

variable {nc : Curses}

theorem Curses.Documented.printw_of_fits (hdoc : nc.Documented) {win : Window} {pair : Nat}
    {p : Position} {text : List UInt8} (hp : win.Holds p) (hprint : ∀ c ∈ text, Printable c)
    (hfits : p.2 + text.length ≤ win.max_x) :
    nc.mvwprintw win pair p text = run p (colored pair text) := by
  have hroom : (colored pair text).length ≤ win.room p := by
    rw [length_colored]
    exact Window.length_le_room hp hfits
  rw [hdoc.printw hp hprint, List.take_of_length_le hroom]
  apply place_congr
  intro k hk
  rw [length_colored] at hk
  exact Window.onward_of_lt hp (by omega)

section Paragraph
variable {win : Window} {text : List UInt8}

/-- The characters in a row, and the rows. -/
def textWidth (win : Window) : Nat := max 1 (win.max_x - 4)
def textHeight (win : Window) : Nat := max 1 (win.max_y - 3)

/-- Where the `k`-th character of the paragraph is put. -/
def spot (win : Window) (k : Nat) : Position :=
  (2 + (k / textWidth win : Nat), 2 + (k % textWidth win : Nat))

theorem spot_injective (win : Window) : Function.Injective (spot win) := by
  intro i j hij
  obtain ⟨hrow, hcol⟩ := Prod.mk.inj hij
  rw [← Nat.div_add_mod i (textWidth win), ← Nat.div_add_mod j (textWidth win),
    show i / textWidth win = j / textWidth win by omega,
    show i % textWidth win = j % textWidth win by omega]

theorem spot_succ_of_wrap {k : Nat} (h : k % textWidth win + 1 = textWidth win) :
    spot win (k + 1) = ((spot win k).1 + 1, 2) := by
  have hsucc : k + 1 = textWidth win * (k / textWidth win + 1) := by
    have hdiv := Nat.div_add_mod k (textWidth win)
    rw [Nat.mul_add, Nat.mul_one]
    omega
  have hpos : 0 < textWidth win := Nat.lt_of_lt_of_le Nat.one_pos (Nat.le_max_left ..)
  unfold spot
  rw [hsucc, Nat.mul_div_cancel_left _ hpos, Nat.mul_mod_right]
  apply Prod.ext
  · dsimp only
    omega
  · rfl

theorem spot_succ {k : Nat} (h : k % textWidth win + 1 < textWidth win) :
    spot win (k + 1) = ((spot win k).1, (spot win k).2 + 1) := by
  have hdiv := Nat.div_add_mod k (textWidth win)
  have hpos : 0 < textWidth win := Nat.lt_of_lt_of_le Nat.one_pos (Nat.le_max_left ..)
  have hquot : (k + 1) / textWidth win = k / textWidth win := by
    rw [← hdiv, Nat.add_assoc, Nat.mul_add_div hpos, Nat.div_eq_of_lt h, Nat.mul_add_div hpos,
      Nat.mod_div_self]
  have hrem : (k + 1) % textWidth win = k % textWidth win + 1 := by
    have hdiv' := Nat.div_add_mod (k + 1) (textWidth win)
    rw [hquot] at hdiv'
    omega
  unfold spot
  rw [hquot, hrem]
  apply Prod.ext
  · rfl
  · dsimp only
    omega

/-- The loop from the `k`-th character on. -/
theorem paragraphLoop_eq (nc : Curses) (win : Window) (text : List UInt8) (k : Nat)
    (hk : k < textWidth win * textHeight win) :
    paragraphLoop nc win text (spot win k).1 (spot win k).2 =
      ((text.take (textWidth win * textHeight win - k)).zipIdx k).flatMap fun x =>
        nc.mvwaddch win (spot win x.2) x.1 := by
  induction text generalizing k with
  | nil =>
    rw [List.take_nil]
    rfl
  | cons c text ih =>
    have hpos : 0 < textWidth win := Nat.lt_of_lt_of_le Nat.one_pos (Nat.le_max_left ..)
    have hmod := Nat.mod_lt k hpos
    obtain ⟨left, hleft⟩ : ∃ left, textWidth win * textHeight win - k = left + 1 :=
      ⟨textWidth win * textHeight win - k - 1, by omega⟩
    have hrest : textWidth win * textHeight win - (k + 1) = left := by omega
    rw [paragraphLoop, hleft, List.take_succ_cons, List.zipIdx_cons, List.flatMap_cons]
    congr 1
    by_cases hwrap : k % textWidth win + 1 = textWidth win
    · have hedge : (spot win k).2 + 1 ≥ (win.max_x : Int) - 2 := by
        unfold spot textWidth at *
        dsimp only
        omega
      rw [if_pos hedge]
      by_cases hlast : k / textWidth win + 1 = textHeight win
      · have hend : (spot win k).1 + 1 ≥ (win.max_y : Int) - 1 := by
          unfold spot textHeight at *
          generalize k / textWidth win = q at *
          dsimp only
          omega
        -- the last character of the last row
        have hnone : left = 0 := by
          have hdiv := Nat.div_add_mod k (textWidth win)
          have hall : textWidth win * textHeight win = k + 1 := by
            rw [← hlast, Nat.mul_add, Nat.mul_one]
            omega
          omega
        rw [if_pos hend, hnone]
        rfl
      · have hrow : k / textWidth win < textHeight win := Nat.div_lt_of_lt_mul hk
        have hgoes : ¬ (spot win k).1 + 1 ≥ (win.max_y : Int) - 1 := by
          unfold spot textHeight at *
          generalize k / textWidth win = q at *
          dsimp only
          omega
        have hnext : k + 1 < textWidth win * textHeight win := by
          have hdiv := Nat.div_add_mod k (textWidth win)
          have hle : textWidth win * (k / textWidth win + 2) ≤ textWidth win * textHeight win :=
            Nat.mul_le_mul_left _ (by omega)
          rw [Nat.mul_add] at hle
          omega
        have hloop := ih (k + 1) hnext
        rw [spot_succ_of_wrap hwrap, hrest] at hloop
        rw [if_neg hgoes]
        exact hloop
    · have hinner : k % textWidth win + 1 < textWidth win := by omega
      have hedge : ¬ (spot win k).2 + 1 ≥ (win.max_x : Int) - 2 := by
        unfold spot textWidth at *
        dsimp only
        omega
      have hnext : k + 1 < textWidth win * textHeight win := by
        have hdiv := Nat.div_add_mod k (textWidth win)
        have hrow : k / textWidth win < textHeight win := Nat.div_lt_of_lt_mul hk
        have hle : textWidth win * (k / textWidth win + 1) ≤ textWidth win * textHeight win :=
          Nat.mul_le_mul_left _ hrow
        rw [Nat.mul_add, Nat.mul_one] at hle
        omega
      have hloop := ih (k + 1) hnext
      rw [spot_succ hinner, hrest] at hloop
      rw [if_neg hedge]
      exact hloop

theorem holds_spot (hy : 4 ≤ win.max_y) (hx : 5 ≤ win.max_x) {k : Nat}
    (hk : k < textWidth win * textHeight win) :
    2 ≤ (spot win k).1 ∧ (spot win k).1 ≤ (win.max_y : Int) - 2 ∧
      2 ≤ (spot win k).2 ∧ (spot win k).2 ≤ (win.max_x : Int) - 3 := by
  have hpos : 0 < textWidth win := Nat.lt_of_lt_of_le Nat.one_pos (Nat.le_max_left ..)
  have hrow : k / textWidth win < textHeight win := Nat.div_lt_of_lt_mul hk
  have hcol : k % textWidth win < textWidth win := Nat.mod_lt k hpos
  unfold spot
  unfold textHeight at hrow
  generalize k / textWidth win = q at *
  generalize k % textWidth win = r at *
  unfold textWidth at hcol
  dsimp only
  omega

theorem paragraphLoop_eq_place (hdoc : nc.Documented) (hy : 4 ≤ win.max_y) (hx : 5 ≤ win.max_x)
    (hprint : ∀ c ∈ text, Printable c) :
    paragraphLoop nc win text 2 2 =
      place (spot win) (colored win.pair (text.take (textWidth win * textHeight win))) := by
  have hpos : 0 < textWidth win * textHeight win :=
    Nat.mul_pos (Nat.lt_of_lt_of_le Nat.one_pos (Nat.le_max_left ..))
      (Nat.lt_of_lt_of_le Nat.one_pos (Nat.le_max_left ..))
  have hloop := paragraphLoop_eq nc win text 0 hpos
  have hstart : spot win 0 = (2, 2) := by
    unfold spot
    rw [Nat.zero_div, Nat.zero_mod]
    rfl
  rw [hstart, Nat.sub_zero] at hloop
  rw [hloop, place, colored, List.zipIdx_map, List.map_map, List.map_eq_flatMap]
  apply List.flatMap_congr
  rintro ⟨c, k⟩ hck
  have hk : k < textWidth win * textHeight win := by
    have hlt := List.snd_lt_of_mem_zipIdx hck
    rw [List.length_take] at hlt
    dsimp only at hlt
    omega
  have hspot := holds_spot hy hx hk
  have hholds : win.Holds (spot win k) := by
    unfold Window.Holds
    omega
  exact hdoc.addch hholds (hprint c (List.mem_of_mem_take (List.fst_mem_of_mem_zipIdx hck)))

end Paragraph

/-- In a window with room for it, a printable text can be read back row by row up to the last
position inside of the border, and nothing else of the window changes. -/
theorem paragraph_reads_back (hdoc : nc.Documented) {win : Window} (hy : 4 ≤ win.max_y)
    (hx : 5 ≤ win.max_x) {text : List UInt8} (hprint : ∀ c ∈ text, Printable c)
    (before : Drawing Glyph) :
    (∀ (k : Nat) (hk : k < text.length), k < (win.max_x - 4) * (win.max_y - 3) →
      glyphAt (before ++ paragraphLoop nc win text 2 2)
        (2 + (k / (win.max_x - 4) : Nat), 2 + (k % (win.max_x - 4) : Nat)) =
          some ⟨text[k], win.pair⟩) ∧
    (∀ p : Position, ¬ (2 ≤ p.1 ∧ p.1 ≤ (win.max_y : Int) - 2 ∧ 2 ≤ p.2 ∧
        p.2 ≤ (win.max_x : Int) - 3) →
      glyphAt (before ++ paragraphLoop nc win text 2 2) p = glyphAt before p) := by
  have hwidth : textWidth win = win.max_x - 4 := Nat.max_eq_right (by omega)
  have hheight : textHeight win = win.max_y - 3 := Nat.max_eq_right (by omega)
  rw [paragraphLoop_eq_place hdoc hy hx hprint]
  constructor
  · intro k hk hroom
    rw [← hwidth, ← hheight] at hroom
    have hlen : k < (colored win.pair (text.take (textWidth win * textHeight win))).length := by
      rw [length_colored, List.length_take]
      omega
    rw [← hwidth]
    apply glyphAt_append_right
    have hglyph := glyphAt_place (spot_injective win) hlen
    simp only [colored, List.getElem_map, List.getElem_take] at hglyph
    exact hglyph
  · intro p hp
    apply glyphAt_append_left
    rw [covers_place]
    rintro ⟨k, hk, rfl⟩
    rw [length_colored, List.length_take] at hk
    exact hp (holds_spot hy hx (by omega))

theorem ascii_append (s t : String) : ascii (s ++ t) = ascii s ++ ascii t := by
  unfold ascii
  rw [String.toList_append, List.map_append]

theorem printable_paragraphText : ∀ c ∈ paragraphText, Printable c := by
  unfold paragraphText
  rw [ascii_append, ascii_append, List.forall_mem_append, List.forall_mem_append]
  refine ⟨⟨?_, ?_⟩, ?_⟩
  all_goals decide +kernel

theorem paragraph_reads_back_sample : ∃ win : Window, 4 ≤ win.max_y ∧ 5 ≤ win.max_x ∧
    ∀ (k : Nat) (hk : k < paragraphText.length), k < (win.max_x - 4) * (win.max_y - 3) →
      glyphAt ([] ++ draw_paragraph .reference win)
        (2 + (k / (win.max_x - 4) : Nat), 2 + (k % (win.max_x - 4) : Nat)) =
          some ⟨paragraphText[k], win.pair⟩ := by
  refine ⟨⟨7, 80, 1, by decide, by decide⟩, by decide, by decide, ?_⟩
  exact (paragraph_reads_back Curses.reference_documented (by decide) (by decide)
    printable_paragraphText []).1

end Naarad.Screen
