import Naarad.Drawing
import Naarad.Tabs

/-!
# How much room the overview needs

The blocks of the first tab are drawn at fixed distances from their borders, whatever their size.
-/

set_option autoImplicit false

namespace Naarad.Screen

open Canvas CharArray Scaling

section Numbers

/-- `%d` prints digits, behind a sign where the number is negative. -/
theorem decimal_eq (n : Int) : ∃ digits : List UInt8,
    (decimal n = digits ∨ decimal n = 45 :: digits) ∧
    (digits = [48] ∨ n ≠ 0 ∧
      digits = (Nat.digits 10 n.natAbs).reverse.map fun d => 48 + UInt8.ofNat d) := by
  refine ⟨if n = 0 then [48]
    else (Nat.digits 10 n.natAbs).reverse.map fun d => 48 + UInt8.ofNat d, ?_, ?_⟩
  · by_cases hneg : n < 0
    · exact Or.inr (if_pos hneg)
    · exact Or.inl (if_neg hneg)
  · by_cases hzero : n = 0
    · exact Or.inl (if_pos hzero)
    · exact Or.inr ⟨hzero, if_neg hzero⟩

theorem length_decimal_pos (n : Int) : 0 < (decimal n).length := by
  obtain ⟨digits, hn, hdigits⟩ := decimal_eq n
  have hpos : 0 < digits.length := by
    rcases hdigits with rfl | ⟨hne, rfl⟩
    · exact Nat.one_pos
    · rw [List.length_map, List.length_reverse, List.length_pos_iff]
      exact Nat.digits_ne_nil_iff_ne_zero.mpr (Int.natAbs_ne_zero.mpr hne)
  rcases hn with hn | hn
  · rwa [hn]
  · rw [hn]
    exact Nat.succ_pos _

theorem length_decimal_le (x : Int32) : (decimal x.toInt).length ≤ 11 := by
  have hlow := x.le_toInt
  have hhigh := x.toInt_lt
  obtain ⟨digits, hn, hdigits⟩ := decimal_eq x.toInt
  have hten : digits.length ≤ 10 := by
    rcases hdigits with rfl | ⟨_, rfl⟩
    · decide
    · rw [List.length_map, List.length_reverse]
      apply (Nat.digits_length_le_iff (by decide) _).mpr
      omega
  rcases hn with hn | hn
  · rw [hn]
    exact Nat.le_succ_of_le hten
  · rw [hn]
    exact Nat.succ_le_succ hten

/-- A number is written with digits and a sign, and no letters. -/
theorem decimal_bounds {n : Int} {b : UInt8} (hb : b ∈ decimal n) :
    45 ≤ b.toNat ∧ b.toNat < 58 := by
  obtain ⟨digits, hn, hdigits⟩ := decimal_eq n
  have hdigit : b ∈ digits → 45 ≤ b.toNat ∧ b.toNat < 58 := by
    intro hb
    rcases hdigits with rfl | ⟨_, rfl⟩
    · rw [List.mem_singleton.mp hb]
      decide
    · obtain ⟨d, hd, rfl⟩ := List.mem_map.mp hb
      have hlt : d < 10 := Nat.digits_lt_base (by decide) (List.mem_reverse.mp hd)
      rw [UInt8.toNat_add, UInt8.toNat_ofNat']
      have h48 : (48 : UInt8).toNat = 48 := rfl
      omega
  rcases hn with hn | hn
  · exact hdigit (hn ▸ hb)
  · rw [hn] at hb
    rcases List.mem_cons.mp hb with rfl | hb
    · decide
    · exact hdigit hb

theorem printable_decimal (n : Int) : ∀ b ∈ decimal n, Printable b := by
  intro b hb
  have hbounds := decimal_bounds hb
  unfold Printable
  omega

end Numbers

variable {nc : Curses}

section Texts
variable {win : Window} {pair : Nat} {p q : Position} {text : List UInt8}

theorem Curses.Documented.covers_printw (hdoc : nc.Documented)
    (hprint : ∀ c ∈ text, Printable c) : Covers (nc.mvwprintw win pair p text) q ↔ win.Holds p ∧
    ∃ k, k < text.length ∧ k < win.room p ∧ win.onward p k = q := by
  by_cases hp : win.Holds p
  · rw [hdoc.printw hp hprint, covers_place, and_iff_right hp]
    apply exists_congr
    intro k
    rw [List.length_take, length_colored, lt_min_iff, and_assoc, and_left_comm]
  · rw [hdoc.printw_off hp]
    constructor
    · rintro ⟨x, hx, _⟩
      cases hx
    · exact fun h => absurd h.1 hp

/-- A text starts where it is put and stays in the window. -/
theorem Curses.Documented.row_of_covers_printw (hdoc : nc.Documented)
    (hprint : ∀ c ∈ text, Printable c) (h : Covers (nc.mvwprintw win pair p text) q) :
    p.1 ≤ q.1 ∧ win.Holds q := by
  obtain ⟨⟨hy, hy', hx, hx'⟩, k, _, hk, rfl⟩ := (hdoc.covers_printw hprint).mp h
  have hpos : (0 : Int) < win.max_x := by omega
  have hnonneg : 0 ≤ p.1 * win.max_x := Int.mul_nonneg hy (by omega)
  have hcast : ((win.max_y * win.max_x : Nat) : Int) = win.max_y * win.max_x := Int.natCast_mul ..
  have hlt : p.1 * win.max_x + p.2 + k < win.max_y * win.max_x := by
    unfold Window.room at hk
    omega
  have hrow : p.1 ≤ (p.1 * win.max_x + p.2 + k) / win.max_x :=
    (Int.le_ediv_iff_mul_le hpos).mpr (by omega)
  unfold Window.onward Window.Holds
  dsimp only
  refine ⟨hrow, Int.le_trans hy hrow, Int.ediv_lt_of_lt_mul hpos hlt, Int.emod_nonneg _ (by omega),
    Int.emod_lt_of_pos _ hpos⟩

end Texts

section Bars
variable {win : Window}

abbrev bar (win : Window) (c : OperationCounters) (i : Fin 5) : Bar :=
  Naarad.draw_bar_graph (Int32.ofNat win.max_y) (Int32.ofNat win.max_x) c i

theorem bar_row (win : Window) (c : OperationCounters) (i : Fin 5) :
    (bar win c i).row.toInt = (win.max_y : Int) - 3 - i.val * 2 := by
  have hy := win.small_y
  have hi := i.isLt
  have hmax : (Int32.ofNat win.max_y).toInt = win.max_y := Int32.toInt_ofNat_of_lt (by omega)
  have hindex : (Int32.ofNat i.val).toInt = i.val := Int32.toInt_ofNat_of_lt (by omega)
  have h3 : (3 : Int32).toInt = 3 := rfl
  have h2 : (2 : Int32).toInt = 2 := rfl
  have hleft : (Int32.ofNat win.max_y - 3).toInt = win.max_y - 3 := by
    rw [Int32.toInt_sub, hmax, h3]
    apply Int.bmod_eq_of_le <;> omega
  have hright : (Int32.ofNat i.val * 2).toInt = i.val * 2 := by
    rw [Int32.toInt_mul, hindex, h2]
    apply Int.bmod_eq_of_le <;> omega
  show (Int32.ofNat win.max_y - 3 - Int32.ofNat i.val * 2).toInt = _
  rw [Int32.toInt_sub, hleft, hright]
  apply Int.bmod_eq_of_le <;> omega

/-- In a window of 15 columns or more no bar is longer than the window is wide but for 15 columns,
even where the products wrap. -/
theorem bar_length_bounds (hx : 15 ≤ win.max_x) (c : OperationCounters) (i : Fin 5) :
    0 ≤ (bar win c i).bar_length.toInt ∧
      (bar win c i).bar_length.toInt ≤ (win.max_x : Int) - 15 ∧
      ((bar win c i).bar_length + 3).toInt = (bar win c i).bar_length.toInt + 3 := by
  have hsmall := win.small_x
  have hmax : (Int32.ofNat win.max_x).toInt = win.max_x := Int32.toInt_ofNat_of_lt (by omega)
  have hle : scaled (2 ^ 64) (barValues c i).toNat ((Int32.ofNat win.max_x).toInt - 15).toNat
      (maxValue (barValues c)).toNat ≤ ((Int32.ofNat win.max_x).toInt - 15).toNat := by
    rw [maxValue_toNat]
    exact scaled_le_whole (by decide) (le_largest _ i)
  have hlength := barLength_wide (Int32.le_iff_toInt_le.mpr (by rw [hmax]; exact Int.natCast_nonneg _))
    (by omega) hle
  dsimp only [bar, Naarad.draw_bar_graph]
  rw [hlength, Int32.toInt_add, hlength]
  rw [hmax] at hle
  rw [hmax]
  have h3 : (3 : Int32).toInt = 3 := rfl
  rw [h3]
  refine ⟨by omega, by omega, ?_⟩
  apply Int.bmod_eq_of_le <;> omega

theorem length_barLabels (i : Fin 5) : (barLabels i).length ≤ 6 := by
  revert i
  decide

theorem printable_barLabels (i : Fin 5) : ∀ b ∈ barLabels i, Printable b := by
  revert i
  decide +kernel

theorem barLabels_ge {i : Fin 5} {b : UInt8} (hb : b ∈ barLabels i) : 97 ≤ b.toNat := by
  have hall : ∀ i : Fin 5, ((barLabels i).all fun b => 97 ≤ b.toNat) = true := by decide
  exact of_decide_eq_true (List.all_eq_true.mp (hall i) b hb)

/-- A bar in a window that is wide enough: the line, the number and the label side by side. -/
theorem drawBar_eq (hdoc : nc.Documented) (hx : 15 ≤ win.max_x) (c : OperationCounters) (i : Fin 5)
    (hrow : i.val * 2 + 3 ≤ win.max_y) :
    drawBar nc win i (bar win c i) =
      run ((bar win c i).row.toInt, 2)
        (List.replicate (bar win c i).bar_length.toInt.toNat ⟨32, 6 + i.val⟩) ++
      run ((bar win c i).row.toInt, (bar win c i).bar_length.toInt + 3)
        (colored win.pair (decimal (bar win c i).number.toInt)) ++
      run ((bar win c i).row.toInt, 1) (colored win.pair (barLabels i)) := by
  have hy := bar_row win c i
  obtain ⟨hlow, hhigh, hnext⟩ := bar_length_bounds hx c i
  have hnumber := length_decimal_le (bar win c i).number
  have hlabel := length_barLabels i
  have hline : win.Holds ((bar win c i).row.toInt, 2) := by
    unfold Window.Holds
    omega
  have hmin : min (bar win c i).bar_length.toInt ((win.max_x : Int) - 2) =
      (bar win c i).bar_length.toInt := by omega
  have hheld : win.Holds ((bar win c i).row.toInt, (bar win c i).bar_length.toInt + 3) := by
    unfold Window.Holds
    omega
  have hfirst : win.Holds ((bar win c i).row.toInt, 1) := by
    unfold Window.Holds
    omega
  have hprinted : nc.mvwprintw win win.pair _ (decimal (bar win c i).number.toInt) = _ :=
    hdoc.printw_of_fits hheld (printable_decimal _) (by dsimp only; omega)
  have hlabelled : nc.mvwprintw win win.pair _ (barLabels i) = _ :=
    hdoc.printw_of_fits hfirst (printable_barLabels i) (by dsimp only; omega)
  unfold drawBar
  rw [hnext, hprinted, show (bar win c i).label = barLabels i from rfl, hlabelled,
    hdoc.hline hline (by decide), hmin]

theorem drawBar_of_no_row (hdoc : nc.Documented) (c : OperationCounters) (i : Fin 5)
    (hrow : ¬ i.val * 2 + 3 ≤ win.max_y) :
    drawBar nc win i (bar win c i) = [] := by
  have hy := bar_row win c i
  have hnone : ∀ x, ¬ win.Holds ((bar win c i).row.toInt, x) := by
    intro x hholds
    have hrow' := hholds.1
    dsimp only at hrow'
    omega
  unfold drawBar
  rw [hdoc.hline_off (hnone _), hdoc.printw_off (hnone _), hdoc.printw_off (hnone _)]
  rfl

theorem covers_drawBar (hdoc : nc.Documented) (hx : 15 ≤ win.max_x) {c : OperationCounters}
    {i : Fin 5} {p : Position} (h : Covers (drawBar nc win i (bar win c i)) p) :
    p.1 = (win.max_y : Int) - 3 - i.val * 2 ∧ 1 ≤ p.2 ∧ p.2 ≤ (win.max_x : Int) - 2 ∧
      i.val * 2 + 3 ≤ win.max_y := by
  by_cases hrow : i.val * 2 + 3 ≤ win.max_y
  · have hy := bar_row win c i
    obtain ⟨hlow, hhigh, _⟩ := bar_length_bounds hx c i
    have hnumber := length_decimal_le (bar win c i).number
    have hlabel := length_barLabels i
    rw [drawBar_eq hdoc hx c i hrow, covers_append, covers_append, covers_run, covers_run,
      covers_run, length_colored, length_colored, List.length_replicate] at h
    dsimp only at h
    omega
  · rw [drawBar_of_no_row hdoc c i hrow] at h
    obtain ⟨x, hmem, _⟩ := h
    cases hmem

theorem covers_drawLegend (hdoc : nc.Documented) {p : Position} (h : Covers (drawLegend nc win) p) :
    p.1 = (win.max_y : Int) - 1 := by
  suffices hrow : (win.max_y : Int) - 1 ≤ p.1 ∧ win.Holds p by
    obtain ⟨hle, _, hlt, _⟩ := hrow
    omega
  unfold drawLegend at h
  rcases covers_append.mp h with h | h
  · exact hdoc.row_of_covers_printw (by decide +kernel) h
  · obtain ⟨i, _, h⟩ := covers_flatMap.mp h
    rcases covers_append.mp h with h | h
    · exact hdoc.row_of_covers_printw (by decide +kernel) h
    · exact hdoc.row_of_covers_printw (printable_barLabels i) h

/-- What is seen in the row of a bar comes from that bar. -/
theorem glyphAt_bar_row (hdoc : nc.Documented) (hx : 15 ≤ win.max_x) (c : OperationCounters)
    (i : Fin 5) (x : Int) :
    glyphAt (draw_bar_graph nc win c) ((bar win c i).row.toInt, x) =
      glyphAt (drawBar nc win i (bar win c i)) ((bar win c i).row.toInt, x) := by
  have hy := bar_row win c i
  have hlegend : ¬ Covers (drawLegend nc win) ((bar win c i).row.toInt, x) := by
    intro hcovers
    have hrow := covers_drawLegend hdoc hcovers
    dsimp only at hrow
    omega
  unfold draw_bar_graph
  rw [glyphAt_append_left hlegend]
  apply glyphAt_flatMap (List.nodup_finRange 5) (List.mem_finRange i)
  intro j _ hj hcovers
  have hrow := (covers_drawBar hdoc hx hcovers).1
  dsimp only at hrow
  exact hj (Fin.ext (by omega))

end Bars

/-- Every digit of the number beside a bar is seen. -/
def NumberVisible (nc : Curses) (win : Window) (c : OperationCounters) (i : Fin 5) : Prop :=
  ∀ (k : Nat) (hk : k < (decimal (bar win c i).number.toInt).length),
    glyphAt (draw_bar_graph nc win c)
      ((bar win c i).row.toInt, (bar win c i).bar_length.toInt + 3 + k) =
        some ⟨(decimal (bar win c i).number.toInt)[k], win.pair⟩

/-- The number beside a bar never reaches the right border; it can be read in full exactly when the
bar is long enough for the label, which is printed over the start of the row afterwards. -/
theorem bar_number_visible_iff (hdoc : nc.Documented) {win : Window} (hx : 15 ≤ win.max_x)
    (c : OperationCounters) (i : Fin 5) (hrow : i.val * 2 + 3 ≤ win.max_y) :
    (bar win c i).bar_length.toInt + 3 + (decimal (bar win c i).number.toInt).length ≤
      (win.max_x : Int) - 1 ∧
    (NumberVisible nc win c i ↔
      ((barLabels i).length : Int) ≤ (bar win c i).bar_length.toInt + 2) := by
  obtain ⟨hlow, hhigh, _⟩ := bar_length_bounds hx c i
  have hnumber := length_decimal_le (bar win c i).number
  have hpos := length_decimal_pos (bar win c i).number.toInt
  refine ⟨by omega, ?_⟩
  unfold NumberVisible
  simp only [glyphAt_bar_row hdoc hx, drawBar_eq hdoc hx c i hrow]
  constructor
  · intro hvisible
    by_contra hshort
    -- the first digit lies under the label
    have hk : ((bar win c i).bar_length.toInt + 2).toNat <
        (colored win.pair (barLabels i)).length := by
      rw [length_colored]
      omega
    have hlabel := glyphAt_run (p := ((bar win c i).row.toInt, 1)) hk
    have hcol : (1 : Int) + ((bar win c i).bar_length.toInt + 2).toNat =
        (bar win c i).bar_length.toInt + 3 + (0 : Nat) := by omega
    dsimp only at hlabel
    rw [hcol] at hlabel
    have hfirst := hvisible 0 hpos
    rw [glyphAt_append_right hlabel] at hfirst
    have hchar := congrArg Glyph.char (Option.some.inj hfirst)
    simp only [colored, List.getElem_map] at hchar
    have hletter := barLabels_ge (List.getElem_mem (l := barLabels i) (by rwa [length_colored] at hk))
    rw [hchar] at hletter
    have hdigit := (decimal_bounds (List.getElem_mem hpos)).2
    omega
  · intro hroom k hk
    have hlabel : ¬ Covers (run ((bar win c i).row.toInt, 1) (colored win.pair (barLabels i)))
        ((bar win c i).row.toInt, (bar win c i).bar_length.toInt + 3 + k) := by
      rw [covers_run, length_colored]
      dsimp only
      omega
    have hlen : k < (colored win.pair (decimal (bar win c i).number.toInt)).length := by
      rwa [length_colored]
    rw [glyphAt_append_left hlabel]
    apply glyphAt_append_right
    have hglyph :=
      glyphAt_run (p := ((bar win c i).row.toInt, (bar win c i).bar_length.toInt + 3)) hlen
    simp only [colored, List.getElem_map] at hglyph
    exact hglyph

/-- In 80 columns, the number beside the longest of three bars can be read, and the one beside a bar
of no columns can not. -/
theorem bar_number_visible_iff_sample :
    let win : Window := ⟨12, 80, 1, by decide, by decide⟩
    let c := { OperationCounters.zero with open_ops := 120, write_ops := 40, rename_ops := 1 }
    NumberVisible .reference win c 0 ∧ ¬ NumberVisible .reference win c 3 := by
  intro win c
  have hvisible := fun i hrow => (bar_number_visible_iff Curses.reference_documented
    (show 15 ≤ win.max_x by decide) c i hrow).2
  constructor
  · exact (hvisible 0 (by decide)).mpr (by decide +kernel)
  · exact mt (hvisible 3 (by decide)).mp (by decide +kernel)

section Fits
variable {win : Window}

/-- All five bars and all five items are shown, and nothing but the legend is put on the border or
over the title. -/
structure Fits (nc : Curses) (win : Window) (c : OperationCounters) : Prop where
  bars : ∀ i, Covers (drawBars nc win c) ((bar win c i).row.toInt, 1)
  items : ∀ i : Fin 5, Covers (draw_list nc win) ((i.val : Int) + 2, 2)
  inside : ∀ p, Covers (drawBars nc win c ++ draw_paragraph nc win ++ draw_list nc win) p →
    2 ≤ p.1 ∧ p.1 ≤ (win.max_y : Int) - 2 ∧ 1 ≤ p.2 ∧ p.2 ≤ (win.max_x : Int) - 2

theorem length_listText (i : Fin 5) : 0 < (listText i).length ∧ (listText i).length ≤ 13 := by
  revert i
  decide

theorem printable_listText (i : Fin 5) : ∀ b ∈ listText i, Printable b := by
  revert i
  decide +kernel

theorem draw_list_of_tall (hy : 7 ≤ win.max_y) :
    draw_list nc win = (List.finRange 5).flatMap fun i =>
      nc.mvwprintw win win.pair ((i.val : Int) + 2, 2) (listText i) := by
  unfold draw_list
  rw [List.takeWhile_eq_self_iff.mpr]
  intro i _
  have hi := i.isLt
  apply decide_eq_true
  omega

theorem inside_of_room (hdoc : nc.Documented) (hy : 13 ≤ win.max_y) (hx : 16 ≤ win.max_x)
    (c : OperationCounters) {p : Position}
    (h : Covers (drawBars nc win c ++ draw_paragraph nc win ++ draw_list nc win) p) :
    2 ≤ p.1 ∧ p.1 ≤ (win.max_y : Int) - 2 ∧ 1 ≤ p.2 ∧ p.2 ≤ (win.max_x : Int) - 2 := by
  rcases covers_append.mp h with h | h
  · rcases covers_append.mp h with h | h
    · obtain ⟨i, _, h⟩ := covers_flatMap.mp h
      obtain ⟨hrow, hleft, hright, _⟩ := covers_drawBar hdoc (by omega) h
      have hi := i.isLt
      omega
    · unfold draw_paragraph at h
      rw [paragraphLoop_eq_place hdoc (by omega) (by omega) printable_paragraphText,
        covers_place] at h
      obtain ⟨k, hk, rfl⟩ := h
      rw [length_colored, List.length_take] at hk
      have hspot := @holds_spot win (by omega) (by omega) k (by omega)
      omega
  · rw [draw_list_of_tall (by omega), covers_flatMap] at h
    obtain ⟨i, _, h⟩ := h
    have hi := i.isLt
    have hlen := length_listText i
    have hholds : win.Holds ((i.val : Int) + 2, 2) := by
      unfold Window.Holds
      omega
    rw [hdoc.printw_of_fits hholds (printable_listText i) (by dsimp only; omega), covers_run,
      length_colored] at h
    dsimp only at h
    omega

theorem covers_item (hdoc : nc.Documented) (hy : 7 ≤ win.max_y) (i : Fin 5) {k : Nat}
    (hk : k < (listText i).length) (hx : 2 + k < win.max_x) :
    Covers (draw_list nc win) ((i.val : Int) + 2, 2 + k) := by
  have hi := i.isLt
  have hholds : win.Holds ((i.val : Int) + 2, 2) := by
    unfold Window.Holds
    omega
  rw [draw_list_of_tall hy, covers_flatMap]
  refine ⟨i, List.mem_finRange i,
    (hdoc.covers_printw (printable_listText i)).mpr ⟨hholds, k, hk, ?_, ?_⟩⟩
  · have hle : (i.val + 3) * win.max_x ≤ win.max_y * win.max_x :=
      Nat.mul_le_mul_right _ (by omega)
    have hcast : (((i.val : Int) + 2) * win.max_x + 2).toNat = (i.val + 2) * win.max_x + 2 := by
      have hnat : ((i.val : Int) + 2) * win.max_x + 2 = ((i.val + 2) * win.max_x + 2 : Nat) := by
        push_cast
        rfl
      rw [hnat]
      rfl
    unfold Window.room
    rw [hcast]
    rw [Nat.add_mul] at hle ⊢
    omega
  · exact Window.onward_of_lt hholds (by dsimp only; omega)

theorem fits_iff (hdoc : nc.Documented) (win : Window) (c : OperationCounters) :
    Fits nc win c ↔ 13 ≤ win.max_y ∧ 16 ≤ win.max_x := by
  constructor
  · intro h
    have hlast := h.inside _ (covers_append.mpr (Or.inl (covers_append.mpr (Or.inl (h.bars 4)))))
    have hrow := bar_row win c 4
    have h4 : ((4 : Fin 5).val : Int) = 4 := rfl
    dsimp only at hlast
    have hy : 13 ≤ win.max_y := by omega
    refine ⟨hy, ?_⟩
    have hitem := h.inside _ (covers_append.mpr (Or.inr (h.items 4)))
    dsimp only at hitem
    by_contra hx
    -- the longest item goes up to the right border
    have hlen : (listText 4).length = 13 := by decide
    have hedge := h.inside _ (covers_append.mpr (Or.inr
      (covers_item hdoc (by omega) 4 (k := win.max_x - 3) (by omega) (by omega))))
    dsimp only at hedge
    omega
  · rintro ⟨hy, hx⟩
    refine ⟨?_, ?_, fun p => inside_of_room hdoc hy hx c⟩
    · intro i
      have hi := i.isLt
      have hlabel : 0 < (barLabels i).length := by
        revert i
        decide
      refine covers_flatMap.mpr ⟨i, List.mem_finRange i, ?_⟩
      rw [drawBar_eq hdoc (by omega) c i (by omega)]
      apply covers_append.mpr (Or.inr (covers_run.mpr _))
      rw [length_colored]
      dsimp only
      omega
    · intro i
      exact covers_item hdoc (by omega) i (k := 0) (length_listText i).1 (by omega)

end Fits

/-- A block of the first tab on a screen of the given size: a third of `content_win`, which is three
lines less than the screen. -/
def blockWindow (lines cols : Fin (2 ^ 15)) (pair : Nat) : Window where
  max_y := (lines.val - 3) / Tui.NUM_BLOCKS
  max_x := cols.val
  pair := pair
  small_y := Nat.lt_of_le_of_lt (Nat.div_le_self ..) (Nat.lt_of_le_of_lt (Nat.sub_le ..) lines.isLt)
  small_x := cols.isLt

/-- Whatever has been counted, the overview fits its windows exactly on screens of at least 42 lines
and 16 columns. -/
theorem overview_fits_iff (hdoc : nc.Documented) (lines cols : Fin (2 ^ 15)) (pair : Nat)
    (c : OperationCounters) :
    Fits nc (blockWindow lines cols pair) c ↔ 42 ≤ lines.val ∧ 16 ≤ cols.val := by
  rw [fits_iff hdoc]
  unfold blockWindow Tui.NUM_BLOCKS
  dsimp only
  omega

/-- On a screen of 50 lines, and not on one of 24. -/
theorem overview_fits_iff_sample :
    let c := { OperationCounters.zero with open_ops := 120, write_ops := 40, rename_ops := 1 }
    Fits .reference (blockWindow 50 132 1) c ∧ ¬ Fits .reference (blockWindow 24 80 1) c := by
  intro c
  have hfits := fun lines cols =>
    overview_fits_iff Curses.reference_documented lines cols 1 c
  exact ⟨(hfits 50 132).mpr (by decide), mt (hfits 24 80).mp (by decide)⟩

end Naarad.Screen
