import Mathlib.Data.List.Basic
import Mathlib.Data.List.Nodup

/-!
# Drawing glyph by glyph

A drawing is the glyphs put at positions, in the order of time; what is seen at a position is the
glyph put there last. Positions are row and column.
-/

set_option autoImplicit false

namespace Canvas

universe u
variable {γ : Type u}

abbrev Position := Int × Int

abbrev Drawing (γ : Type u) := List (Position × γ)

def glyphAt (d : Drawing γ) (p : Position) : Option γ :=
  ((d.filter fun x => x.1 = p).getLast?).map Prod.snd

/-- Something is put at `p`. -/
def Covers (d : Drawing γ) (p : Position) : Prop := ∃ x ∈ d, x.1 = p

theorem covers_append {d e : Drawing γ} {p : Position} :
    Covers (d ++ e) p ↔ Covers d p ∨ Covers e p := by
  constructor
  · rintro ⟨x, hx, hp⟩
    rcases List.mem_append.mp hx with hx | hx
    · exact Or.inl ⟨x, hx, hp⟩
    · exact Or.inr ⟨x, hx, hp⟩
  · rintro (⟨x, hx, hp⟩ | ⟨x, hx, hp⟩)
    · exact ⟨x, List.mem_append_left _ hx, hp⟩
    · exact ⟨x, List.mem_append_right _ hx, hp⟩

theorem glyphAt_append (d e : Drawing γ) (p : Position) :
    glyphAt (d ++ e) p = (glyphAt e p).or (glyphAt d p) := by
  unfold glyphAt
  rw [List.filter_append, List.getLast?_append, Option.map_or]

theorem glyphAt_of_not_covers {d : Drawing γ} {p : Position} (h : ¬ Covers d p) :
    glyphAt d p = none := by
  have hnil : (d.filter fun x => x.1 = p) = [] := by
    rw [List.filter_eq_nil_iff]
    intro x hx hp
    exact h ⟨x, hx, of_decide_eq_true hp⟩
  rw [glyphAt, hnil]
  rfl

/-- What comes later somewhere else is not seen here. -/
theorem glyphAt_append_left {d e : Drawing γ} {p : Position} (h : ¬ Covers e p) :
    glyphAt (d ++ e) p = glyphAt d p := by
  rw [glyphAt_append, glyphAt_of_not_covers h]
  rfl

theorem glyphAt_append_right {d e : Drawing γ} {p : Position} {g : γ} (h : glyphAt e p = some g) :
    glyphAt (d ++ e) p = some g := by
  rw [glyphAt_append, h]
  rfl

/-- A drawing that uses no position twice shows all of its glyphs. -/
theorem glyphAt_of_mem {d : Drawing γ} (hd : (d.map Prod.fst).Nodup) {p : Position} {g : γ}
    (h : (p, g) ∈ d) : glyphAt d p = some g := by
  obtain ⟨xs, ys, rfl⟩ := List.append_of_mem h
  have hafter : ¬ Covers ys p := by
    rintro ⟨x, hx, rfl⟩
    rw [List.map_append, List.map_cons] at hd
    have hrest := (List.nodup_cons.mp (List.nodup_append.mp hd).2.1).1
    exact hrest (List.mem_map.mpr ⟨x, hx, rfl⟩)
  rw [← List.singleton_append, ← List.append_assoc, glyphAt_append_left hafter]
  apply glyphAt_append_right
  simp [glyphAt]

theorem covers_flatMap {ι : Type*} {l : List ι} {f : ι → Drawing γ} {p : Position} :
    Covers (l.flatMap f) p ↔ ∃ i ∈ l, Covers (f i) p := by
  constructor
  · rintro ⟨x, hx, hp⟩
    obtain ⟨i, hi, hx⟩ := List.mem_flatMap.mp hx
    exact ⟨i, hi, x, hx, hp⟩
  · rintro ⟨i, hi, x, hx, hp⟩
    exact ⟨x, List.mem_flatMap.mpr ⟨i, hi, hx⟩, hp⟩

/-- Where one part alone puts something, it is seen. -/
theorem glyphAt_flatMap {ι : Type*} {l : List ι} (hl : l.Nodup) {f : ι → Drawing γ} {p : Position}
    {i : ι} (hi : i ∈ l) (hother : ∀ j ∈ l, j ≠ i → ¬ Covers (f j) p) :
    glyphAt (l.flatMap f) p = glyphAt (f i) p := by
  obtain ⟨xs, ys, rfl⟩ := List.append_of_mem hi
  obtain ⟨_, htail, hdisjoint⟩ := List.nodup_append.mp hl
  have hafter : ¬ Covers (ys.flatMap f) p := by
    rw [covers_flatMap]
    rintro ⟨j, hj, hcovers⟩
    refine hother j (List.mem_append_right _ (List.mem_cons_of_mem _ hj)) ?_ hcovers
    rintro rfl
    exact (List.nodup_cons.mp htail).1 hj
  have hbefore : ¬ Covers (xs.flatMap f) p := by
    rw [covers_flatMap]
    rintro ⟨j, hj, hcovers⟩
    exact hother j (List.mem_append_left _ hj) (hdisjoint j hj i List.mem_cons_self) hcovers
  rw [List.flatMap_append, List.flatMap_cons, ← List.append_assoc, glyphAt_append_left hafter,
    glyphAt_append, glyphAt_of_not_covers hbefore, Option.or_none]

/-- The glyphs of `gs` one after another, each where `f` says. -/
def place (f : Nat → Position) (gs : List γ) : Drawing γ := gs.zipIdx.map fun x => (f x.2, x.1)

section Place
variable {f : Nat → Position} {gs : List γ}

theorem place_congr {g : Nat → Position} (h : ∀ k, k < gs.length → f k = g k) :
    place f gs = place g gs := by
  apply List.map_congr_left
  rintro ⟨x, k⟩ hx
  rw [h k (List.snd_lt_of_mem_zipIdx hx)]

theorem map_fst_place (f : Nat → Position) (gs : List γ) :
    (place f gs).map Prod.fst = (List.range' 0 gs.length).map f := by
  rw [← List.zipIdx_map_snd, place, List.map_map, List.map_map]
  rfl

theorem covers_place {p : Position} : Covers (place f gs) p ↔ ∃ k, k < gs.length ∧ f k = p := by
  have hcovers : Covers (place f gs) p ↔ p ∈ (place f gs).map Prod.fst := List.mem_map.symm
  rw [hcovers, map_fst_place, List.mem_map]
  apply exists_congr
  intro k
  rw [List.mem_range'_1, Nat.zero_add]
  exact and_congr_left fun _ => and_iff_right (Nat.zero_le k)

theorem mem_place {k : Nat} (hk : k < gs.length) : (f k, gs[k]) ∈ place f gs :=
  List.mem_map.mpr ⟨(gs[k], k), List.mem_zipIdx_iff_getElem?.mpr (List.getElem?_eq_getElem hk), rfl⟩

theorem glyphAt_place (hf : Function.Injective f) {k : Nat} (hk : k < gs.length) :
    glyphAt (place f gs) (f k) = some gs[k] := by
  apply glyphAt_of_mem _ (mem_place hk)
  rw [map_fst_place]
  exact (List.nodup_range' 1).map hf

end Place

/-- The glyphs side by side, from `p` to the right. -/
def run (p : Position) (gs : List γ) : Drawing γ := place (fun k => (p.1, p.2 + k)) gs

theorem covers_run {p q : Position} {gs : List γ} :
    Covers (run p gs) q ↔ q.1 = p.1 ∧ p.2 ≤ q.2 ∧ q.2 < p.2 + gs.length := by
  unfold run
  rw [covers_place]
  constructor
  · rintro ⟨k, hk, rfl⟩
    dsimp only
    refine ⟨rfl, ?_, ?_⟩ <;> omega
  · rintro ⟨hy, hle, hlt⟩
    refine ⟨(q.2 - p.2).toNat, by omega, Prod.ext hy.symm ?_⟩
    dsimp only
    omega

theorem glyphAt_run {p : Position} {gs : List γ} {k : Nat} (hk : k < gs.length) :
    glyphAt (run p gs) (p.1, p.2 + k) = some gs[k] := by
  apply glyphAt_place (f := fun k : Nat => (p.1, p.2 + (k : Int))) _ hk
  intro i j hij
  have hcol := (Prod.mk.inj hij).2
  omega

end Canvas
