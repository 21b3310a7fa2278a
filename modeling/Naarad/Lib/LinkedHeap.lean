import Mathlib.Logic.Function.Basic
import Mathlib.Data.List.Nodup

/-!
# Singly linked cells on an explicit heap

A heap maps addresses to cells; an address without a cell is not allocated. `Seg h p ns q` is a
path of pointers from `p` to `q` through the cells `ns`. Nothing here depends on what the cells
carry, nor on the algorithm that links them.
-/

set_option autoImplicit false

namespace LinkedHeap

universe u
variable {α : Type u}

abbrev Addr := Nat

/-- One allocated cell; the null pointer is `none`. -/
structure Cell (α : Type u) where
  val : α
  next : Option Addr
  deriving DecidableEq

abbrev Heap (α : Type u) := Addr → Option (Cell α)

/-- The cell a pointer leads to: none for the null pointer and for a released cell. -/
def deref (h : Heap α) (p : Option Addr) : Option (Cell α) := p.bind h

def store (h : Heap α) (a : Addr) (c : Cell α) : Heap α := Function.update h a (some c)

def release (h : Heap α) (a : Addr) : Heap α := Function.update h a none

@[simp] theorem deref_some (h : Heap α) (a : Addr) : deref h (some a) = h a := rfl

@[simp] theorem store_self (h : Heap α) (a : Addr) (c : Cell α) : store h a c a = some c :=
  Function.update_self ..

theorem store_of_ne {h : Heap α} {a b : Addr} {c : Cell α} (hab : b ≠ a) : store h a c b = h b :=
  Function.update_of_ne hab ..

@[simp] theorem release_self (h : Heap α) (a : Addr) : release h a a = none :=
  Function.update_self ..

theorem release_of_ne {h : Heap α} {a b : Addr} (hab : b ≠ a) : release h a b = h b :=
  Function.update_of_ne hab ..

/-- The cells `ns`, in order, lead from pointer `p` to pointer `q`. -/
def Seg (h : Heap α) : Option Addr → List (Addr × α) → Option Addr → Prop
  | p, [], q => p = q
  | p, n :: ns, q => p = some n.1 ∧ ∃ next, h n.1 = some ⟨n.2, next⟩ ∧ Seg h next ns q

def addrs (ns : List (Addr × α)) : List Addr := ns.map Prod.fst

def vals (ns : List (Addr × α)) : List α := ns.map Prod.snd

@[simp] theorem addrs_nil : addrs ([] : List (Addr × α)) = [] := rfl

@[simp] theorem addrs_cons (n : Addr × α) (ns : List (Addr × α)) :
    addrs (n :: ns) = n.1 :: addrs ns := rfl

@[simp] theorem addrs_append (ms ns : List (Addr × α)) :
    addrs (ms ++ ns) = addrs ms ++ addrs ns := List.map_append

@[simp] theorem vals_nil : vals ([] : List (Addr × α)) = [] := rfl

@[simp] theorem vals_cons (n : Addr × α) (ns : List (Addr × α)) :
    vals (n :: ns) = n.2 :: vals ns := rfl

@[simp] theorem vals_append (ms ns : List (Addr × α)) :
    vals (ms ++ ns) = vals ms ++ vals ns := List.map_append

@[simp] theorem vals_length (ns : List (Addr × α)) : (vals ns).length = ns.length :=
  List.length_map ..

@[simp] theorem seg_nil {h : Heap α} {p q : Option Addr} : Seg h p [] q ↔ p = q := Iff.rfl

theorem seg_cons {h : Heap α} {p q : Option Addr} {n : Addr × α} {ns : List (Addr × α)} :
    Seg h p (n :: ns) q ↔
      p = some n.1 ∧ ∃ next, h n.1 = some ⟨n.2, next⟩ ∧ Seg h next ns q := Iff.rfl

theorem seg_append {h : Heap α} {p r : Option Addr} {ms ns : List (Addr × α)} :
    Seg h p (ms ++ ns) r ↔ ∃ q, Seg h p ms q ∧ Seg h q ns r := by
  induction ms generalizing p with
  | nil => simp
  | cons m ms ih =>
    simp only [List.cons_append, seg_cons, ih]
    constructor
    · rintro ⟨hp, next, hm, q, hms, hns⟩
      exact ⟨q, ⟨hp, next, hm, hms⟩, hns⟩
    · rintro ⟨q, ⟨hp, next, hm, hms⟩, hns⟩
      exact ⟨hp, next, hm, q, hms, hns⟩

theorem Seg.frame {h h' : Heap α} {p q : Option Addr} {ns : List (Addr × α)}
    (hseg : Seg h p ns q) (hagree : ∀ a ∈ addrs ns, h' a = h a) : Seg h' p ns q := by
  induction ns generalizing p with
  | nil => exact hseg
  | cons n ns ih =>
    obtain ⟨hp, next, hn, hrest⟩ := hseg
    refine ⟨hp, next, ?_, ih hrest fun a ha => hagree a (List.mem_cons_of_mem _ ha)⟩
    rw [hagree n.1 List.mem_cons_self, hn]

theorem Seg.store_frame {h : Heap α} {p q : Option Addr} {ns : List (Addr × α)} {a : Addr}
    (hseg : Seg h p ns q) (ha : a ∉ addrs ns) (c : Cell α) : Seg (store h a c) p ns q :=
  hseg.frame fun _ hb => store_of_ne (ne_of_mem_of_not_mem hb ha)

theorem Seg.release_frame {h : Heap α} {p q : Option Addr} {ns : List (Addr × α)} {a : Addr}
    (hseg : Seg h p ns q) (ha : a ∉ addrs ns) : Seg (release h a) p ns q :=
  hseg.frame fun _ hb => release_of_ne (ne_of_mem_of_not_mem hb ha)

theorem Seg.alloc {h : Heap α} {p q : Option Addr} {ns : List (Addr × α)}
    (hseg : Seg h p ns q) {n : Addr × α} (hn : n ∈ ns) : ∃ next, h n.1 = some ⟨n.2, next⟩ := by
  induction ns generalizing p with
  | nil => cases hn
  | cons m ns ih =>
    obtain ⟨_, next, hm, hrest⟩ := hseg
    rcases List.mem_cons.mp hn with rfl | hn
    · exact ⟨next, hm⟩
    · exact ih hrest hn

theorem Seg.notMem_of_free {h : Heap α} {p q : Option Addr} {ns : List (Addr × α)}
    (hseg : Seg h p ns q) {a : Addr} (ha : h a = none) : a ∉ addrs ns := by
  intro hmem
  obtain ⟨n, hn, rfl⟩ := List.mem_map.mp hmem
  obtain ⟨next, hcell⟩ := hseg.alloc hn
  rw [ha] at hcell
  cases hcell

/-- Two null-terminated paths from one pointer are the same path. -/
theorem Seg.functional {h : Heap α} {p : Option Addr} {ms ns : List (Addr × α)}
    (hms : Seg h p ms none) (hns : Seg h p ns none) : ms = ns := by
  induction ms generalizing p ns with
  | nil =>
    cases ns with
    | nil => rfl
    | cons n ns => exact absurd (hms.symm.trans hns.1) (by simp)
  | cons m ms ih =>
    obtain ⟨hp, next, hm, hrest⟩ := hms
    cases ns with
    | nil => exact absurd (hp.symm.trans hns) (by simp)
    | cons n ns =>
      obtain ⟨hp', next', hn, hrest'⟩ := hns
      have haddr : m.1 = n.1 := Option.some.inj (hp.symm.trans hp')
      rw [← haddr, hm] at hn
      obtain ⟨hval, hnext⟩ : m.2 = n.2 ∧ next = next' := by simpa using hn
      subst hnext
      rw [ih hrest hrest', Prod.ext haddr hval]

theorem Seg.nodup {h : Heap α} {p : Option Addr} {ns : List (Addr × α)}
    (hseg : Seg h p ns none) : (addrs ns).Nodup := by
  induction ns generalizing p with
  | nil => exact List.nodup_nil
  | cons n ns ih =>
    obtain ⟨hp, next, hn, hrest⟩ := hseg
    refine List.nodup_cons.mpr ⟨fun hmem => ?_, ih hrest⟩
    -- a second visit would start a proper suffix equal to the whole path
    obtain ⟨m, hm, hsame⟩ := List.mem_map.mp hmem
    obtain ⟨xs, ys, rfl⟩ := List.append_of_mem hm
    obtain ⟨q, _, hsuffix⟩ := seg_append.mp hrest
    have hq : q = some n.1 := hsuffix.1.trans (congrArg some hsame)
    have hwhole : Seg h q (n :: (xs ++ m :: ys)) none := hq ▸ ⟨rfl, next, hn, hrest⟩
    have hlen := congrArg List.length (hsuffix.functional hwhole)
    simp only [List.length_cons, List.length_append] at hlen
    omega

/-- The last cell of a null-terminated path holds the null pointer. -/
theorem Seg.last_next {h : Heap α} {p : Option Addr} {xs ys : List (Addr × α)} {n : Addr × α}
    {next : Option Addr} (hseg : Seg h p (xs ++ n :: ys) none) (hn : h n.1 = some ⟨n.2, next⟩) :
    Seg h next ys none := by
  obtain ⟨q, _, _, next', hn', hys⟩ := seg_append.mp hseg
  rw [hn] at hn'
  obtain rfl : next = next' := by simpa using hn'
  exact hys

theorem Seg.snoc {h : Heap α} {p : Option Addr} {ns : List (Addr × α)} {t n : Addr} {v w : α}
    (hseg : Seg h p (ns ++ [(t, v)]) none) (hn : h n = some ⟨w, none⟩)
    (hfresh : n ∉ addrs (ns ++ [(t, v)])) :
    Seg (store h t ⟨v, some n⟩) p (ns ++ [(t, v)] ++ [(n, w)]) none := by
  have hnodup := hseg.nodup
  simp only [addrs_append, addrs_cons, addrs_nil] at hnodup hfresh
  have hnt : n ≠ t := fun h => hfresh (by simp [h])
  have htns : t ∉ addrs ns := fun hmem =>
    (List.nodup_append.mp hnodup).2.2 t hmem t List.mem_cons_self rfl
  obtain ⟨q, hns, hq, _⟩ := seg_append.mp hseg
  rw [List.append_assoc]
  refine seg_append.mpr ⟨q, hns.store_frame htns _, hq, some n, by simp, rfl, none, ?_, rfl⟩
  rw [store_of_ne hnt, hn]

end LinkedHeap
