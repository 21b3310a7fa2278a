import Naarad.Queue.Steps

/-!
# The shape of the linked queue

`Linked s ns` is the heap invariant between two updates of the list: the nodes `ns` run from
`dq.head` to a null pointer, the first of them is the dummy, and `dq.tail` points at the last or
the second-to-last one. One lemma for each update says how it moves `ns`.
-/

set_option autoImplicit false

namespace Naarad.Queue

open LinkedHeap

structure Linked (s : Dequeue) (ns : List Node) : Prop where
  chain : Seg s.heap s.head ns none
  lag : ∃ xs t ys, ns = xs ++ t :: ys ∧ ys.length ≤ 1 ∧ s.tail = some t.1

namespace Linked
variable {s : Dequeue} {ns : List Node}

theorem ne_nil (h : Linked s ns) : ns ≠ [] := by
  obtain ⟨xs, t, ys, rfl, _, _⟩ := h.lag
  simp

theorem head_cell (h : Linked s ns) : ∃ dummy rest next, ns = dummy :: rest ∧
    s.head = some dummy.1 ∧ s.heap dummy.1 = some ⟨dummy.2, next⟩ ∧ Seg s.heap next rest none := by
  cases hns : ns with
  | nil => exact absurd hns h.ne_nil
  | cons dummy rest =>
    have hchain := h.chain
    rw [hns] at hchain
    obtain ⟨hhead, next, hcell, hrest⟩ := hchain
    exact ⟨dummy, rest, next, rfl, hhead, hcell, hrest⟩

theorem tail_cell (h : Linked s ns) : ∃ xs t ys next, ns = xs ++ t :: ys ∧ ys.length ≤ 1 ∧
    s.tail = some t.1 ∧ s.heap t.1 = some ⟨t.2, next⟩ ∧ Seg s.heap next ys none := by
  obtain ⟨xs, t, ys, rfl, hlen, htail⟩ := h.lag
  obtain ⟨_, _, _, next, hcell, hys⟩ := seg_append.mp h.chain
  exact ⟨xs, t, ys, next, rfl, hlen, htail, hcell, hys⟩

theorem frame {s' : Dequeue} (h : Linked s ns) (hhead : s'.head = s.head) (htail : s'.tail = s.tail)
    (hheap : ∀ a ∈ addrs ns, s'.heap a = s.heap a) : Linked s' ns where
  chain := hhead ▸ h.chain.frame hheap
  lag := htail ▸ h.lag

/-- A tail with a node behind it is the second-to-last one. -/
theorem lagging {tail next : Option Addr} {cell : Cell Message} (h : Linked s ns)
    (htail : tail = s.tail) (hcell : deref s.heap tail = some cell) (hnext : cell.next = next)
    (hne : next ≠ none) : ∃ xs t y, ns = xs ++ [t, y] ∧ next = some y.1 ∧
      s.heap y.1 = some ⟨y.2, none⟩ := by
  obtain ⟨xs, t, ys, next', rfl, hlen, ht, htcell, hys⟩ := h.tail_cell
  rw [htail, ht, deref_some, htcell] at hcell
  obtain rfl := Option.some.inj hcell
  obtain rfl : next' = next := hnext
  cases ys with
  | nil => exact absurd hys hne
  | cons y ys =>
    have hnil : ys = [] := List.length_eq_zero_iff.mp (by simpa using hlen)
    subst hnil
    obtain ⟨hy, last, hycell, hlast⟩ := hys
    obtain rfl : last = none := hlast
    exact ⟨xs, t, y, rfl, hy, hycell⟩

theorem advance_tail {tail next : Option Addr} {cell : Cell Message} (h : Linked s ns)
    (htail : tail = s.tail) (hcell : deref s.heap tail = some cell) (hnext : cell.next = next)
    (hne : next ≠ none) : Linked { s with tail := next } ns := by
  obtain ⟨xs, t, y, rfl, hy, _⟩ := h.lagging htail hcell hnext hne
  exact ⟨h.chain, xs ++ [t], y, [], by simp, Nat.zero_le _, hy⟩

theorem link {t n : Addr} {cell : Cell Message} {m : Message} (h : Linked s ns)
    (htail : s.tail = some t) (ht : s.heap t = some cell) (hlast : cell.next = none)
    (hn : s.heap n = some ⟨m, none⟩) (hfresh : n ∉ addrs ns) :
    Linked { s with heap := store s.heap t { cell with next := some n } } (ns ++ [(n, m)]) := by
  obtain ⟨xs, ⟨t', v⟩, ys, next, rfl, _, ht', htcell, hys⟩ := h.tail_cell
  obtain rfl : t = t' := Option.some.inj (htail.symm.trans ht')
  rw [ht] at htcell
  obtain rfl := Option.some.inj htcell
  obtain rfl : next = none := hlast
  cases ys with
  | cons y ys => exact absurd hys.1 (by simp)
  | nil =>
    refine ⟨h.chain.snoc hn hfresh, ⟨xs, (t, v), [(n, m)], ?_, Nat.le_refl _, htail⟩⟩
    simp

theorem swing {n : Node} (h : Linked s (ns ++ [n])) :
    Linked { s with tail := some n.1 } (ns ++ [n]) :=
  ⟨h.chain, ns, n, [], rfl, Nat.zero_le _, rfl⟩

/-- While the head is not the tail, the node behind the dummy exists and can take its place. -/
theorem successor {dummy : Node} {rest : List Node} {next : Option Addr}
    (h : Linked s (dummy :: rest)) (hcell : s.heap dummy.1 = some ⟨dummy.2, next⟩)
    (hne : s.head ≠ s.tail) : Linked { s with head := next } rest := by
  obtain ⟨hhead, next', hcell', hrest⟩ := h.chain
  rw [hcell] at hcell'
  obtain rfl : next = next' := by simpa using hcell'
  refine ⟨hrest, ?_⟩
  obtain ⟨xs, t, ys, hns, hlen, htail⟩ := h.lag
  cases xs with
  | nil =>
    obtain rfl : dummy = t := (List.cons.inj hns).1
    exact absurd (hhead.trans htail.symm) hne
  | cons x xs => exact ⟨xs, t, ys, (List.cons.inj hns).2, hlen, htail⟩

theorem alone {cell : Cell Message} (h : Linked s ns) (hcell : deref s.heap s.head = some cell)
    (hnone : cell.next = none) : ∃ dummy, ns = [dummy] := by
  obtain ⟨dummy, rest, next, rfl, hhead, hdummy, hrest⟩ := h.head_cell
  rw [hhead, deref_some, hdummy] at hcell
  obtain rfl := Option.some.inj hcell
  obtain rfl : next = none := hnone
  cases rest with
  | nil => exact ⟨dummy, rfl⟩
  | cons r rest => exact absurd hrest.1 (by simp)

end Linked

/-- The queue at rest: `q` are the messages behind the dummy, and the counter counts them. -/
structure Holds (s : Dequeue) (ns : List Node) (q : List Message) : Prop where
  linked : Linked s ns
  messages : vals ns.tail = q
  counted : s.size = q.length

theorem Holds.length {s : Dequeue} {ns : List Node} {q : List Message} (h : Holds s ns q) :
    ns.length = q.length + 1 := by
  have hlen := congrArg List.length h.messages
  have hpos := List.length_pos_iff.mpr h.linked.ne_nil
  simp only [vals_length, List.length_tail] at hlen
  omega

theorem initDequeue_holds {c : Choice} {s : Dequeue} (h : initDequeue c = some s) :
    ∃ dummy, Holds s [dummy] [] := by
  obtain ⟨a, _, rfl⟩ := Option.map_eq_some_iff.mp h
  refine ⟨(a, c.block.val), ⟨⟨⟨rfl, none, ?_, rfl⟩, ⟨[], _, [], rfl, Nat.zero_le _, rfl⟩⟩, rfl, rfl⟩⟩
  simp

end Naarad.Queue
