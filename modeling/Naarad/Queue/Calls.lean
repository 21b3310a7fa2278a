import Naarad.Queue.Shape
import Naarad.Lib.BoundedFifo

/-!
# What holds at each point of a call that runs alone

`PopInv` and `PushInv` say, for every program counter, how the heap relates to the queue the call
started from. `live` are the linked nodes that are not released yet: the list itself and, between
the moving of the head and the `free`, the old dummy in front of it. The step lemmas keep these
invariants and account for `live`: a step appends the node it links and drops the node it frees.
-/

set_option autoImplicit false

namespace Naarad.Queue

open LinkedHeap

/-- The old dummy is unlinked: the head is past it, and only this call still knows its address. -/
structure Unlinked (s : Dequeue) (live : List Node) (q : List Message) (head : Option Addr)
    (msg : Message) (ns : List Node) : Prop where
  live_eq : ∃ v a, head = some a ∧ live = (a, v) :: ns ∧ s.heap a = some ⟨v, s.head⟩
  linked : Linked s ns
  messages : vals ns = q
  first : q.head? = some msg

def PopInv (q : List Message) (s : Dequeue) (live : List Node) : PopPc → Prop
  | .loadHead => Holds s live q
  | .loadTail head => Holds s live q ∧ head = s.head
  | .loadNext head tail => Holds s live q ∧ head = s.head ∧ tail = s.tail
  | .recheck head tail next => Holds s live q ∧ head = s.head ∧ tail = s.tail ∧
      ∃ cell, deref s.heap head = some cell ∧ cell.next = next
  | .help tail next => Holds s live q ∧ tail = s.tail ∧ next ≠ none ∧
      ∃ cell, deref s.heap tail = some cell ∧ cell.next = next
  | .copyMsg head next => Holds s live q ∧ head = s.head ∧ s.head ≠ s.tail ∧
      ∃ cell, deref s.heap head = some cell ∧ cell.next = next
  | .casHead head next msg => Holds s live q ∧ head = s.head ∧ s.head ≠ s.tail ∧
      (∃ cell, deref s.heap head = some cell ∧ cell.next = next) ∧ q.head? = some msg
  | .fetchSub head msg => ∃ ns, Unlinked s live q head msg ns ∧ s.size = q.length
  | .free head msg => ∃ ns, Unlinked s live q head msg ns ∧ s.size = q.length - 1
  | .done ret => Holds s live (BoundedFifo.pop q).1 ∧ ret = (BoundedFifo.pop q).2
  | .crash => False

def Private (s : Dequeue) (live : List Node) (n : Addr) (cell : Cell Message) : Prop :=
  s.heap n = some cell ∧ n ∉ addrs live

def PushInv (q : List Message) (msg : Message) (s : Dequeue) (live : List Node) : PushPc → Prop
  | .malloc m => Holds s live q ∧ m = msg
  | .setMsg m n => Holds s live q ∧ m = msg ∧ ∃ cell, Private s live n cell
  | .setNext n => Holds s live q ∧ ∃ cell, Private s live n cell ∧ cell.val = msg
  | .loadTail n => Holds s live q ∧ Private s live n ⟨msg, none⟩
  | .loadNext n tail => Holds s live q ∧ Private s live n ⟨msg, none⟩ ∧ tail = s.tail
  | .recheck n tail next => Holds s live q ∧ Private s live n ⟨msg, none⟩ ∧ tail = s.tail ∧
      ∃ cell, deref s.heap tail = some cell ∧ cell.next = next
  | .casNext n tail => Holds s live q ∧ Private s live n ⟨msg, none⟩ ∧ tail = s.tail ∧
      ∃ cell, deref s.heap tail = some cell ∧ cell.next = none
  | .help n tail next => Holds s live q ∧ Private s live n ⟨msg, none⟩ ∧ tail = s.tail ∧
      next ≠ none ∧ ∃ cell, deref s.heap tail = some cell ∧ cell.next = next
  | .swing n tail => Linked s live ∧ tail = s.tail ∧ s.size = q.length ∧
      vals live.tail = q ++ [msg] ∧ ∃ ns, live = ns ++ [(n, msg)]
  | .fetchAdd => Linked s live ∧ s.size = q.length ∧ vals live.tail = q ++ [msg]
  | .evict pop => MAX_ENTRIES ≤ q.length ∧ (∀ r, pop ≠ .done r) ∧ PopInv (q ++ [msg]) s live pop
  | .done true => Holds s live
      (if MAX_ENTRIES ≤ q.length then (q ++ [msg]).tail else q ++ [msg])
  | .done false => Holds s live q
  | .crash => False

theorem Holds.retail {s : Dequeue} {ns : List Node} {q : List Message} {tail next : Option Addr}
    {cell : Cell Message} (h : Holds s ns q) (htail : tail = s.tail)
    (hcell : deref s.heap tail = some cell) (hnext : cell.next = next) (hne : next ≠ none) :
    Holds { s with tail := next } ns q :=
  ⟨h.linked.advance_tail htail hcell hnext hne, h.messages, h.counted⟩

/-- The exchange on the head unlinks the old dummy and makes the oldest message's node the new
dummy. -/
theorem Holds.unlink {s : Dequeue} {live : List Node} {q : List Message} {head next : Option Addr}
    {cell : Cell Message} {msg : Message} (h : Holds s live q) (hhead : head = s.head)
    (hne : s.head ≠ s.tail) (hcell : deref s.heap head = some cell) (hnext : cell.next = next)
    (hfirst : q.head? = some msg) :
    ∃ ns, Unlinked { s with head := next } live q head msg ns := by
  obtain ⟨dummy, rest, next', rfl, hs, hdummy, _⟩ := h.linked.head_cell
  rw [hhead, hs, deref_some, hdummy] at hcell
  obtain rfl := Option.some.inj hcell
  obtain rfl : next' = next := hnext
  exact ⟨rest, ⟨dummy.2, dummy.1, hhead.trans hs, rfl, hdummy⟩,
    h.linked.successor hdummy hne, h.messages, hfirst⟩

theorem Holds.oldest {s : Dequeue} {live : List Node} {q : List Message} {head next : Option Addr}
    {cell : Cell Message} (h : Holds s live q) (hhead : head = s.head) (hne : s.head ≠ s.tail)
    (hcell : deref s.heap head = some cell) (hnext : cell.next = next) :
    ∃ cell', deref s.heap next = some cell' ∧ q.head? = some cell'.val := by
  obtain ⟨dummy, rest, next', rfl, hs, hdummy, _⟩ := h.linked.head_cell
  rw [hhead, hs, deref_some, hdummy] at hcell
  obtain rfl := Option.some.inj hcell
  obtain rfl : next' = next := hnext
  obtain ⟨front, rest', next'', rfl, hfront, hcell', _⟩ := (h.linked.successor hdummy hne).head_cell
  refine ⟨⟨front.2, next''⟩, ?_, ?_⟩
  · rw [show next' = some front.1 from hfront, deref_some, hcell']
  · rw [← h.messages]
    rfl

theorem Unlinked.released {s : Dequeue} {live ns : List Node} {q : List Message} {a : Addr}
    {msg : Message} (h : Unlinked s live q (some a) msg ns) (hsize : s.size = q.length - 1) :
    Holds { s with heap := release s.heap a } ns (BoundedFifo.pop q).1 ∧
      some msg = (BoundedFifo.pop q).2 := by
  obtain ⟨v, a', ha, _, hcell⟩ := h.live_eq
  obtain rfl := Option.some.inj ha
  have hlive : Seg s.heap (some a) ((a, v) :: ns) none := ⟨rfl, s.head, hcell, h.linked.chain⟩
  have hout : a ∉ addrs ns := (List.nodup_cons.mp hlive.nodup).1
  have hlinked : Linked { s with heap := release s.heap a } ns :=
    h.linked.frame rfl rfl fun b hb => release_of_ne (ne_of_mem_of_not_mem hb hout)
  have hfirst := h.first
  have hvals := h.messages
  cases q with
  | nil => cases hfirst
  | cons m q =>
    refine ⟨⟨hlinked, ?_, ?_⟩, hfirst.symm⟩
    · cases ns with
      | nil => cases hvals
      | cons n ns => exact (List.cons.inj hvals).2
    · simp only [List.length_cons] at hsize
      simp only [hsize, BoundedFifo.pop]
      omega

theorem PopInv.step {q : List Message} {s s' : Dequeue} {live : List Node} {pc pc' : PopPc}
    {c : Choice} (h : PopInv q s live pc) (hstep : pc.step c s = some (s', pc')) :
    ∃ freed live', live = freed ++ live' ∧ addrs freed = pc.releases s ∧
      PopInv q s' live' pc' := by
  cases pc with
  | loadHead =>
    obtain ⟨rfl, rfl⟩ : s = s' ∧ _ = pc' := by simpa [PopPc.step] using hstep
    exact ⟨[], live, rfl, rfl, h, rfl⟩
  | loadTail head =>
    obtain ⟨rfl, rfl⟩ : s = s' ∧ _ = pc' := by simpa [PopPc.step] using hstep
    exact ⟨[], live, rfl, rfl, h.1, h.2, rfl⟩
  | loadNext head tail =>
    obtain ⟨hq, hhead, htail⟩ := h
    obtain ⟨dummy, _, next, _, hs, hdummy, _⟩ := hq.linked.head_cell
    have hcell : deref s.heap head = some ⟨dummy.2, next⟩ := by rw [hhead, hs, deref_some, hdummy]
    obtain ⟨rfl, rfl⟩ : s = s' ∧ _ = pc' := by simpa [PopPc.step, hcell] using hstep
    exact ⟨[], live, rfl, rfl, hq, hhead, htail, _, hcell, rfl⟩
  | recheck head tail next =>
    obtain ⟨hq, hhead, htail, cell, hcell, hnext⟩ := h
    simp only [PopPc.step, if_pos hhead] at hstep
    split at hstep
    · rename_i hsame
      split at hstep
      · -- the dummy is the tail and nothing is behind it: the queue is empty
        rename_i hnone
        obtain ⟨rfl, rfl⟩ : s = s' ∧ _ = pc' := by simpa using hstep
        obtain ⟨dummy, rfl⟩ := hq.linked.alone (hhead ▸ hcell) (hnext.trans hnone)
        obtain rfl : [] = q := hq.messages
        exact ⟨[], [dummy], rfl, rfl, hq, rfl⟩
      · rename_i hsome
        obtain ⟨rfl, rfl⟩ : s = s' ∧ _ = pc' := by simpa using hstep
        exact ⟨[], live, rfl, rfl, hq, htail, hsome, cell, hsame ▸ hcell, hnext⟩
    · rename_i hdiff
      obtain ⟨rfl, rfl⟩ : s = s' ∧ _ = pc' := by simpa using hstep
      exact ⟨[], live, rfl, rfl, hq, hhead, hhead ▸ htail ▸ hdiff, cell, hcell, hnext⟩
  | help tail next =>
    obtain ⟨hq, htail, hne, cell, hcell, hnext⟩ := h
    simp only [PopPc.step] at hstep
    split at hstep
    · obtain ⟨rfl, rfl⟩ : _ = s' ∧ _ = pc' := by simpa using hstep
      exact ⟨[], live, rfl, rfl, hq.retail htail hcell hnext hne⟩
    · obtain ⟨rfl, rfl⟩ : s = s' ∧ _ = pc' := by simpa using hstep
      exact ⟨[], live, rfl, rfl, hq⟩
  | copyMsg head next =>
    obtain ⟨hq, hhead, hne, cell, hcell, hnext⟩ := h
    obtain ⟨cell', hcell', hfirst⟩ := hq.oldest hhead hne hcell hnext
    obtain ⟨rfl, rfl⟩ : s = s' ∧ _ = pc' := by simpa [PopPc.step, hcell'] using hstep
    exact ⟨[], live, rfl, rfl, hq, hhead, hne, ⟨cell, hcell, hnext⟩, hfirst⟩
  | casHead head next msg =>
    obtain ⟨hq, hhead, hne, ⟨cell, hcell, hnext⟩, hfirst⟩ := h
    simp only [PopPc.step] at hstep
    split at hstep
    · obtain ⟨rfl, rfl⟩ : _ = s' ∧ _ = pc' := by simpa using hstep
      obtain ⟨ns, hns⟩ := hq.unlink hhead hne hcell hnext hfirst
      exact ⟨[], live, rfl, rfl, ns, hns, hq.counted⟩
    · obtain ⟨rfl, rfl⟩ : s = s' ∧ _ = pc' := by simpa using hstep
      exact ⟨[], live, rfl, rfl, hq⟩
  | fetchSub head msg =>
    obtain ⟨ns, hns, hsize⟩ := h
    obtain ⟨rfl, rfl⟩ : _ = s' ∧ _ = pc' := by simpa [PopPc.step] using hstep
    refine ⟨[], live, rfl, rfl, ns, ⟨hns.live_eq, ?_, hns.messages, hns.first⟩, ?_⟩
    · exact hns.linked.frame rfl rfl fun _ _ => rfl
    · exact congrArg (· - 1) hsize
  | free head msg =>
    obtain ⟨ns, hns, hsize⟩ := h
    obtain ⟨v, a, rfl, rfl, hcell⟩ := hns.live_eq
    obtain ⟨rfl, rfl⟩ : _ = s' ∧ _ = pc' := by simpa [PopPc.step, hcell] using hstep
    exact ⟨[(a, v)], ns, rfl, by simp [PopPc.releases, hcell], hns.released hsize⟩
  | done ret => cases hstep
  | crash => cases h

theorem Holds.store_frame {s : Dequeue} {ns : List Node} {q : List Message} {n : Addr}
    (h : Holds s ns q) (hn : n ∉ addrs ns) (cell : Cell Message) :
    Holds { s with heap := store s.heap n cell } ns q :=
  ⟨h.linked.frame rfl rfl fun _ hb => store_of_ne (ne_of_mem_of_not_mem hb hn), h.messages,
    h.counted⟩

theorem Holds.link {s : Dequeue} {live : List Node} {q : List Message} {n t : Addr}
    {cell : Cell Message} {msg : Message} (h : Holds s live q)
    (hn : Private s live n ⟨msg, none⟩) (htail : some t = s.tail)
    (hcell : s.heap t = some cell) (hlast : cell.next = none) :
    Linked { s with heap := store s.heap t { cell with next := some n } } (live ++ [(n, msg)]) ∧
      vals (live ++ [(n, msg)]).tail = q ++ [msg] := by
  refine ⟨h.linked.link htail.symm hcell hlast hn.1 hn.2, ?_⟩
  rw [List.tail_append_of_ne_nil h.linked.ne_nil, vals_append, h.messages]
  rfl

theorem PushInv.step {q : List Message} {msg : Message} {s s' : Dequeue} {live : List Node}
    {pc pc' : PushPc} {c : Choice} (h : PushInv q msg s live pc)
    (hstep : pc.step c s = some (s', pc')) :
    ∃ freed live', live ++ pc.links c s = freed ++ live' ∧ addrs freed = pc.releases s ∧
      PushInv q msg s' live' pc' := by
  have same : ∀ {pc''}, PushInv q msg s' live pc'' → ∃ freed live',
      live ++ [] = freed ++ live' ∧ addrs freed = [] ∧ PushInv q msg s' live' pc'' :=
    fun h' => ⟨[], live, by simp, rfl, h'⟩
  cases pc with
  | malloc m =>
    obtain ⟨hq, rfl⟩ := h
    simp only [PushPc.step] at hstep
    split at hstep
    · obtain ⟨rfl, rfl⟩ : s = s' ∧ _ = pc' := by simpa using hstep
      exact same hq
    · rename_i n _
      split at hstep
      · rename_i hfree
        obtain ⟨rfl, rfl⟩ : _ = s' ∧ _ = pc' := by simpa using hstep
        have hout := hq.linked.chain.notMem_of_free hfree
        exact same ⟨hq.store_frame hout _, rfl, c.block, store_self .., hout⟩
      · cases hstep
  | setMsg m n =>
    obtain ⟨hq, rfl, cell, hcell, hout⟩ := h
    obtain ⟨rfl, rfl⟩ : _ = s' ∧ _ = pc' := by simpa [PushPc.step, hcell] using hstep
    exact same ⟨hq.store_frame hout _, { cell with val := m }, ⟨store_self .., hout⟩, rfl⟩
  | setNext n =>
    obtain ⟨hq, cell, ⟨hcell, hout⟩, rfl⟩ := h
    obtain ⟨rfl, rfl⟩ : _ = s' ∧ _ = pc' := by simpa [PushPc.step, hcell] using hstep
    exact same ⟨hq.store_frame hout _, store_self .., hout⟩
  | loadTail n =>
    obtain ⟨hq, hn⟩ := h
    obtain ⟨rfl, rfl⟩ : s = s' ∧ _ = pc' := by simpa [PushPc.step] using hstep
    exact same ⟨hq, hn, rfl⟩
  | loadNext n tail =>
    obtain ⟨hq, hn, rfl⟩ := h
    obtain ⟨_, t, _, next, _, _, ht, hcell, _⟩ := hq.linked.tail_cell
    have hcell' : deref s.heap s.tail = some ⟨t.2, next⟩ := by rw [ht, deref_some, hcell]
    obtain ⟨rfl, rfl⟩ : s = s' ∧ _ = pc' := by simpa [PushPc.step, hcell'] using hstep
    exact same ⟨hq, hn, rfl, _, hcell', rfl⟩
  | recheck n tail next =>
    obtain ⟨hq, hn, htail, cell, hcell, hnext⟩ := h
    simp only [PushPc.step, if_pos htail] at hstep
    split at hstep
    · rename_i hnone
      obtain ⟨rfl, rfl⟩ : s = s' ∧ _ = pc' := by simpa using hstep
      exact same ⟨hq, hn, htail, cell, hcell, hnext.trans hnone⟩
    · rename_i hsome
      obtain ⟨rfl, rfl⟩ : s = s' ∧ _ = pc' := by simpa using hstep
      exact same ⟨hq, hn, htail, hsome, cell, hcell, hnext⟩
  | casNext n tail =>
    obtain ⟨hq, hn, htail, cell, hcell, hlast⟩ := h
    cases tail with
    | none => cases hcell
    | some t =>
      have ht : s.heap t = some cell := hcell
      simp only [PushPc.step, ht] at hstep
      split at hstep
      · -- the node is linked; the tail now lags by one
        rename_i hex
        obtain ⟨rfl, rfl⟩ : _ = s' ∧ _ = pc' := by simpa using hstep
        obtain ⟨hlinked, hvals⟩ := hq.link hn htail ht hlast
        have hlinks : PushPc.links c s (.casNext n (some t)) = [(n, msg)] := by
          simp [PushPc.links, ht, hn.1, hex]
        exact ⟨[], live ++ [(n, msg)], by rw [hlinks, List.nil_append], rfl,
          hlinked, htail, hq.counted, hvals, live, rfl⟩
      · rename_i hex
        obtain ⟨rfl, rfl⟩ : s = s' ∧ _ = pc' := by simpa using hstep
        have hlinks : PushPc.links c s (.casNext n (some t)) = [] := by
          simp [PushPc.links, ht, hn.1, hex]
        rw [hlinks]
        exact same ⟨hq, hn⟩
  | help n tail next =>
    obtain ⟨hq, hn, htail, hne, cell, hcell, hnext⟩ := h
    simp only [PushPc.step] at hstep
    split at hstep
    · obtain ⟨rfl, rfl⟩ : _ = s' ∧ _ = pc' := by simpa using hstep
      exact same ⟨hq.retail htail hcell hnext hne, hn⟩
    · obtain ⟨rfl, rfl⟩ : s = s' ∧ _ = pc' := by simpa using hstep
      exact same ⟨hq, hn⟩
  | swing n tail =>
    obtain ⟨hlinked, _, hsize, hvals, ns, rfl⟩ := h
    simp only [PushPc.step] at hstep
    split at hstep
    · obtain ⟨rfl, rfl⟩ : _ = s' ∧ _ = pc' := by simpa using hstep
      exact same ⟨hlinked.swing, hsize, hvals⟩
    · obtain ⟨rfl, rfl⟩ : s = s' ∧ _ = pc' := by simpa using hstep
      exact same ⟨hlinked, hsize, hvals⟩
  | fetchAdd =>
    obtain ⟨hlinked, hsize, hvals⟩ := h
    have hq : Holds { s with size := s.size + 1 } live (q ++ [msg]) :=
      ⟨hlinked.frame rfl rfl fun _ _ => rfl, hvals, by simp [hsize]⟩
    obtain ⟨rfl, rfl⟩ : _ = s' ∧ _ = pc' := by simpa [PushPc.step] using hstep
    by_cases hfull : MAX_ENTRIES ≤ q.length
    · rw [if_pos (by omega)]
      exact same ⟨hfull, fun r => by simp, hq⟩
    · rw [if_neg (by omega)]
      refine same ?_
      simpa only [PushInv, if_neg hfull] using hq
  | evict pop =>
    obtain ⟨hfull, _, hpop⟩ := h
    simp only [PushPc.step] at hstep
    cases hp : pop.step c s with
    | none => simp [hp] at hstep
    | some r =>
      obtain ⟨t, pop'⟩ := r
      obtain ⟨freed, live', hlive, hfreed, hpop'⟩ := hpop.step hp
      refine ⟨freed, live', by simpa [PushPc.links] using hlive, hfreed, ?_⟩
      cases pop' with
      | done ret =>
        obtain ⟨rfl, rfl⟩ : t = s' ∧ _ = pc' := by simpa [hp] using hstep
        have hpopped : (BoundedFifo.pop (q ++ [msg])).1 = (q ++ [msg]).tail := by
          cases q <;> rfl
        simpa only [PushInv, if_pos hfull, hpopped] using hpop'.1
      | crash => cases hpop'
      | _ =>
        obtain ⟨rfl, rfl⟩ : t = s' ∧ _ = pc' := by simpa [hp] using hstep
        exact ⟨hfull, fun r => by simp, hpop'⟩
  | done ret => cases hstep
  | crash => cases h

end Naarad.Queue
