import Naarad.Queue.Locals

/-!
# The steps of a call

One lemma for `popFront` and one for `pushRear`: from locals that are right, the next step does not
crash, is one of the acts, and leaves locals that are right.
-/

set_option autoImplicit false

namespace Naarad.Queue

open LinkedHeap

/-- A pop that has found the null pointer behind the dummy. -/
def PopPc.foundNone : PopPc → Bool
  | .recheck _ _ none => true
  | .done none => true
  | _ => false

def Shared.view (m : Shared) (log : List Node) (hd tl : Nat) : View :=
  ⟨m.dq.heap, m.dq.head, m.dq.tail, m.freed, log, hd, tl⟩

/-- A step of a call from view `v` to `w`, which expects `es` and then `es'`. -/
structure Moves (v w : View) (o o' : Own) (es es' : List Addr) (delivered : List Message) :
    Prop where
  act : Act v o o' w
  expects : ∀ a ∈ es', a ∈ es ∨ ∃ k, v.hd ≤ k ∧ (addrs v.log)[k]? = some a
  delivers : (vals w.log.tail).take w.hd = (vals v.log.tail).take v.hd ++ delivered

theorem exchanges_eq_true {c : Choice} {p q : Option Addr} (h : exchanges c p q = true) :
    p = q := by
  simp only [exchanges, Bool.and_eq_true, decide_eq_true_eq] at h
  exact h.2

namespace View
variable {v : View} {k j : Nat} {p q : Option Addr}

theorem At.addr (h : v.At k p) : (addrs v.log)[k]? = p := by
  obtain ⟨a, rfl, hs⟩ := h
  exact hs.addr

theorem At.unique (hk : v.At k p) (hj : v.At j p) : k = j := by
  obtain ⟨a, rfl, hs⟩ := hk
  obtain ⟨b, hb, hs'⟩ := hj
  obtain rfl := Option.some.inj hb
  exact hs.unique hs'

theorem At.next {cell : Cell Message} (h : v.At k p) (hcell : deref v.heap p = some cell) :
    cell.next = (addrs v.log)[k + 1]? := by
  obtain ⟨a, rfl, hs⟩ := h
  obtain ⟨u, _, ha⟩ := hs.cell
  rw [deref_some, ha] at hcell
  exact (Option.some.inj hcell) ▸ rfl

/-- Behind a null pointer there is no further entry. -/
theorem At.length_le {cell : Cell Message} (h : v.At k p) (hcell : deref v.heap p = some cell)
    (hnone : cell.next = none) : v.log.length ≤ k + 1 := by
  have hnext := h.next hcell
  rw [hnone] at hnext
  have hlen := List.getElem?_eq_none_iff.mp hnext.symm
  rwa [addrs_length] at hlen

theorem At.deref_ne_none (h : v.At k p) : deref v.heap p ≠ none := by
  obtain ⟨a, rfl, hs⟩ := h
  rw [deref_some]
  exact Option.ne_none_iff_isSome.mpr hs.isSome

end View

namespace Listed
variable {v : View} (h : Listed v)
include h

theorem at_head : v.At v.hd v.head := by
  obtain ⟨a, hhead, ha⟩ := h.head_some
  exact ⟨a, hhead, h.stands v.hd a (Nat.le_refl _) ha⟩

theorem at_tail : v.At v.tl v.tail := by
  obtain ⟨a, htail, ha⟩ := h.tail_some
  exact ⟨a, htail, h.stands v.tl a h.hd_le ha⟩

theorem head_listed {a : Addr} (ha : a ∈ v.head.toList) :
    ∃ k, v.hd ≤ k ∧ (addrs v.log)[k]? = some a :=
  ⟨v.hd, Nat.le_refl _, h.head ▸ Option.mem_toList.mp ha⟩

theorem tail_listed {a : Addr} (ha : a ∈ v.tail.toList) :
    ∃ k, v.hd ≤ k ∧ (addrs v.log)[k]? = some a :=
  ⟨v.tl, h.hd_le, h.tail ▸ Option.mem_toList.mp ha⟩

/-- A compare-exchange on `dq.tail` that succeeds moves it to the next entry. -/
theorem advance {j : Nat} {p q : Option Addr} (hp : v.At j p) (hsame : v.tail = p)
    (hq : v.Next j q) : v.tl + 1 < v.log.length ∧ q = (addrs v.log)[v.tl + 1]? := by
  obtain rfl : j = v.tl := hp.unique (hsame ▸ h.at_tail)
  obtain ⟨a, rfl, ha⟩ := hq
  have hlt := (List.getElem?_eq_some_iff.mp ha).1
  rw [addrs_length] at hlt
  exact ⟨hlt, ha.symm⟩

end Listed

/-- The message behind the dummy is the next one to be taken off. -/
theorem take_delivers {log : List Node} {hd : Nat} {msg : Message}
    (hmsg : (vals log)[hd + 1]? = some msg) :
    (vals log.tail).take (hd + 1) = (vals log.tail).take hd ++ [msg] := by
  have htail : (vals log.tail)[hd]? = some msg := by
    rw [vals, List.map_tail, List.getElem?_tail]
    exact hmsg
  rw [List.take_add_one, htail]
  rfl

/-- A step that only changes the call's own locals. -/
theorem Moves.stay {v : View} {o : Own} {es es' : List Addr}
    (hexpects : ∀ a ∈ es', a ∈ es ∨ ∃ k, v.hd ≤ k ∧ (addrs v.log)[k]? = some a) :
    Moves v v o o es es' [] :=
  ⟨.stay o, hexpects, (List.append_nil _).symm⟩

section Pop
variable {c : Choice} {m m' : Shared} {log : List Node} {hd tl : Nat} {pc pc' : PopPc}

theorem PopOk.step (hl : Listed (m.view log hd tl)) (h : PopOk (m.view log hd tl) pc)
    (hoff : ∀ a, pc.own.Has a → Off (m.view log hd tl) a)
    (hstep : pc.share c m = some (m', pc')) :
    ∃ tl', Moves (m.view log hd tl) (m'.view log (hd + (pc.delivers c m.dq).length) tl')
        pc.own pc'.own pc.expects pc'.expects (pc.delivers c m.dq) ∧
      PopOk (m'.view log (hd + (pc.delivers c m.dq).length) tl') pc' := by
  cases pc with
  | loadHead =>
    obtain ⟨rfl, rfl⟩ := Prod.mk.inj (Option.some.inj hstep)
    exact ⟨tl, .stay fun a ha => Or.inr (hl.head_listed ha), hd, Nat.le_refl _, hl.at_head⟩
  | loadTail head =>
    obtain ⟨rfl, rfl⟩ := Prod.mk.inj (Option.some.inj hstep)
    obtain ⟨k, hk, hhead⟩ := h
    refine ⟨tl, .stay fun a ha => ?_, k, hk, tl, Nat.le_refl _, Nat.le_trans hk hl.hd_le, hhead,
      hl.at_tail⟩
    exact (List.mem_append.mp ha).imp_right hl.tail_listed
  | loadNext head tail =>
    obtain ⟨k, hk, j, hj, hkj, hhead, htail⟩ := h
    simp only [PopPc.share, PopPc.step] at hstep
    cases hcell : deref m.dq.heap head with
    | none => exact absurd hcell hhead.deref_ne_none
    | some cell =>
      rw [hcell] at hstep
      obtain ⟨rfl, rfl⟩ := Prod.mk.inj (Option.some.inj hstep)
      refine ⟨tl, .stay fun a ha => Or.inl ha, k, hk, j, hj, hkj, hhead, htail, ?_⟩
      cases hn : cell.next with
      | some a => exact Or.inr ⟨a, rfl, hhead.next hcell ▸ hn⟩
      | none =>
        -- the tail was loaded behind the head, so it is not in front of the last node
        have hlen : log.length ≤ k + 1 := hhead.length_le hcell hn
        have hlt : tl < log.length := hl.tl_lt
        have hjt : j ≤ tl := hj
        exact Or.inl ⟨rfl, by omega⟩
  | recheck head tail next =>
    obtain ⟨k, hk, j, hj, hkj, hhead, htail, hnext⟩ := h
    simp only [PopPc.share, PopPc.step] at hstep
    split at hstep
    · rename_i hsame
      have hkhd : k = hd := hhead.unique (hsame ▸ hl.at_head)
      split at hstep
      · rename_i heq
        have hkj : k = j := hhead.unique (heq ▸ htail)
        split at hstep
        · obtain ⟨rfl, rfl⟩ := Prod.mk.inj (Option.some.inj hstep)
          exact ⟨tl, .stay nofun, trivial⟩
        · rename_i hne
          obtain ⟨rfl, rfl⟩ := Prod.mk.inj (Option.some.inj hstep)
          refine ⟨tl, .stay fun a ha => Or.inl (List.mem_append_right _ ha), j, hj, htail, ?_⟩
          rw [← hkj]
          exact hnext.resolve_left fun hn => hne hn.1
      · rename_i hne
        obtain ⟨rfl, rfl⟩ := Prod.mk.inj (Option.some.inj hstep)
        have hkj' : k ≠ j := by
          rintro rfl
          exact hne (hhead.addr.symm.trans htail.addr)
        exact ⟨tl, .stay fun a ha => Or.inl (List.mem_append_left _ ha), k, hk,
          Nat.lt_of_lt_of_le (Nat.lt_of_le_of_ne hkj hkj') hj, hhead,
          hnext.resolve_left fun hn => hkj' hn.2⟩
    · obtain ⟨rfl, rfl⟩ := Prod.mk.inj (Option.some.inj hstep)
      exact ⟨tl, .stay nofun, trivial⟩
  | help tail next =>
    obtain ⟨j, hj, htail, hnext⟩ := h
    simp only [PopPc.share, PopPc.step] at hstep
    split at hstep
    · rename_i hex
      obtain ⟨rfl, rfl⟩ := Prod.mk.inj (Option.some.inj hstep)
      obtain ⟨hlt, hnext⟩ := hl.advance htail (exchanges_eq_true hex) hnext
      exact ⟨tl + 1, ⟨.tail .none hlt hnext, nofun, (List.append_nil _).symm⟩, trivial⟩
    · obtain ⟨rfl, rfl⟩ := Prod.mk.inj (Option.some.inj hstep)
      exact ⟨tl, .stay nofun, trivial⟩
  | copyMsg head next =>
    obtain ⟨k, hk, hkt, hhead, a, rfl, ha⟩ := h
    simp only [PopPc.share, PopPc.step, deref_some] at hstep
    cases hcell : m.dq.heap a with
    | none =>
      have hsome := hl.known a (List.mem_of_getElem? ha)
      simp only [Shared.view, hcell] at hsome
      cases hsome
    | some cell =>
      rw [hcell] at hstep
      obtain ⟨rfl, rfl⟩ := Prod.mk.inj (Option.some.inj hstep)
      refine ⟨tl, .stay fun b hb => Or.inl hb, k, hk, hkt, hhead, ⟨a, rfl, ha⟩, ?_⟩
      intro hkhd
      have hhd : hd ≤ k + 1 := Nat.le_succ_of_le (Nat.le_of_eq hkhd.symm)
      obtain ⟨u, hu, hcell'⟩ := (hl.stands (k + 1) a hhd ha).cell
      have hval : cell.val = u := congrArg Cell.val (Option.some.inj (hcell.symm.trans hcell'))
      rw [vals, List.getElem?_map, hval]
      exact congrArg (Option.map Prod.snd) hu
  | casHead head next msg =>
    obtain ⟨k, hk, hkt, hhead, ⟨a, rfl, ha⟩, hmsg⟩ := h
    simp only [PopPc.share, PopPc.step] at hstep
    split at hstep
    · rename_i hex
      obtain ⟨rfl, rfl⟩ := Prod.mk.inj (Option.some.inj hstep)
      have hsame := exchanges_eq_true hex
      obtain rfl : k = hd := hhead.unique (hsame ▸ hl.at_head)
      simp only [PopPc.delivers, hex, if_true]
      refine ⟨tl, ⟨?_, nofun, take_delivers (hmsg rfl)⟩, trivial⟩
      have hact : Act (m.view log k tl) .none ⟨none, m.dq.head⟩ _ := .head hkt ha.symm
      rw [hsame] at hact
      exact hact
    · rename_i hex
      obtain ⟨rfl, rfl⟩ := Prod.mk.inj (Option.some.inj hstep)
      rw [PopPc.delivers, if_neg hex]
      exact ⟨tl, .stay nofun, trivial⟩
  | fetchSub head msg =>
    obtain ⟨rfl, rfl⟩ := Prod.mk.inj (Option.some.inj hstep)
    exact ⟨tl, .stay nofun, trivial⟩
  | free head msg =>
    cases head with
    | none =>
      obtain ⟨rfl, rfl⟩ := Prod.mk.inj (Option.some.inj hstep)
      exact ⟨tl, .stay nofun, trivial⟩
    | some a =>
      have hfreed : a ∉ m.freed := (hoff a (Or.inr rfl)).unfreed
      simp only [PopPc.share] at hstep
      rw [if_neg hfreed] at hstep
      obtain ⟨rfl, rfl⟩ := Prod.mk.inj (Option.some.inj hstep)
      exact ⟨tl, ⟨.free a, nofun, (List.append_nil _).symm⟩, trivial⟩
  | done ret => cases hstep
  | crash => cases h

/-- Reading a null pointer behind the head, the pop has seen a list without a message. -/
theorem PopOk.looks (hl : Listed (m.view log hd tl)) (h : PopOk (m.view log hd tl) pc)
    (hstep : pc.share c m = some (m', pc')) {drained sawEmpty : Bool}
    (hdrained : log.length = hd + 1 → drained = true)
    (hsaw : pc.foundNone = true → sawEmpty = true) (hfound : pc'.foundNone = true) :
    pc.looks drained sawEmpty = true := by
  cases pc with
  | loadNext head tail =>
    obtain ⟨k, hk, j, hj, hkj, hhead, htail⟩ := h
    simp only [PopPc.share, PopPc.step] at hstep
    cases hcell : deref m.dq.heap head with
    | none => exact absurd hcell hhead.deref_ne_none
    | some cell =>
      rw [hcell] at hstep
      obtain ⟨rfl, rfl⟩ := Prod.mk.inj (Option.some.inj hstep)
      cases hn : cell.next with
      | some a =>
        rw [hn] at hfound
        cases hfound
      | none =>
        have hlen : log.length ≤ k + 1 := hhead.length_le hcell hn
        have hlt : hd < log.length := hl.hd_lt
        have hkhd : k ≤ hd := hk
        exact hdrained (by omega)
  | recheck head tail next =>
    apply hsaw
    simp only [PopPc.share, PopPc.step] at hstep
    split at hstep
    · split at hstep
      · split at hstep
        · rename_i hnone
          rw [hnone]
          rfl
        · obtain ⟨rfl, rfl⟩ := Prod.mk.inj (Option.some.inj hstep)
          cases hfound
      · obtain ⟨rfl, rfl⟩ := Prod.mk.inj (Option.some.inj hstep)
        cases hfound
    · obtain ⟨rfl, rfl⟩ := Prod.mk.inj (Option.some.inj hstep)
      cases hfound
  | loadHead =>
    obtain ⟨rfl, rfl⟩ := Prod.mk.inj (Option.some.inj hstep)
    cases hfound
  | loadTail head =>
    obtain ⟨rfl, rfl⟩ := Prod.mk.inj (Option.some.inj hstep)
    cases hfound
  | help tail next =>
    simp only [PopPc.share, PopPc.step] at hstep
    split at hstep <;> obtain ⟨rfl, rfl⟩ := Prod.mk.inj (Option.some.inj hstep) <;> cases hfound
  | copyMsg head next =>
    simp only [PopPc.share, PopPc.step] at hstep
    split at hstep <;> obtain ⟨rfl, rfl⟩ := Prod.mk.inj (Option.some.inj hstep) <;> cases hfound
  | casHead head next msg =>
    simp only [PopPc.share, PopPc.step] at hstep
    split at hstep <;> obtain ⟨rfl, rfl⟩ := Prod.mk.inj (Option.some.inj hstep) <;> cases hfound
  | fetchSub head msg =>
    obtain ⟨rfl, rfl⟩ := Prod.mk.inj (Option.some.inj hstep)
    cases hfound
  | free head msg =>
    cases head with
    | none =>
      obtain ⟨rfl, rfl⟩ := Prod.mk.inj (Option.some.inj hstep)
      cases hfound
    | some a =>
      simp only [PopPc.share] at hstep
      split at hstep <;> obtain ⟨rfl, rfl⟩ := Prod.mk.inj (Option.some.inj hstep) <;> cases hfound
  | done ret => cases hstep
  | crash => cases h

end Pop

section Push
variable {c : Choice} {m m' : Shared} {log : List Node} {hd tl : Nat}

/-- The compare-exchange of `pushRear` on `tail->next` succeeds at the last node only. -/
theorem link_step {n t : Addr} {j : Nat} {msg : Message} {cell : Cell Message}
    (hl : Listed (m.view log hd tl)) (hn : (m.view log hd tl).Ready msg n)
    (hoff : Off (m.view log hd tl) n) (hj : j ≤ tl) (ht : Stands m.dq.heap log j t)
    (hcell : m.dq.heap t = some cell) (hnext : cell.next = none) :
    Act (m.view log hd tl) ⟨some n, none⟩ .none
        (({ m with dq := { m.dq with heap := store m.dq.heap t ⟨cell.val, some n⟩ } } : Shared).view
          (log ++ [(n, msg)]) hd tl) ∧
      Stands (store m.dq.heap t ⟨cell.val, some n⟩) (log ++ [(n, msg)]) j t ∧
      (addrs (log ++ [(n, msg)]))[j + 1]? = some n := by
  have htl : tl < log.length := hl.tl_lt
  obtain ⟨u, hu, hcell'⟩ := ht.cell
  obtain rfl := Option.some.inj (hcell.symm.trans hcell')
  have hlen := List.getElem?_eq_none_iff.mp hnext
  rw [addrs_length] at hlen
  have hlast : log.getLast? = some (t, u) := by
    rw [List.getLast?_eq_getElem?, ← hu]
    congr 1
    omega
  have hact : Act (m.view log hd tl) ⟨some n, none⟩ .none _ :=
    .link hlast (show tl + 1 = log.length by omega) hn
  refine ⟨hact, ?_, addrs_concat.mpr (Or.inr ⟨by omega, rfl⟩)⟩
  exact ht.link hlast (hl.ne_last hlast hoff.unlisted).symm

theorem PushOk.step {msg : Message} {pc pc' : PushPc} (hl : Listed (m.view log hd tl))
    (h : PushOk (m.view log hd tl) msg pc) (hoff : ∀ a, pc.own.Has a → Off (m.view log hd tl) a)
    (hstep : pc.share c m = some (m', pc')) {log' : List Node}
    (hlog : log' = log ++ (pc.links c m.dq).map fun node => (node.1, msg)) :
    ∃ tl', Moves (m.view log hd tl) (m'.view log' (hd + (pc.delivers c m.dq).length) tl')
        pc.own pc'.own pc.expects pc'.expects (pc.delivers c m.dq) ∧
      PushOk (m'.view log' (hd + (pc.delivers c m.dq).length) tl') msg pc' := by
  cases pc with
  | malloc m₀ =>
    obtain rfl := hlog.trans (List.append_nil log)
    obtain rfl : m₀ = msg := h
    simp only [PushPc.share] at hstep
    split at hstep
    · obtain ⟨rfl, rfl⟩ := Prod.mk.inj (Option.some.inj hstep)
      exact ⟨tl, .stay nofun, trivial⟩
    · split at hstep
      · rename_i hfree
        obtain ⟨rfl, rfl⟩ := Prod.mk.inj (Option.some.inj hstep)
        exact ⟨tl, ⟨.alloc c.block hfree, nofun, (List.append_nil _).symm⟩, rfl⟩
      · cases hstep
  | setMsg m₀ n =>
    obtain rfl := hlog.trans (List.append_nil log)
    obtain rfl : m₀ = msg := h
    simp only [PushPc.share, PushPc.step] at hstep
    obtain ⟨cell, hcell⟩ := Option.isSome_iff_exists.mp (hoff n (Or.inl rfl)).known
    simp only [Shared.view] at hcell
    rw [hcell] at hstep
    obtain ⟨rfl, rfl⟩ := Prod.mk.inj (Option.some.inj hstep)
    exact ⟨tl, ⟨.write _, nofun, (List.append_nil _).symm⟩, cell.next, store_self ..⟩
  | setNext n =>
    obtain rfl := hlog.trans (List.append_nil log)
    obtain ⟨next, hcell⟩ := h
    simp only [Shared.view] at hcell
    simp only [PushPc.share, PushPc.step, hcell] at hstep
    obtain ⟨rfl, rfl⟩ := Prod.mk.inj (Option.some.inj hstep)
    exact ⟨tl, ⟨.write _, nofun, (List.append_nil _).symm⟩, store_self ..⟩
  | loadTail n =>
    obtain rfl := hlog.trans (List.append_nil log)
    obtain ⟨rfl, rfl⟩ := Prod.mk.inj (Option.some.inj hstep)
    exact ⟨tl, .stay fun a ha => Or.inr (hl.tail_listed ha), h, tl, Nat.le_refl _, hl.at_tail⟩
  | loadNext n tail =>
    obtain rfl := hlog.trans (List.append_nil log)
    obtain ⟨hr, j, hj, htail⟩ := h
    simp only [PushPc.share, PushPc.step] at hstep
    cases hcell : deref m.dq.heap tail with
    | none => exact absurd hcell htail.deref_ne_none
    | some cell =>
      rw [hcell] at hstep
      obtain ⟨rfl, rfl⟩ := Prod.mk.inj (Option.some.inj hstep)
      refine ⟨tl, .stay fun a ha => Or.inl ha, hr, j, hj, htail, ?_⟩
      have hnext := htail.next hcell
      cases hn : cell.next with
      | none => exact Or.inl rfl
      | some a => exact Or.inr ⟨a, rfl, hnext ▸ hn⟩
  | recheck n tail next =>
    obtain rfl := hlog.trans (List.append_nil log)
    obtain ⟨hr, j, hj, htail, hnext⟩ := h
    simp only [PushPc.share, PushPc.step] at hstep
    split at hstep
    · split at hstep
      · obtain ⟨rfl, rfl⟩ := Prod.mk.inj (Option.some.inj hstep)
        exact ⟨tl, .stay fun a ha => Or.inl ha, hr, j, hj, htail⟩
      · rename_i hne
        obtain ⟨rfl, rfl⟩ := Prod.mk.inj (Option.some.inj hstep)
        exact ⟨tl, .stay fun a ha => Or.inl ha, hr, j, hj, htail, hnext.resolve_left hne⟩
    · obtain ⟨rfl, rfl⟩ := Prod.mk.inj (Option.some.inj hstep)
      exact ⟨tl, .stay nofun, hr⟩
  | casNext n tail =>
    obtain ⟨hr, j, hj, t, rfl, ht⟩ := h
    simp only [Shared.view] at ht
    obtain ⟨cell, hcell⟩ := Option.isSome_iff_exists.mp ht.isSome
    have hnew : m.dq.heap n = some ⟨msg, none⟩ := hr
    simp only [PushPc.share, PushPc.step, hcell] at hstep
    simp only [PushPc.links, hcell, hnew] at hlog
    split at hstep
    · rename_i hex
      obtain ⟨rfl, rfl⟩ := Prod.mk.inj (Option.some.inj hstep)
      rw [if_pos hex] at hlog
      obtain rfl := hlog
      obtain ⟨hact, hstands, hnext⟩ :=
        link_step hl hr (hoff n (Or.inl rfl)) hj ht hcell (exchanges_eq_true hex)
      refine ⟨tl, ⟨hact, fun a ha => Or.inl ha, ?_⟩, j, hj, ⟨t, rfl, hstands⟩, n, rfl, hnext⟩
      have hlt : hd < log.length := hl.hd_lt
      have hne : log ≠ [] := List.length_pos_iff.mp (by omega)
      simp only [Shared.view, PushPc.delivers, List.length_nil, Nat.add_zero, List.append_nil]
      rw [List.tail_append_of_ne_nil hne, vals_append, List.take_append_of_le_length]
      rw [vals_length, List.length_tail]
      omega
    · rename_i hex
      obtain ⟨rfl, rfl⟩ := Prod.mk.inj (Option.some.inj hstep)
      rw [if_neg hex] at hlog
      obtain rfl := hlog.trans (List.append_nil log)
      exact ⟨tl, .stay nofun, hr⟩
  | help n tail next =>
    obtain rfl := hlog.trans (List.append_nil log)
    obtain ⟨hr, j, hj, htail, hnext⟩ := h
    simp only [PushPc.share, PushPc.step] at hstep
    split at hstep
    · rename_i hex
      obtain ⟨rfl, rfl⟩ := Prod.mk.inj (Option.some.inj hstep)
      obtain ⟨hlt, hnext⟩ := hl.advance htail (exchanges_eq_true hex) hnext
      exact ⟨tl + 1, ⟨.tail _ hlt hnext, nofun, (List.append_nil _).symm⟩, hr⟩
    · obtain ⟨rfl, rfl⟩ := Prod.mk.inj (Option.some.inj hstep)
      exact ⟨tl, .stay nofun, hr⟩
  | swing n tail =>
    obtain rfl := hlog.trans (List.append_nil log)
    obtain ⟨j, hj, htail, hnext⟩ := h
    simp only [PushPc.share, PushPc.step] at hstep
    split at hstep
    · rename_i hex
      obtain ⟨rfl, rfl⟩ := Prod.mk.inj (Option.some.inj hstep)
      obtain ⟨hlt, hnext⟩ := hl.advance htail (exchanges_eq_true hex) hnext
      exact ⟨tl + 1, ⟨.tail .none hlt hnext, nofun, (List.append_nil _).symm⟩, trivial⟩
    · obtain ⟨rfl, rfl⟩ := Prod.mk.inj (Option.some.inj hstep)
      exact ⟨tl, .stay nofun, trivial⟩
  | fetchAdd =>
    obtain rfl := hlog.trans (List.append_nil log)
    simp only [PushPc.share, PushPc.step] at hstep
    obtain ⟨rfl, rfl⟩ := Prod.mk.inj (Option.some.inj hstep)
    split
    · exact ⟨tl, .stay nofun, trivial⟩
    · exact ⟨tl, .stay nofun, trivial⟩
  | evict pop =>
    obtain rfl := hlog.trans (List.append_nil log)
    simp only [PushPc.share] at hstep
    cases hp : pop.share c m with
    | none => simp [hp] at hstep
    | some r =>
      obtain ⟨m₁, pop'⟩ := r
      obtain ⟨tl', hmoves, hok⟩ := PopOk.step hl h hoff hp
      rw [hp] at hstep
      cases pop' with
      | crash => cases hok
      | done ret =>
        obtain ⟨rfl, rfl⟩ := Prod.mk.inj (Option.some.inj hstep)
        exact ⟨tl', hmoves, trivial⟩
      | _ =>
        obtain ⟨rfl, rfl⟩ := Prod.mk.inj (Option.some.inj hstep)
        exact ⟨tl', hmoves, hok⟩
  | done ret => cases hstep
  | crash => cases h

end Push

end Naarad.Queue
