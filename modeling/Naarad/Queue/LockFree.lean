import Naarad.Queue.Linearised
import Naarad.Lib.Tally
import Mathlib.Tactic.Ring

/-!
# The queue is lock-free

A pass of a retry loop fails when another call has changed `dq.head`, `dq.tail` or the last link
since this one loaded them, or when a weak compare-exchange fails spuriously. A push makes or leaves
to others three such changes and a pop one, so that they are few, and each costs every other call
one pass at most.
-/

set_option autoImplicit false

namespace Naarad.Queue

open LinkedHeap LabelledRun Tally

/-- There is a node behind the one that `dq.tail` points at. -/
def Dequeue.lags (s : Dequeue) : Bool := (deref s.heap s.tail).any fun cell => cell.next.isSome

/-! A call is up to date while what it has loaded lets its pass of the loop succeed. -/

def PopPc.current (s : Dequeue) : PopPc → Bool
  | .loadTail head => head = s.head
  | .loadNext head tail => head = s.head ∧ (head = tail → tail = s.tail)
  | .recheck head tail next => head = s.head ∧ (head = tail → next = none ∨ tail = s.tail)
  | .help tail _ => tail = s.tail
  | .copyMsg head _ => head = s.head
  | .casHead head _ _ => head = s.head
  | _ => true

def PushPc.current (s : Dequeue) : PushPc → Bool
  | .loadNext _ tail => tail = s.tail
  | .recheck _ tail next => tail = s.tail ∧ (next = none → s.lags = false)
  | .casNext _ tail => tail = s.tail ∧ s.lags = false
  | .help _ tail _ => tail = s.tail
  | .evict pop => pop.current s
  | _ => true

/-! The steps to the end of a call that is up to date and stays so; `help` ends the pass, and its
change of the tail pays for another one. -/

def PopPc.ahead : PopPc → Nat
  | .loadHead => 8
  | .loadTail _ => 7
  | .loadNext _ _ => 6
  | .recheck _ _ _ => 5
  | .help _ _ => 1
  | .copyMsg _ _ => 4
  | .casHead _ _ _ => 3
  | .fetchSub _ _ => 2
  | .free _ _ => 1
  | .done _ => 0
  | .crash => 0

def PushPc.ahead : PushPc → Nat
  | .malloc _ => 17
  | .setMsg _ _ => 16
  | .setNext _ => 15
  | .loadTail _ => 14
  | .loadNext _ _ => 13
  | .recheck _ _ _ => 12
  | .casNext _ _ => 11
  | .help _ _ _ => 1
  | .swing _ _ => 10
  | .fetchAdd => 9
  | .evict pop => pop.ahead
  | .done _ => 0
  | .crash => 0

/-! The changes of `dq.head`, of `dq.tail` and of a link that a call still makes or leaves to
others. -/

def PopPc.changes (pc : PopPc) : Nat := pc.searching.toNat

def PushPc.changes : PushPc → Nat
  | .evict pop => pop.changes
  | .done _ => 0
  | .crash => 0
  | pc => if pc.put then 1 else 3

/-- A pass that is not up to date costs another one. -/
def weight (ahead : Nat) (current : Bool) : Nat := ahead + if current then 0 else 14

def PopPc.work (s : Dequeue) (pc : PopPc) : Nat := weight pc.ahead (pc.current s)

def PushPc.work (s : Dequeue) (pc : PushPc) : Nat := weight pc.ahead (pc.current s)

def PoolCall.work (s : Dequeue) : PoolCall → Nat
  | .idle => 0
  | .push _ pc _ => pc.work s
  | .pop pc _ _ => pc.work s

def PoolCall.changes : PoolCall → Nat
  | .idle => 0
  | .push _ pc _ => pc.changes
  | .pop pc _ _ => pc.changes

/-- What a pass of another call depends on. -/
structure Unmoved (s s' : Dequeue) : Prop where
  head : s'.head = s.head
  tail : s'.tail = s.tail
  lags : s'.lags = s.lags

theorem Unmoved.refl (s : Dequeue) : Unmoved s s := ⟨rfl, rfl, rfl⟩

theorem PopPc.current_congr {s s' : Dequeue} (h : Unmoved s s') (pc : PopPc) :
    pc.current s' = pc.current s := by
  unfold PopPc.current
  rw [h.head, h.tail]

theorem PushPc.current_congr {s s' : Dequeue} (h : Unmoved s s') (pc : PushPc) :
    pc.current s' = pc.current s := by
  unfold PushPc.current
  rw [h.tail, h.lags]
  split <;> first | rfl | exact PopPc.current_congr h _

theorem PoolCall.work_congr {s s' : Dequeue} (h : Unmoved s s') (call : PoolCall) :
    call.work s' = call.work s := by
  cases call with
  | idle => rfl
  | push msg pc e => exact congrArg (weight _) (pc.current_congr h)
  | pop pc e sawEmpty => exact congrArg (weight _) (pc.current_congr h)

/-- One step of a call: it is one step nearer to its end, or it has made one of the changes. -/
def Pays (spurious : Bool) (s s' : Dequeue) (work work' changes changes' : Nat) : Prop :=
  Unmoved s s' ∧ work' + 1 ≤ work + 14 * spurious.toNat ∧ changes' ≤ changes ∨
    work' ≤ work + 13 ∧ changes' + s'.lags.toNat + 1 ≤ changes + s.lags.toNat

theorem weight_le (ahead : Nat) (current : Bool) :
    ahead ≤ weight ahead current ∧ weight ahead current ≤ ahead + 14 := by
  unfold weight
  cases current
  · exact ⟨Nat.le_add_right _ _, Nat.le_refl _⟩
  · exact ⟨Nat.le_refl _, Nat.le_add_right _ _⟩

section Pays
variable {c : Choice} {b : Bool} {s s' : Dequeue} {k k' changes changes' : Nat}
  {current current' : Bool}

/-- The pass goes on, and what was up to date still is. -/
theorem pays_next (h : Unmoved s s') (hk : k' + 1 ≤ k) (hcurrent : current = true → current' = true)
    (hchanges : changes' ≤ changes) :
    Pays b s s' (weight k current) (weight k' current') changes changes' := by
  refine Or.inl ⟨h, ?_, hchanges⟩
  unfold weight
  cases current with
  | false =>
    have hle : (if current' = true then 0 else 14) ≤ 14 := by split <;> omega
    simp only [Bool.false_eq_true, if_false]
    omega
  | true =>
    rw [hcurrent rfl, if_pos rfl]
    omega

/-- The pass has failed, and was not up to date, or its compare-exchange failed spuriously. -/
theorem pays_again (h : Unmoved s s') (hk : k' ≤ 14) (hpos : 0 < k)
    (hfails : current = false ∨ b = true) (hchanges : changes' ≤ changes) :
    Pays b s s' (weight k current) (weight k' true) changes changes' := by
  refine Or.inl ⟨h, ?_, hchanges⟩
  unfold weight
  rw [if_pos rfl]
  rcases hfails with rfl | rfl
  · simp only [Bool.false_eq_true, if_false]
    omega
  · simp only [Bool.toNat_true]
    omega

theorem pays_moved (hk : k' ≤ k + 13) (hmoved : changes' + s'.lags.toNat + 1 ≤ changes + s.lags.toNat) :
    Pays b s s' (weight k current) (weight k' true) changes changes' := by
  refine Or.inr ⟨?_, hmoved⟩
  have hle := (weight_le k current).1
  unfold weight at hle ⊢
  rw [if_pos rfl]
  omega

end Pays

theorem exchanges_eq_false {c : Choice} {p q : Option Addr} (h : exchanges c p q = false) :
    p ≠ q ∨ c.spurious = true := by
  unfold exchanges at h
  by_cases hpq : p = q
  · rw [decide_eq_true hpq, Bool.and_true, Bool.not_eq_false'] at h
    exact Or.inr h
  · exact Or.inl hpq

section Steps
variable {c : Choice} {m m' : Shared} {log : List Node} {hd tl : Nat}

theorem lags_eq {s : Dequeue} {a : Addr} {cell : Cell Message} (htail : s.tail = some a)
    (hcell : s.heap a = some cell) : s.lags = cell.next.isSome := by
  unfold Dequeue.lags
  rw [htail, deref_some, hcell]
  rfl

/-- Moving the tail to the next node takes it to the last one. -/
theorem Listed.caught_up (hl : Listed (m.view log hd tl)) {j : Nat} {p q : Option Addr}
    (hp : (m.view log hd tl).At j p) (hsame : m.dq.tail = p) (hq : (m.view log hd tl).Next j q) :
    m.dq.lags = true ∧ ({ m.dq with tail := q } : Dequeue).lags = false := by
  obtain ⟨hlt, hnext⟩ := hl.advance hp hsame hq
  obtain ⟨b, rfl, _⟩ := hq
  obtain ⟨a, ha, hstands⟩ := hl.at_tail
  obtain ⟨u, _, hcell⟩ := hstands.cell
  have hle : hd ≤ tl + 1 := Nat.le_succ_of_le hl.hd_le
  obtain ⟨u', _, hcell'⟩ := (hl.stands (tl + 1) b hle hnext.symm).cell
  have hlag : log.length ≤ tl + 2 := hl.lag
  have hlast : (addrs log)[tl + 1 + 1]? = none :=
    List.getElem?_eq_none (by rw [addrs_length]; exact hlag)
  constructor
  · rw [lags_eq ha hcell]
    exact congrArg Option.isSome hnext.symm
  · rw [lags_eq (s := { m.dq with tail := some b }) rfl hcell']
    exact congrArg Option.isSome hlast

/-- A store to a block that is off the list. -/
theorem Listed.unmoved_store (hl : Listed (m.view log hd tl)) {a : Addr}
    (ha : ∀ k, hd ≤ k → (addrs log)[k]? ≠ some a) (cell : Cell Message) :
    Unmoved m.dq { m.dq with heap := store m.dq.heap a cell } := by
  refine ⟨rfl, rfl, ?_⟩
  obtain ⟨t, htail, ht⟩ := hl.tail_some
  have hne : t ≠ a := by
    rintro rfl
    exact ha tl hl.hd_le ht
  have hheap : deref (store m.dq.heap a cell) (some t) = deref m.dq.heap (some t) :=
    store_of_ne hne
  have htail' : m.dq.tail = some t := htail
  unfold Dequeue.lags
  dsimp only
  rw [htail', hheap]

theorem PopPc.pays {pc pc' : PopPc} (hl : Listed (m.view log hd tl))
    (h : PopOk (m.view log hd tl) pc) (hstep : pc.share c m = some (m', pc')) :
    Pays c.spurious m.dq m'.dq (pc.work m.dq) (pc'.work m'.dq) pc.changes pc'.changes := by
  cases pc with
  | loadHead =>
    obtain ⟨rfl, rfl⟩ := Prod.mk.inj (Option.some.inj hstep)
    exact pays_next (.refl _) (Nat.le_refl _) (fun _ => decide_eq_true rfl) (Nat.le_refl _)
  | loadTail head =>
    obtain ⟨rfl, rfl⟩ := Prod.mk.inj (Option.some.inj hstep)
    refine pays_next (.refl _) (Nat.le_refl _) (fun hcurrent => ?_) (Nat.le_refl _)
    exact decide_eq_true ⟨of_decide_eq_true hcurrent, fun _ => rfl⟩
  | loadNext head tail =>
    simp only [PopPc.share, PopPc.step] at hstep
    split at hstep <;> obtain ⟨rfl, rfl⟩ := Prod.mk.inj (Option.some.inj hstep)
    · refine pays_next (.refl _) (Nat.le_refl _) (fun hcurrent => ?_) (Nat.le_refl _)
      obtain ⟨hhead, htail⟩ := of_decide_eq_true hcurrent
      exact decide_eq_true ⟨hhead, fun heq => Or.inr (htail heq)⟩
    · exact pays_next (.refl _) (Nat.le_add_left _ _) (fun _ => rfl) (Nat.zero_le _)
  | recheck head tail next =>
    simp only [PopPc.share, PopPc.step] at hstep
    split at hstep
    · rename_i hhead
      split at hstep
      · rename_i htail
        split at hstep <;> obtain ⟨rfl, rfl⟩ := Prod.mk.inj (Option.some.inj hstep)
        · exact pays_next (.refl _) (Nat.le_add_left _ _) (fun _ => rfl) (Nat.le_refl _)
        · rename_i hne
          refine pays_next (.refl _) (Nat.le_of_ble_eq_true rfl) (fun hcurrent => ?_) (Nat.le_refl _)
          obtain ⟨_, hnext⟩ := of_decide_eq_true hcurrent
          exact decide_eq_true ((hnext htail).resolve_left hne)
      · obtain ⟨rfl, rfl⟩ := Prod.mk.inj (Option.some.inj hstep)
        exact pays_next (.refl _) (Nat.le_refl _) (fun _ => decide_eq_true hhead) (Nat.le_refl _)
    · rename_i hhead
      obtain ⟨rfl, rfl⟩ := Prod.mk.inj (Option.some.inj hstep)
      refine pays_again (.refl _) (Nat.le_of_ble_eq_true rfl) (Nat.le_of_ble_eq_true rfl) (Or.inl ?_) (Nat.le_refl _)
      exact decide_eq_false fun hcurrent => hhead hcurrent.1
  | help tail next =>
    obtain ⟨j, _, htail, hnext⟩ := h
    simp only [PopPc.share, PopPc.step] at hstep
    split at hstep <;> rename_i hex <;> obtain ⟨rfl, rfl⟩ := Prod.mk.inj (Option.some.inj hstep)
    · obtain ⟨hlags, hlast⟩ := hl.caught_up htail (exchanges_eq_true hex) hnext
      refine pays_moved (Nat.le_of_ble_eq_true rfl) ?_
      rw [hlags, hlast]
      exact Nat.le_refl _
    · refine pays_again (.refl _) (Nat.le_of_ble_eq_true rfl) (Nat.le_of_ble_eq_true rfl) ?_ (Nat.le_refl _)
      rcases exchanges_eq_false (Bool.not_eq_true _ ▸ hex) with hne | hspurious
      · exact Or.inl (decide_eq_false fun heq => hne heq.symm)
      · exact Or.inr hspurious
  | copyMsg head next =>
    simp only [PopPc.share, PopPc.step] at hstep
    split at hstep <;> obtain ⟨rfl, rfl⟩ := Prod.mk.inj (Option.some.inj hstep)
    · exact pays_next (.refl _) (Nat.le_refl _) (fun hcurrent => hcurrent) (Nat.le_refl _)
    · exact pays_next (.refl _) (Nat.le_of_ble_eq_true rfl) (fun _ => rfl) (Nat.zero_le _)
  | casHead head next msg =>
    simp only [PopPc.share, PopPc.step] at hstep
    split at hstep <;> rename_i hex <;> obtain ⟨rfl, rfl⟩ := Prod.mk.inj (Option.some.inj hstep)
    · refine pays_moved (Nat.le_of_ble_eq_true rfl) (Nat.le_of_eq ?_)
      show 0 + m.dq.lags.toNat + 1 = 1 + m.dq.lags.toNat
      omega
    · refine pays_again (.refl _) (Nat.le_of_ble_eq_true rfl) (Nat.le_of_ble_eq_true rfl) ?_ (Nat.le_refl _)
      rcases exchanges_eq_false (Bool.not_eq_true _ ▸ hex) with hne | hspurious
      · exact Or.inl (decide_eq_false fun heq => hne heq.symm)
      · exact Or.inr hspurious
  | fetchSub head msg =>
    obtain ⟨rfl, rfl⟩ := Prod.mk.inj (Option.some.inj hstep)
    exact pays_next ⟨rfl, rfl, rfl⟩ (Nat.le_refl _) (fun _ => rfl) (Nat.le_refl _)
  | free head msg =>
    cases head with
    | none =>
      obtain ⟨rfl, rfl⟩ := Prod.mk.inj (Option.some.inj hstep)
      exact pays_next (.refl _) (Nat.le_refl _) (fun _ => rfl) (Nat.le_refl _)
    | some a =>
      simp only [PopPc.share] at hstep
      split at hstep <;> obtain ⟨rfl, rfl⟩ := Prod.mk.inj (Option.some.inj hstep)
      · exact pays_next (.refl _) (Nat.le_refl _) (fun _ => rfl) (Nat.le_refl _)
      · exact pays_next ⟨rfl, rfl, rfl⟩ (Nat.le_refl _) (fun _ => rfl) (Nat.le_refl _)
  | done ret => cases hstep
  | crash => cases hstep

theorem PushPc.pays {msg : Message} {pc pc' : PushPc} (hl : Listed (m.view log hd tl))
    (h : PushOk (m.view log hd tl) msg pc) (hoff : ∀ a, pc.own.Has a → Off (m.view log hd tl) a)
    (hstep : pc.share c m = some (m', pc')) :
    Pays c.spurious m.dq m'.dq (pc.work m.dq) (pc'.work m'.dq) pc.changes pc'.changes := by
  cases pc with
  | malloc msg =>
    simp only [PushPc.share] at hstep
    split at hstep
    · obtain ⟨rfl, rfl⟩ := Prod.mk.inj (Option.some.inj hstep)
      exact pays_next (.refl _) (Nat.le_of_ble_eq_true rfl) (fun _ => rfl) (Nat.zero_le _)
    · split at hstep
      · rename_i hfree
        obtain ⟨rfl, rfl⟩ := Prod.mk.inj (Option.some.inj hstep)
        refine pays_next (hl.unmoved_store (fun k hk hlisted => ?_) _) (Nat.le_refl _)
          (fun _ => rfl) (Nat.le_refl _)
        exact hl.ne_of_free hfree hk hlisted rfl
      · cases hstep
  | setMsg msg n =>
    simp only [PushPc.share, PushPc.step] at hstep
    split at hstep <;> obtain ⟨rfl, rfl⟩ := Prod.mk.inj (Option.some.inj hstep)
    · exact pays_next (hl.unmoved_store (hoff n (Or.inl rfl)).unlisted _) (Nat.le_refl _)
        (fun _ => rfl) (Nat.le_refl _)
    · exact pays_next (.refl _) (Nat.le_of_ble_eq_true rfl) (fun _ => rfl) (Nat.zero_le _)
  | setNext n =>
    simp only [PushPc.share, PushPc.step] at hstep
    split at hstep <;> obtain ⟨rfl, rfl⟩ := Prod.mk.inj (Option.some.inj hstep)
    · exact pays_next (hl.unmoved_store (hoff n (Or.inl rfl)).unlisted _) (Nat.le_refl _)
        (fun _ => rfl) (Nat.le_refl _)
    · exact pays_next (.refl _) (Nat.le_of_ble_eq_true rfl) (fun _ => rfl) (Nat.zero_le _)
  | loadTail n =>
    obtain ⟨rfl, rfl⟩ := Prod.mk.inj (Option.some.inj hstep)
    exact pays_next (.refl _) (Nat.le_refl _) (fun _ => decide_eq_true rfl) (Nat.le_refl _)
  | loadNext n tail =>
    simp only [PushPc.share, PushPc.step] at hstep
    split at hstep <;> obtain ⟨rfl, rfl⟩ := Prod.mk.inj (Option.some.inj hstep)
    · rename_i cell hcell
      refine pays_next (.refl _) (Nat.le_refl _) (fun hcurrent => ?_) (Nat.le_refl _)
      have htail : tail = m.dq.tail := of_decide_eq_true hcurrent
      refine decide_eq_true ⟨htail, fun hnone => ?_⟩
      unfold Dequeue.lags
      rw [← htail, hcell]
      exact congrArg Option.isSome hnone
    · exact pays_next (.refl _) (Nat.le_of_ble_eq_true rfl) (fun _ => rfl) (Nat.zero_le _)
  | recheck n tail next =>
    simp only [PushPc.share, PushPc.step] at hstep
    split at hstep
    · rename_i htail
      split at hstep <;> obtain ⟨rfl, rfl⟩ := Prod.mk.inj (Option.some.inj hstep)
      · rename_i hnone
        refine pays_next (.refl _) (Nat.le_refl _) (fun hcurrent => ?_) (Nat.le_refl _)
        obtain ⟨_, hlags⟩ := of_decide_eq_true hcurrent
        exact decide_eq_true ⟨htail, hlags hnone⟩
      · exact pays_next (.refl _) (Nat.le_of_ble_eq_true rfl) (fun _ => decide_eq_true htail)
          (Nat.le_refl _)
    · rename_i htail
      obtain ⟨rfl, rfl⟩ := Prod.mk.inj (Option.some.inj hstep)
      refine pays_again (.refl _) (Nat.le_refl _) (Nat.le_of_ble_eq_true rfl) (Or.inl ?_)
        (Nat.le_refl _)
      exact decide_eq_false fun hcurrent => htail hcurrent.1
  | casNext n tail =>
    cases tail with
    | none =>
      obtain ⟨rfl, rfl⟩ := Prod.mk.inj (Option.some.inj hstep)
      exact pays_next (.refl _) (Nat.le_of_ble_eq_true rfl) (fun _ => rfl) (Nat.zero_le _)
    | some t =>
      simp only [PushPc.share, PushPc.step] at hstep
      split at hstep
      · rename_i cell hcell
        split at hstep <;> rename_i hex <;>
          obtain ⟨rfl, rfl⟩ := Prod.mk.inj (Option.some.inj hstep)
        · refine pays_moved (Nat.le_of_ble_eq_true rfl) ?_
          -- the link, and then the tail lags
          have hlags := Bool.toNat_le (Dequeue.lags
            { m.dq with heap := store m.dq.heap t { cell with next := some n } })
          have hchanges : (PushPc.swing n (some t)).changes = 1 := rfl
          have hchanges' : (PushPc.casNext n (some t)).changes = 3 := rfl
          dsimp only at hlags ⊢
          omega
        · refine pays_again (.refl _) (Nat.le_refl _) (Nat.le_of_ble_eq_true rfl) ?_ (Nat.le_refl _)
          rcases exchanges_eq_false (Bool.not_eq_true _ ▸ hex) with hne | hspurious
          · refine Or.inl (decide_eq_false fun hcurrent => hne ?_)
            rw [lags_eq hcurrent.1.symm hcell] at hcurrent
            exact Option.isNone_iff_eq_none.mp (Option.isSome_eq_false_iff.mp hcurrent.2)
          · exact Or.inr hspurious
      · obtain ⟨rfl, rfl⟩ := Prod.mk.inj (Option.some.inj hstep)
        exact pays_next (.refl _) (Nat.le_of_ble_eq_true rfl) (fun _ => rfl) (Nat.zero_le _)
  | help n tail next =>
    obtain ⟨_, j, _, htail, hnext⟩ := h
    simp only [PushPc.share, PushPc.step] at hstep
    split at hstep <;> rename_i hex <;> obtain ⟨rfl, rfl⟩ := Prod.mk.inj (Option.some.inj hstep)
    · obtain ⟨hlags, hlast⟩ := hl.caught_up htail (exchanges_eq_true hex) hnext
      refine pays_moved (Nat.le_of_ble_eq_true rfl) ?_
      rw [hlags, hlast]
      exact Nat.le_refl _
    · refine pays_again (.refl _) (Nat.le_refl _) (Nat.le_of_ble_eq_true rfl) ?_ (Nat.le_refl _)
      rcases exchanges_eq_false (Bool.not_eq_true _ ▸ hex) with hne | hspurious
      · exact Or.inl (decide_eq_false fun heq => hne heq.symm)
      · exact Or.inr hspurious
  | swing n tail =>
    obtain ⟨j, _, htail, hnext⟩ := h
    simp only [PushPc.share, PushPc.step] at hstep
    split at hstep <;> rename_i hex <;> obtain ⟨rfl, rfl⟩ := Prod.mk.inj (Option.some.inj hstep)
    · obtain ⟨hlags, hlast⟩ := hl.caught_up htail (exchanges_eq_true hex) hnext
      refine pays_moved (Nat.le_of_ble_eq_true rfl) ?_
      rw [hlags, hlast]
      exact Nat.le_refl _
    · exact pays_next (.refl _) (Nat.le_refl _) (fun _ => rfl) (Nat.le_refl _)
  | fetchAdd =>
    obtain ⟨rfl, rfl⟩ := Prod.mk.inj (Option.some.inj hstep)
    split
    · exact pays_next ⟨rfl, rfl, rfl⟩ (Nat.le_refl _) (fun _ => rfl) (Nat.le_refl _)
    · exact pays_next ⟨rfl, rfl, rfl⟩ (Nat.le_of_ble_eq_true rfl) (fun _ => rfl) (Nat.zero_le _)
  | evict pop =>
    rw [PushPc.share_evict] at hstep
    obtain ⟨⟨m₁, pop'⟩, hpop, hr⟩ := Option.map_eq_some_iff.mp hstep
    obtain ⟨rfl, rfl⟩ := Prod.mk.inj hr
    have hpays := PopPc.pays hl h hpop
    cases pop' with
    | done ret =>
      rcases hpays with ⟨hsame, hwork, _⟩ | ⟨hwork, hmoved⟩
      · exact Or.inl ⟨hsame, hwork, Nat.zero_le _⟩
      · refine Or.inr ⟨hwork, ?_⟩
        show 0 + m₁.dq.lags.toNat + 1 ≤ pop.changes + m.dq.lags.toNat
        omega
    | _ => exact hpays
  | done ret => cases hstep
  | crash => cases hstep

end Steps

theorem PopPc.work_le (s : Dequeue) (pc : PopPc) : pc.work s ≤ 22 := by
  have hahead : pc.ahead ≤ 8 := by cases pc <;> exact Nat.le_of_ble_eq_true rfl
  exact Nat.le_trans (weight_le _ _).2 (Nat.add_le_add_right hahead 14)

theorem PushPc.work_le (s : Dequeue) (pc : PushPc) : pc.work s ≤ 31 := by
  have hahead : pc.ahead ≤ 17 := by
    cases pc with
    | evict pop => cases pop <;> exact Nat.le_of_ble_eq_true rfl
    | _ => exact Nat.le_of_ble_eq_true rfl
  exact Nat.le_trans (weight_le _ _).2 (Nat.add_le_add_right hahead 14)

theorem PoolCall.work_le (s : Dequeue) (call : PoolCall) : call.work s ≤ 31 := by
  cases call with
  | idle => exact Nat.zero_le _
  | push msg pc e => exact pc.work_le s
  | pop pc e sawEmpty => exact Nat.le_trans (pc.work_le s) (by decide)

theorem PoolCall.changes_le (call : PoolCall) : call.changes ≤ 3 := by
  cases call with
  | idle => exact Nat.zero_le _
  | push msg pc e =>
    cases pc with
    | evict pop => exact Nat.le_trans (Bool.toNat_le _) (by decide)
    | _ => exact Nat.le_of_ble_eq_true rfl
  | pop pc e sawEmpty => exact Nat.le_trans (Bool.toNat_le _) (by decide)

/-- Whatever another call does, a call has at most one more pass of its loop to make for it. -/
theorem PoolCall.work_le_work (s s' : Dequeue) (call : PoolCall) :
    call.work s' ≤ call.work s + 14 := by
  cases call with
  | idle => exact Nat.zero_le _
  | push msg pc e =>
    exact Nat.le_trans (weight_le _ _).2 (Nat.add_le_add_right (weight_le _ _).1 14)
  | pop pc e sawEmpty =>
    exact Nat.le_trans (weight_le _ _).2 (Nat.add_le_add_right (weight_le _ _).1 14)

variable {n : Nat}

/-- The steps that the calls in progress can still take. -/
def Pool.budget (s : Pool n) : Nat :=
  total (PoolCall.work s.dq) s.calls +
    14 * n * (total PoolCall.changes s.calls + s.dq.lags.toNat)

/-- The steps that a label adds to the budget, and the one that it takes. -/
def PoolLabel.cost : PoolLabel n → Nat
  | .run _ c => 14 * c.spurious.toNat
  | _ => 42 * n + 18

/-- One step of a call in the budget of all calls. -/
theorem Pool.budget_update {s s' : Pool n} {i : Fin n} {call : PoolCall} {b : Bool}
    (hcalls : s'.calls = Function.update s.calls i call)
    (hpays : Pays b s.dq s'.dq ((s.calls i).work s.dq) (call.work s'.dq) (s.calls i).changes
      call.changes) : s'.budget + 1 ≤ s.budget + 14 * b.toNat := by
  have hchanges := total_update PoolCall.changes s.calls i call
  unfold budget
  rw [hcalls]
  rcases hpays with ⟨hsame, hwork, hle⟩ | ⟨hwork, hmoved⟩
  · have htotal := total_update (PoolCall.work s'.dq) s.calls i call
    have hothers : total (PoolCall.work s'.dq) s.calls = total (PoolCall.work s.dq) s.calls :=
      congrArg (fun w => total w s.calls) (funext fun call => call.work_congr hsame)
    rw [PoolCall.work_congr hsame, hothers] at htotal
    have hmul : 14 * n * (total PoolCall.changes (Function.update s.calls i call) +
        s'.dq.lags.toNat) ≤ 14 * n * (total PoolCall.changes s.calls + s.dq.lags.toNat) := by
      rw [hsame.lags]
      apply Nat.mul_le_mul_left
      omega
    omega
  · have hraised : total (PoolCall.work s'.dq) (Function.update s.calls i call) + 1 ≤
        total (PoolCall.work s.dq) s.calls + 14 * Fintype.card (Fin n) := by
      refine total_raised (i := i) (fun j => ?_) ?_
      · by_cases hj : j = i
        · rw [hj, Function.update_self]
          exact Nat.le_succ_of_le hwork
        · rw [Function.update_of_ne hj]
          exact PoolCall.work_le_work _ _ _
      · rw [Function.update_self]
        exact Nat.succ_le_succ hwork
    rw [Fintype.card_fin] at hraised
    have hmul : 14 * n * (total PoolCall.changes (Function.update s.calls i call) +
        s'.dq.lags.toNat + 1) ≤ 14 * n * (total PoolCall.changes s.calls + s.dq.lags.toNat) := by
      apply Nat.mul_le_mul_left
      omega
    rw [Nat.mul_add _ _ 1] at hmul
    omega

theorem Pool.budget_le (s : Pool n) : s.budget ≤ (42 * n + 45) * n := by
  have hwork := total_le (f := s.calls) (PoolCall.work_le s.dq)
  have hchanges := total_le (f := s.calls) PoolCall.changes_le
  have hlags := s.dq.lags.toNat_le
  rw [Fintype.card_fin] at hwork hchanges
  have hmul : 14 * n * (total PoolCall.changes s.calls + s.dq.lags.toNat) ≤ 14 * n * (3 * n + 1) :=
    Nat.mul_le_mul_left _ (Nat.add_le_add hchanges hlags)
  unfold budget
  calc _ ≤ 31 * n + 14 * n * (3 * n + 1) := Nat.add_le_add hwork hmul
    _ = (42 * n + 45) * n := by ring

theorem Pool.budget_setCall {s : Pool n} {i : Fin n} {call : PoolCall}
    (hwork : call.work s.dq ≤ 17) (hchanges : call.changes ≤ 3) :
    (s.setCall i call).budget + 1 ≤ s.budget + (42 * n + 18) := by
  have hw := total_update (PoolCall.work s.dq) s.calls i call
  have hc := total_update PoolCall.changes s.calls i call
  have hmul : 14 * n * (total PoolCall.changes (Function.update s.calls i call) +
      s.dq.lags.toNat) ≤ 14 * n * (total PoolCall.changes s.calls + s.dq.lags.toNat + 3) := by
    apply Nat.mul_le_mul_left
    omega
  rw [Nat.mul_add _ _ 3] at hmul
  unfold budget setCall
  dsimp only
  omega

theorem PoolInv.pays {s s' : Pool n} {tl : Nat} {l : PoolLabel n} (h : PoolInv s tl)
    (hstep : Pool.step l s = some s') : s'.budget + 1 ≤ s.budget + l.cost := by
  cases l with
  | pushRear i msg =>
    obtain ⟨_, ⟨⟩⟩ := Option.ite_none_left_eq_some.mp hstep
    exact Pool.budget_setCall (Nat.le_refl _) (Nat.le_refl _)
  | popFront i =>
    obtain ⟨_, ⟨⟩⟩ := Option.ite_none_left_eq_some.mp hstep
    exact Pool.budget_setCall (Nat.le_of_ble_eq_true rfl) (Nat.le_of_ble_eq_true rfl)
  | run i c =>
    have hok := h.calls.ok i
    have hoff := h.calls.off i
    have hrun : s.run i c (s.calls i) = some s' := hstep
    cases hcall : s.calls i with
    | idle =>
      rw [hcall] at hrun
      cases hrun
    | push msg pc e =>
      rw [hcall] at hrun hok hoff
      obtain ⟨⟨m', pc'⟩, hpc, rfl⟩ := Option.map_eq_some_iff.mp hrun
      refine Pool.budget_update rfl ?_
      rw [hcall]
      exact PushPc.pays h.listed hok hoff hpc
    | pop pc e sawEmpty =>
      rw [hcall] at hrun hok hoff
      obtain ⟨⟨m', pc'⟩, hpc, rfl⟩ := Option.map_eq_some_iff.mp hrun
      refine Pool.budget_update rfl ?_
      rw [hcall]
      exact PopPc.pays h.listed hok.1 hpc

/-! A call in progress can always take its next step. -/

theorem PopPc.can_step {c : Choice} {m : Shared} {pc : PopPc} (hdone : ∀ ret, pc ≠ .done ret)
    (hcrash : pc ≠ .crash) : (pc.share c m).isSome := by
  cases pc with
  | loadNext head tail =>
    simp only [PopPc.share, PopPc.step]
    split <;> rfl
  | recheck head tail next =>
    simp only [PopPc.share, PopPc.step]
    split
    · split
      · split <;> rfl
      · rfl
    · rfl
  | help tail next =>
    simp only [PopPc.share, PopPc.step]
    split <;> rfl
  | copyMsg head next =>
    simp only [PopPc.share, PopPc.step]
    split <;> rfl
  | casHead head next msg =>
    simp only [PopPc.share, PopPc.step]
    split <;> rfl
  | free head msg =>
    cases head with
    | none => rfl
    | some a =>
      simp only [PopPc.share]
      split <;> rfl
  | done ret => exact absurd rfl (hdone ret)
  | crash => exact absurd rfl hcrash
  | _ => rfl

theorem PushPc.can_step {c : Choice} (hfresh : c.fresh = none) {m : Shared} {pc : PushPc}
    (hdone : ∀ ret, pc ≠ .done ret) (hcrash : pc ≠ .crash)
    (hevict : ∀ pop, pc = .evict pop → (∀ ret, pop ≠ .done ret) ∧ pop ≠ .crash) :
    (pc.share c m).isSome := by
  cases pc with
  | malloc msg =>
    simp only [PushPc.share, hfresh]
    rfl
  | setMsg msg n =>
    simp only [PushPc.share, PushPc.step]
    split <;> rfl
  | setNext n =>
    simp only [PushPc.share, PushPc.step]
    split <;> rfl
  | loadNext n tail =>
    simp only [PushPc.share, PushPc.step]
    split <;> rfl
  | recheck n tail next =>
    simp only [PushPc.share, PushPc.step]
    split
    · split <;> rfl
    · rfl
  | casNext n tail =>
    cases tail with
    | none => rfl
    | some t =>
      simp only [PushPc.share, PushPc.step]
      split
      · split <;> rfl
      · rfl
  | help n tail next =>
    simp only [PushPc.share, PushPc.step]
    split <;> rfl
  | swing n tail =>
    simp only [PushPc.share, PushPc.step]
    split <;> rfl
  | evict pop =>
    obtain ⟨hpop, hpop'⟩ := hevict pop rfl
    rw [PushPc.share_evict, Option.isSome_map]
    exact PopPc.can_step hpop hpop'
  | done ret => exact absurd rfl (hdone ret)
  | crash => exact absurd rfl hcrash
  | _ => rfl

/-- A push whose eviction has returned has returned itself. -/
theorem PushPc.share_ne_evict_done {c : Choice} {m m' : Shared} {pc pc' : PushPc}
    (hstep : pc.share c m = some (m', pc')) (ret : Option Message) : pc' ≠ .evict (.done ret) := by
  rintro rfl
  cases pc with
  | malloc msg =>
    simp only [PushPc.share] at hstep
    split at hstep
    · cases hstep
    · split at hstep <;> cases hstep
  | setMsg msg n =>
    simp only [PushPc.share, PushPc.step] at hstep
    split at hstep <;> cases hstep
  | setNext n =>
    simp only [PushPc.share, PushPc.step] at hstep
    split at hstep <;> cases hstep
  | loadTail n => cases hstep
  | loadNext n tail =>
    simp only [PushPc.share, PushPc.step] at hstep
    split at hstep <;> cases hstep
  | recheck n tail next =>
    simp only [PushPc.share, PushPc.step] at hstep
    split at hstep
    · split at hstep <;> cases hstep
    · cases hstep
  | casNext n tail =>
    cases tail with
    | none => cases hstep
    | some t =>
      simp only [PushPc.share, PushPc.step] at hstep
      split at hstep
      · split at hstep <;> cases hstep
      · cases hstep
  | help n tail next =>
    simp only [PushPc.share, PushPc.step] at hstep
    split at hstep <;> cases hstep
  | swing n tail =>
    simp only [PushPc.share, PushPc.step] at hstep
    split at hstep <;> cases hstep
  | fetchAdd =>
    obtain ⟨_, heq⟩ := Prod.mk.inj (Option.some.inj hstep)
    split at heq <;> cases heq
  | evict pop =>
    rw [PushPc.share_evict] at hstep
    obtain ⟨⟨m₁, pop'⟩, _, hr⟩ := Option.map_eq_some_iff.mp hstep
    have heq := (Prod.mk.inj hr).2
    cases pop' <;> cases heq
  | done ret => cases hstep
  | crash => cases hstep

/-- No push waits behind an eviction that has returned. -/
def Pool.Awake (s : Pool n) : Prop := ∀ i msg ret e, s.calls i ≠ .push msg (.evict (.done ret)) e

theorem Pool.Awake.update {s s' : Pool n} {i : Fin n} {call : PoolCall} (h : s.Awake)
    (hcalls : s'.calls = Function.update s.calls i call)
    (hcall : ∀ msg ret e, call ≠ .push msg (.evict (.done ret)) e) : s'.Awake := by
  intro j msg ret e
  rw [hcalls]
  by_cases hj : j = i
  · rw [hj, Function.update_self]
    exact hcall msg ret e
  · rw [Function.update_of_ne hj]
    exact h j msg ret e

theorem Pool.Awake.step {l : PoolLabel n} {s s' : Pool n} (h : s.Awake)
    (hstep : Pool.step l s = some s') : s'.Awake := by
  cases l with
  | pushRear i msg =>
    obtain ⟨_, ⟨⟩⟩ := Option.ite_none_left_eq_some.mp hstep
    exact h.update rfl fun _ _ _ heq => by cases heq
  | popFront i =>
    obtain ⟨_, ⟨⟩⟩ := Option.ite_none_left_eq_some.mp hstep
    exact h.update rfl fun _ _ _ heq => by cases heq
  | run i c =>
    have hrun : s.run i c (s.calls i) = some s' := hstep
    cases hcall : s.calls i with
    | idle =>
      rw [hcall] at hrun
      cases hrun
    | push msg pc e =>
      rw [hcall] at hrun
      obtain ⟨⟨m', pc'⟩, hpc, rfl⟩ := Option.map_eq_some_iff.mp hrun
      refine h.update rfl fun msg' ret e' heq => ?_
      injection heq with _ heq
      exact PushPc.share_ne_evict_done hpc ret heq
    | pop pc e sawEmpty =>
      rw [hcall] at hrun
      obtain ⟨⟨m', pc'⟩, hpc, rfl⟩ := Option.map_eq_some_iff.mp hrun
      exact h.update rfl fun _ _ _ heq => by cases heq

theorem PoolInv.can_step {s : Pool n} {tl : Nat} (h : PoolInv s tl) (hawake : s.Awake) {i : Fin n}
    (hi : (s.calls i).inProgress = true) : ∃ c s', c.spurious = false ∧ NoReuse (.run i c) s ∧
      Pool.step (.run i c) s = some s' := by
  refine ⟨{ fresh := none }, ?_⟩
  have hok := h.calls.ok i
  have hmoves : (s.run i { fresh := none } (s.calls i)).isSome := by
    cases hcall : s.calls i with
    | idle =>
      rw [hcall] at hi
      cases hi
    | push msg pc e =>
      rw [hcall] at hok hi
      unfold Pool.run
      dsimp only
      rw [Option.isSome_map]
      refine PushPc.can_step rfl ?_ ?_ ?_
      · rintro ret rfl
        cases hi
      · rintro rfl
        exact hok
      · rintro pop rfl
        refine ⟨?_, ?_⟩
        · rintro ret rfl
          exact hawake i msg ret e hcall
        · rintro rfl
          exact hok
    | pop pc e sawEmpty =>
      rw [hcall] at hok hi
      unfold Pool.run
      dsimp only
      rw [Option.isSome_map]
      refine PopPc.can_step ?_ ?_
      · rintro ret rfl
        cases hi
      · rintro rfl
        exact hok.1
  obtain ⟨s', hs'⟩ := Option.isSome_iff_exists.mp hmoves
  exact ⟨s', rfl, fun _ _ ha => absurd ha List.not_mem_nil, hs'⟩

/-- The calls that begin in a run. -/
def starts (ls : List (PoolLabel n)) : Nat :=
  ls.countP fun
    | .run _ _ => false
    | _ => true

def spuriousFailures (ls : List (PoolLabel n)) : Nat :=
  ls.countP fun
    | .run _ c => c.spurious
    | _ => false

theorem sum_cost (ls : List (PoolLabel n)) :
    (ls.map PoolLabel.cost).sum = (42 * n + 18) * starts ls + 14 * spuriousFailures ls := by
  induction ls with
  | nil => rfl
  | cons l ls ih =>
    unfold starts spuriousFailures at ih ⊢
    rw [List.map_cons, List.sum_cons, ih, List.countP_cons, List.countP_cons]
    cases l with
    | run i c =>
      cases hspurious : c.spurious
      · simp [PoolLabel.cost, hspurious]
      · simp [PoolLabel.cost, hspurious]
        omega
    | _ =>
      simp only [PoolLabel.cost, if_true, Bool.false_eq_true, if_false]
      ring

/-- Threads that take steps finish calls, as long as `malloc` hands out no block that a running call
holds: from any state that is reached so, a run in which `k` calls begin and `f` compare-exchanges
fail spuriously takes at most `(42 * n + 45) * (k + n) + 14 * f` steps, so that it is short when no
call returns. And no call is ever stuck. -/
theorem lock_free {c : Choice} {s₀ s s' : Pool n} {ks ms : List (PoolLabel n)}
    (hstart : Pool.start n c = some s₀) (hreuse : Along Pool.step NoReuse ks s₀)
    (hks : exec Pool.step ks s₀ = some s) (hreuse' : Along Pool.step NoReuse ms s)
    (hms : exec Pool.step ms s = some s') :
    ms.length ≤ (42 * n + 45) * (starts ms + n) + 14 * spuriousFailures ms ∧
      (tally PoolCall.inProgress s'.calls = tally PoolCall.inProgress s.calls + starts ms →
        ms.length ≤ 2 * n * (42 * n + 45) + 14 * spuriousFailures ms) ∧
      ∀ i, (s'.calls i).inProgress = true → ∃ c t, c.spurious = false ∧
        NoReuse (.run i c) s' ∧ Pool.step (.run i c) s' = some t := by
  have hinv := poolInv_run hstart hreuse hks
  have hkeep : ∀ l (s t : Pool n), (∃ tl, PoolInv s tl) → NoReuse l s → Pool.step l s = some t →
      ∃ tl, PoolInv t tl := by
    rintro l s t ⟨tl, h⟩ hl ht
    exact h.step hl ht
  have hpay : ∀ l (s t : Pool n), (∃ tl, PoolInv s tl) → NoReuse l s → Pool.step l s = some t →
      t.budget + 1 ≤ s.budget + l.cost := by
    rintro l s t ⟨tl, h⟩ _ ht
    exact h.pays ht
  have hpaid := exec_amortised hkeep hpay hinv hreuse' hms
  rw [sum_cost] at hpaid
  have hbudget := s.budget_le
  have hlength : ms.length ≤ (42 * n + 45) * (starts ms + n) + 14 * spuriousFailures ms := by
    have hstarts : (42 * n + 18) * starts ms ≤ (42 * n + 45) * starts ms :=
      Nat.mul_le_mul_right _ (by omega)
    rw [Nat.mul_add]
    omega
  refine ⟨hlength, ?_, ?_⟩
  · intro hnone
    have hthreads := tally_le_card PoolCall.inProgress s'.calls
    rw [Fintype.card_fin] at hthreads
    have hfew : (42 * n + 45) * (starts ms + n) ≤ (42 * n + 45) * (2 * n) :=
      Nat.mul_le_mul_left _ (by omega)
    rw [Nat.mul_comm (2 * n)]
    omega
  · have hstarted : s₀.Awake := by
      obtain ⟨dq, _, h⟩ := Option.bind_eq_some_iff.mp hstart
      obtain ⟨a, _, rfl⟩ := Option.map_eq_some_iff.mp h
      exact fun _ _ _ _ heq => by cases heq
    have hawake : s'.Awake :=
      exec_invariant (fun _ _ _ h ht => h.step ht) (exec_invariant (fun _ _ _ h ht => h.step ht)
        hstarted hks) hms
    obtain ⟨tl, hinv'⟩ := exec_induct hkeep hinv hreuse' hms
    exact fun i hi => hinv'.can_step hawake hi

/-- Both threads are in the middle of a push; three more calls begin. -/
theorem lock_free_sample : ∃ s₀ s s', Pool.start 2 { fresh := some 0 } = some s₀ ∧
    exec Pool.step (recyclingRun.take 12) s₀ = some s ∧
    exec Pool.step (recyclingRun.drop 12) s = some s' ∧ starts (recyclingRun.drop 12) = 3 ∧
    (recyclingRun.drop 12).length ≤
      (42 * 2 + 45) * (starts (recyclingRun.drop 12) + 2) +
        14 * spuriousFailures (recyclingRun.drop 12) := by
  obtain ⟨s₀, s', hstart, _, hrun⟩ := recyclingRun_runs
  rw [← List.take_append_drop 12 recyclingRun] at hrun
  obtain ⟨s, hks, hms⟩ := exec_append_some.mp hrun
  have hreuse : ∀ s₀ ∈ Pool.start 2 { fresh := some 0 },
      Along Pool.step NoReuse (recyclingRun.take 12) s₀ := by
    decide +kernel
  have hreuse' : ∀ s ∈ (Pool.start 2 { fresh := some 0 }).bind
        (exec Pool.step (recyclingRun.take 12)),
      Along Pool.step NoReuse (recyclingRun.drop 12) s := by
    decide +kernel
  have hs : s ∈ (Pool.start 2 { fresh := some 0 }).bind
      (exec Pool.step (recyclingRun.take 12)) :=
    Option.bind_eq_some_iff.mpr ⟨s₀, hstart, hks⟩
  exact ⟨s₀, s, s', hstart, hks, hms, by decide +kernel,
    (lock_free hstart (hreuse s₀ hstart) hks (hreuse' s hs) hms).1⟩

end Naarad.Queue
