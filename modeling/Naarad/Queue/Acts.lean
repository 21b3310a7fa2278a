import Naarad.Queue.Pool
import Naarad.Lib.NodeLog

/-!
# What a step of a call can do to the list

`View` is the memory seen as the nodes in the order of linking: entry `hd` of `log` is the dummy
and entry `tl` the node that `dq.tail` points at. `Act` lists everything a step can do to it, with
what becomes of the node that the call allocated and of the dummy that it took off the list.
-/

set_option autoImplicit false

namespace Naarad.Queue

open LinkedHeap

structure View where
  heap : Heap Message
  head : Option Addr
  tail : Option Addr
  freed : List Addr
  log : List Node
  hd : Nat
  tl : Nat

structure Listed (v : View) : Prop where
  hd_le : v.hd ≤ v.tl
  tl_lt : v.tl < v.log.length
  lag : v.log.length ≤ v.tl + 2
  head : v.head = (addrs v.log)[v.hd]?
  tail : v.tail = (addrs v.log)[v.tl]?
  stands : ∀ k a, v.hd ≤ k → (addrs v.log)[k]? = some a → Stands v.heap v.log k a
  unfreed : ∀ k a, v.hd ≤ k → (addrs v.log)[k]? = some a → a ∉ v.freed
  known : ∀ a ∈ addrs v.log, (v.heap a).isSome

/-- The nodes that only one call knows how to reach: not linked yet, or no longer. -/
structure Own where
  new_node : Option Addr
  unlinked : Option Addr

def Own.none : Own := ⟨.none, .none⟩

def Own.Has (o : Own) (a : Addr) : Prop := o.new_node = some a ∨ o.unlinked = some a

/-- A node of a call is allocated, and not on the list. -/
structure Off (v : View) (a : Addr) : Prop where
  unfreed : a ∉ v.freed
  known : (v.heap a).isSome
  unlisted : ∀ k, v.hd ≤ k → (addrs v.log)[k]? ≠ some a

inductive Act (v : View) : Own → Own → View → Prop where
  | stay (o : Own) : Act v o o v
  | tail (o : Own) {next : Option Addr} (hlt : v.tl + 1 < v.log.length)
      (hnext : next = (addrs v.log)[v.tl + 1]?) :
      Act v o o { v with tail := next, tl := v.tl + 1 }
  | head {next : Option Addr} (hlt : v.hd < v.tl) (hnext : next = (addrs v.log)[v.hd + 1]?) :
      Act v .none ⟨none, v.head⟩ { v with head := next, hd := v.hd + 1 }
  | link {n t : Addr} {msg u : Message} (ht : v.log.getLast? = some (t, u))
      (htl : v.tl + 1 = v.log.length) (hn : v.heap n = some ⟨msg, none⟩) :
      Act v ⟨some n, none⟩ .none
        { v with heap := store v.heap t ⟨u, some n⟩, log := v.log ++ [(n, msg)] }
  | alloc {n : Addr} (block : Cell Message) (hn : v.heap n = none ∨ n ∈ v.freed) :
      Act v .none ⟨some n, none⟩
        { v with heap := store v.heap n block, freed := v.freed.filter (· ≠ n) }
  | write {n : Addr} (cell : Cell Message) :
      Act v ⟨some n, none⟩ ⟨some n, none⟩ { v with heap := store v.heap n cell }
  | free (a : Addr) : Act v ⟨none, some a⟩ .none { v with freed := a :: v.freed }

namespace Listed
variable {v : View} (h : Listed v)
include h

theorem hd_lt : v.hd < v.log.length := Nat.lt_of_le_of_lt h.hd_le h.tl_lt

theorem head_some : ∃ a, v.head = some a ∧ (addrs v.log)[v.hd]? = some a := by
  have hlt : v.hd < (addrs v.log).length := by
    rw [addrs_length]
    exact h.hd_lt
  rw [h.head]
  exact ⟨_, List.getElem?_eq_getElem hlt, List.getElem?_eq_getElem hlt⟩

theorem tail_some : ∃ a, v.tail = some a ∧ (addrs v.log)[v.tl]? = some a := by
  have hlt : v.tl < (addrs v.log).length := by
    rw [addrs_length]
    exact h.tl_lt
  rw [h.tail]
  exact ⟨_, List.getElem?_eq_getElem hlt, List.getElem?_eq_getElem hlt⟩

/-- A block that `malloc` may return is not on the list. -/
theorem ne_of_free {n a : Addr} {k : Nat} (hn : v.heap n = none ∨ n ∈ v.freed) (hk : v.hd ≤ k)
    (ha : (addrs v.log)[k]? = some a) : a ≠ n := by
  rintro rfl
  rcases hn with hnone | hfreed
  · have hsome := (h.stands k a hk ha).isSome
    rw [hnone] at hsome
    cases hsome
  · exact h.unfreed k a hk ha hfreed

/-- What is off the list is not its last node. -/
theorem ne_last {a t : Addr} {u : Message} (ht : v.log.getLast? = some (t, u))
    (ha : ∀ k, v.hd ≤ k → (addrs v.log)[k]? ≠ some a) : a ≠ t := by
  rintro rfl
  have hlt := h.hd_lt
  exact ha (v.log.length - 1) (by omega) (addrs_last ht)

end Listed

theorem isSome_store {h : Heap Message} {a b : Addr} {c : Cell Message} (ha : (h a).isSome) :
    (store h b c a).isSome := by
  by_cases hab : a = b
  · rw [hab, store_self]
    rfl
  · rw [store_of_ne hab]
    exact ha

/-- What a step does to a node that stands, as long as no call has it for itself. -/
theorem Act.stands {v w : View} {o o' : Own} (hact : Act v o o' w) {k : Nat} {a : Addr}
    (hs : Stands v.heap v.log k a) (hold : o.new_node ≠ some a) (hnew : o'.new_node ≠ some a) :
    Stands w.heap w.log k a := by
  cases hact with
  | stay => exact hs
  | tail => exact hs
  | head => exact hs
  | link ht htl hn => exact hs.link ht fun heq => hold (congrArg some heq.symm)
  | alloc => exact hs.store_of_ne (fun heq => hnew (congrArg some heq.symm)) _
  | write => exact hs.store_of_ne (fun heq => hnew (congrArg some heq.symm)) _
  | free => exact hs

theorem Act.grows {v w : View} {o o' : Own} (hact : Act v o o' w) :
    v.hd ≤ w.hd ∧ v.tl ≤ w.tl ∧ v.log <+: w.log := by
  cases hact with
  | stay => exact ⟨Nat.le_refl _, Nat.le_refl _, List.prefix_rfl⟩
  | tail => exact ⟨Nat.le_refl _, Nat.le_succ _, List.prefix_rfl⟩
  | head => exact ⟨Nat.le_succ _, Nat.le_refl _, List.prefix_rfl⟩
  | link => exact ⟨Nat.le_refl _, Nat.le_refl _, List.prefix_append _ _⟩
  | alloc => exact ⟨Nat.le_refl _, Nat.le_refl _, List.prefix_rfl⟩
  | write => exact ⟨Nat.le_refl _, Nat.le_refl _, List.prefix_rfl⟩
  | free => exact ⟨Nat.le_refl _, Nat.le_refl _, List.prefix_rfl⟩

/-- What another call has for itself stays off the list, with what it holds. -/
theorem Act.off {v w : View} {o o' : Own} (h : Listed v) (hact : Act v o o' w) {a : Addr}
    (ha : Off v a) (hne : ¬ o.Has a) : Off w a ∧ w.heap a = v.heap a := by
  obtain ⟨hunfreed, hknown, hunlisted⟩ := ha
  cases hact with
  | stay => exact ⟨⟨hunfreed, hknown, hunlisted⟩, rfl⟩
  | tail => exact ⟨⟨hunfreed, hknown, hunlisted⟩, rfl⟩
  | head =>
    exact ⟨⟨hunfreed, hknown, fun k hk => hunlisted k (Nat.le_of_succ_le hk)⟩, rfl⟩
  | @link n t msg u ht htl hn =>
    have han : a ≠ n := fun heq => hne (Or.inl (congrArg some heq.symm))
    have hat : a ≠ t := h.ne_last ht hunlisted
    refine ⟨⟨hunfreed, isSome_store hknown, ?_⟩, store_of_ne hat⟩
    intro k hk hlisted
    rcases addrs_concat.mp hlisted with hlisted | ⟨_, heq⟩
    · exact hunlisted k hk hlisted
    · exact han heq
  | @alloc n block hn =>
    have han : a ≠ n := by
      rintro rfl
      rcases hn with hnone | hfreed
      · rw [hnone] at hknown
        cases hknown
      · exact hunfreed hfreed
    exact ⟨⟨fun hmem => hunfreed (List.mem_of_mem_filter hmem), isSome_store hknown, hunlisted⟩,
      store_of_ne han⟩
  | @write n cell =>
    have han : a ≠ n := fun heq => hne (Or.inl (congrArg some heq.symm))
    exact ⟨⟨hunfreed, isSome_store hknown, hunlisted⟩, store_of_ne han⟩
  | free b =>
    have hab : a ≠ b := fun heq => hne (Or.inr (congrArg some heq.symm))
    refine ⟨⟨?_, hknown, hunlisted⟩, rfl⟩
    exact fun hmem => (List.mem_cons.mp hmem).elim hab hunfreed

/-- What the call has for itself after the step is off the list as well. -/
theorem Act.off_own {v w : View} {o o' : Own} (h : Listed v) (hact : Act v o o' w)
    (ho : ∀ a, o.Has a → Off v a) {a : Addr} (ha : o'.Has a) : Off w a := by
  cases hact with
  | stay => exact ho a ha
  | tail =>
    obtain ⟨hunfreed, hknown, hunlisted⟩ := ho a ha
    exact ⟨hunfreed, hknown, hunlisted⟩
  | head hlt hnext =>
    have hhead : (addrs v.log)[v.hd]? = some a := by
      rcases ha with ha | ha
      · cases ha
      · exact h.head.symm.trans ha
    have hstands := h.stands v.hd a (Nat.le_refl _) hhead
    refine ⟨h.unfreed v.hd a (Nat.le_refl _) hhead, hstands.isSome, ?_⟩
    intro k hk hlisted
    exact absurd (hstands.last k hlisted) (Nat.not_le_of_lt hk)
  | link => rcases ha with ha | ha <;> cases ha
  | @alloc n block hn =>
    obtain rfl : n = a := by
      rcases ha with ha | ha
      · exact Option.some.inj ha
      · cases ha
    refine ⟨?_, ?_, ?_⟩
    · simp
    · simp
    · exact fun k hk hlisted => h.ne_of_free hn hk hlisted rfl
  | write cell =>
    obtain ⟨hunfreed, hknown, hunlisted⟩ := ho a ha
    exact ⟨hunfreed, isSome_store hknown, hunlisted⟩
  | free => rcases ha with ha | ha <;> cases ha

/-- Every step keeps the shape of the list. -/
theorem Listed.act {v w : View} {o o' : Own} (h : Listed v) (ho : ∀ a, o.Has a → Off v a)
    (hact : Act v o o' w) : Listed w := by
  have hstands : ∀ k a, v.hd ≤ k → (addrs v.log)[k]? = some a → o'.new_node ≠ some a →
      Stands w.heap w.log k a := by
    intro k a hk ha hnew
    apply hact.stands (h.stands k a hk ha) _ hnew
    exact fun hold => (ho a (Or.inl hold)).unlisted k hk ha
  cases hact with
  | stay => exact h
  | tail o hlt hnext =>
    obtain ⟨hhd, htl, hlag, hhead, htail, hall, hunfreed, hknown⟩ := h
    exact ⟨Nat.le_succ_of_le hhd, hlt, Nat.le_succ_of_le hlag, hhead, hnext, hall, hunfreed, hknown⟩
  | head hlt hnext =>
    obtain ⟨hhd, htl, hlag, hhead, htail, hall, hunfreed, hknown⟩ := h
    exact ⟨hlt, htl, hlag, hnext, htail, fun k a hk => hall k a (Nat.le_of_succ_le hk),
      fun k a hk => hunfreed k a (Nat.le_of_succ_le hk), hknown⟩
  | @link n t msg u ht htl hn =>
    have hhd := h.hd_lt
    have hoff := ho n (Or.inl rfl)
    have hnt : n ≠ t := h.ne_last ht hoff.unlisted
    have hkeep : ∀ k, k < v.log.length →
        (addrs (v.log ++ [(n, msg)]))[k]? = (addrs v.log)[k]? := by
      intro k hk
      rw [addrs_append, List.getElem?_append_left (by rw [addrs_length]; exact hk)]
    constructor
    · exact h.hd_le
    · have := h.tl_lt
      simp only [List.length_append, List.length_singleton]
      omega
    · simp only [List.length_append, List.length_singleton]
      omega
    · exact h.head.trans (hkeep _ hhd).symm
    · exact h.tail.trans (hkeep _ h.tl_lt).symm
    · intro k a hk ha
      rcases addrs_concat.mp ha with ha | ⟨rfl, rfl⟩
      · exact hstands k a hk ha (by simp [Own.none])
      · exact stands_linked hn hnt
    · intro k a hk ha
      rcases addrs_concat.mp ha with ha | ⟨rfl, rfl⟩
      · exact h.unfreed k a hk ha
      · exact hoff.unfreed
    · intro a ha
      apply isSome_store
      rw [addrs_append, List.mem_append] at ha
      rcases ha with ha | ha
      · exact h.known a ha
      · rw [List.mem_singleton.mp ha]
        exact hoff.known
  | @alloc n block hn =>
    refine ⟨h.hd_le, h.tl_lt, h.lag, h.head, h.tail, ?_, ?_,
      fun a ha => isSome_store (h.known a ha)⟩
    · intro k a hk ha
      exact hstands k a hk ha fun heq => h.ne_of_free hn hk ha (Option.some.inj heq).symm
    · exact fun k a hk ha hmem => h.unfreed k a hk ha (List.mem_of_mem_filter hmem)
  | @write n cell =>
    refine ⟨h.hd_le, h.tl_lt, h.lag, h.head, h.tail, ?_, h.unfreed,
      fun a ha => isSome_store (h.known a ha)⟩
    intro k a hk ha
    exact hstands k a hk ha fun heq => (ho a (Or.inl heq)).unlisted k hk ha
  | free b =>
    refine ⟨h.hd_le, h.tl_lt, h.lag, h.head, h.tail, h.stands, ?_, h.known⟩
    intro k a hk ha hmem
    rcases List.mem_cons.mp hmem with rfl | hmem
    · exact (ho a (Or.inr rfl)).unlisted k hk ha
    · exact h.unfreed k a hk ha hmem

end Naarad.Queue
