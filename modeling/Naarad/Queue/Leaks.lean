import Naarad.Queue.Accounting
import Mathlib.Algebra.BigOperators.Fin
import Mathlib.Algebra.Order.BigOperators.Group.Finset

/-!
# The memory of the queue under any number of threads

`malloc` hands out a block, `free` takes it back, and in between somebody has to know its address.
Every block in use is a node of the list or belongs to one call alone, which still has to link it or
to free it. The bound on the counter is then a bound on the memory.
-/

set_option autoImplicit false

namespace Naarad.Queue

open LinkedHeap LabelledRun Tally

variable {n : Nat}

/-- A block is free, on the list, or held by a call that has `o`. -/
def Placed (v : View) (o : Own) (a : Addr) : Prop :=
  a ∈ v.freed ∨ (∃ k, v.hd ≤ k ∧ (addrs v.log)[k]? = some a) ∨ o.Has a

theorem Act.allocated {v w : View} {o o' : Own} (h : Listed v) (hact : Act v o o' w) {a : Addr}
    (hsome : (w.heap a).isSome) : (v.heap a).isSome ∨ o'.Has a := by
  cases hact with
  | @link b t msg u ht =>
    by_cases hat : a = t
    · subst hat
      apply Or.inl
      apply h.known
      exact List.mem_map.mpr ⟨(a, u), List.mem_of_getLast? ht, rfl⟩
    · exact Or.inl (store_of_ne (c := ⟨u, some b⟩) (h := v.heap) hat ▸ hsome)
  | @alloc b block =>
    by_cases hab : a = b
    · exact Or.inr (Or.inl (congrArg some hab.symm))
    · exact Or.inl (store_of_ne (c := block) (h := v.heap) hab ▸ hsome)
  | @write b cell =>
    by_cases hab : a = b
    · exact Or.inr (Or.inl (congrArg some hab.symm))
    · exact Or.inl (store_of_ne (c := cell) (h := v.heap) hab ▸ hsome)
  | _ => exact Or.inl hsome

/-- What a call had before its step it has linked, freed, or has still. -/
theorem Act.placed {v w : View} {o o' : Own} (h : Listed v) (hact : Act v o o' w) {a : Addr}
    (ha : Placed v o a) : Placed w o' a := by
  cases hact with
  | stay => exact ha
  | tail => exact ha
  | head =>
    rcases ha with hfreed | ⟨k, hk, hlisted⟩ | hown | hown
    · exact Or.inl hfreed
    · rcases Nat.eq_or_lt_of_le hk with rfl | hk
      · -- the old dummy is now the call's
        exact Or.inr (Or.inr (Or.inr (h.head.trans hlisted)))
      · exact Or.inr (Or.inl ⟨k, hk, hlisted⟩)
    · cases hown
    · cases hown
  | @link b t msg u =>
    rcases ha with hfreed | ⟨k, hk, hlisted⟩ | hown | hown
    · exact Or.inl hfreed
    · exact Or.inr (Or.inl ⟨k, hk, addrs_concat.mpr (Or.inl hlisted)⟩)
    · obtain rfl := Option.some.inj hown
      have hle : v.hd ≤ v.log.length := Nat.le_of_lt h.hd_lt
      exact Or.inr (Or.inl ⟨v.log.length, hle, addrs_concat.mpr (Or.inr ⟨rfl, rfl⟩)⟩)
    · cases hown
  | @alloc b block =>
    by_cases hab : a = b
    · exact Or.inr (Or.inr (Or.inl (congrArg some hab.symm)))
    · rcases ha with hfreed | hlisted | hown | hown
      · exact Or.inl (List.mem_filter.mpr ⟨hfreed, decide_eq_true hab⟩)
      · exact Or.inr (Or.inl hlisted)
      · cases hown
      · cases hown
  | write => exact ha
  | free b =>
    rcases ha with hfreed | hlisted | hown | hown
    · exact Or.inl (List.mem_cons_of_mem _ hfreed)
    · exact Or.inr (Or.inl hlisted)
    · cases hown
    · obtain rfl := Option.some.inj hown
      exact Or.inl List.mem_cons_self

/-- No block is lost. -/
def Unlost (v : View) (calls : Fin n → PoolCall) : Prop :=
  ∀ a, (v.heap a).isSome → a ∈ v.freed ∨ (∃ k, v.hd ≤ k ∧ (addrs v.log)[k]? = some a) ∨
    ∃ i, (calls i).own.Has a

theorem Unlost.update {v w : View} {calls : Fin n → PoolCall} {i : Fin n} {call call' : PoolCall}
    (h : Unlost v calls) (hl : Listed v) (hcall : calls i = call)
    (hact : Act v call.own call'.own w) : Unlost w (Function.update calls i call') := by
  have hplaced : ∀ a, Placed w call'.own a → a ∈ w.freed ∨
      (∃ k, w.hd ≤ k ∧ (addrs w.log)[k]? = some a) ∨
        ∃ j, (Function.update calls i call' j).own.Has a := by
    rintro a (hfreed | hlisted | hown)
    · exact Or.inl hfreed
    · exact Or.inr (Or.inl hlisted)
    · refine Or.inr (Or.inr ⟨i, ?_⟩)
      rwa [Function.update_self]
  intro a hsome
  rcases hact.allocated hl hsome with hold | hown
  · rcases h a hold with hfreed | hlisted | ⟨j, hown⟩
    · exact hplaced a (hact.placed hl (Or.inl hfreed))
    · exact hplaced a (hact.placed hl (Or.inr (Or.inl hlisted)))
    · by_cases hj : j = i
      · subst hj
        rw [hcall] at hown
        exact hplaced a (hact.placed hl (Or.inr (Or.inr hown)))
      · refine Or.inr (Or.inr ⟨j, ?_⟩)
        rwa [Function.update_of_ne hj]
  · exact hplaced a (Or.inr (Or.inr hown))

/-- A step of the pool is an act of one call. -/
theorem PoolInv.acts {l : PoolLabel n} {s s' : Pool n} {tl : Nat} (h : PoolInv s tl)
    (hstep : Pool.step l s = some s') : ∃ i call' tl', s'.calls = Function.update s.calls i call' ∧
      Act (s.view tl) (s.calls i).own call'.own (s'.view tl') := by
  cases l with
  | pushRear i msg =>
    obtain ⟨hi, ⟨⟩⟩ := Option.ite_none_left_eq_some.mp hstep
    refine ⟨i, _, tl, rfl, ?_⟩
    rw [(own_of_not_inProgress (Bool.not_eq_true _ ▸ hi)).1]
    exact .stay _
  | popFront i =>
    obtain ⟨hi, ⟨⟩⟩ := Option.ite_none_left_eq_some.mp hstep
    refine ⟨i, _, tl, rfl, ?_⟩
    rw [(own_of_not_inProgress (Bool.not_eq_true _ ▸ hi)).1]
    exact .stay _
  | run i c =>
    have hok := h.calls.ok i
    have hoff := h.calls.off i
    simp only [Pool.step] at hstep
    cases hcall : s.calls i with
    | idle =>
      rw [hcall] at hstep
      cases hstep
    | push msg pc e =>
      rw [hcall] at hstep hok hoff
      obtain ⟨⟨m', pc'⟩, hpc, rfl⟩ := Option.map_eq_some_iff.mp hstep
      obtain ⟨tl', hm, _⟩ := PushOk.step h.listed hok hoff hpc rfl
      rw [← List.length_append] at hm
      refine ⟨i, _, tl', rfl, ?_⟩
      rw [hcall]
      exact hm.act
    | pop pc e sawEmpty =>
      rw [hcall] at hstep hok hoff
      obtain ⟨⟨m', pc'⟩, hpc, rfl⟩ := Option.map_eq_some_iff.mp hstep
      obtain ⟨tl', hm, _⟩ := PopOk.step h.listed hok.1 hoff hpc
      rw [← List.length_append] at hm
      refine ⟨i, _, tl', rfl, ?_⟩
      rw [hcall]
      exact hm.act

theorem start_unlost {c : Choice} {s : Pool n} (h : Pool.start n c = some s) :
    Unlost (s.view 0) s.calls := by
  obtain ⟨dq, hdq, h⟩ := Option.bind_eq_some_iff.mp h
  obtain ⟨dummy, _, rfl⟩ := Option.map_eq_some_iff.mp hdq
  obtain ⟨_, ⟨⟩, rfl⟩ := Option.map_eq_some_iff.mp h
  intro a hsome
  have ha : a = dummy := by
    by_contra hne
    have hcell : (store (fun _ => none) dummy { c.block with next := none } a).isSome := hsome
    rw [store_of_ne hne] at hcell
    cases hcell
  subst ha
  exact Or.inr (Or.inl ⟨0, Nat.le_refl 0, rfl⟩)

theorem mem_addrs_drop {log : List Node} {hd : Nat} {a : Addr} :
    a ∈ addrs (log.drop hd) ↔ ∃ k, hd ≤ k ∧ (addrs log)[k]? = some a := by
  rw [addrs, List.map_drop, List.mem_iff_getElem?]
  constructor
  · rintro ⟨k, hk⟩
    rw [List.getElem?_drop] at hk
    exact ⟨hd + k, Nat.le_add_right hd k, hk⟩
  · rintro ⟨k, hk, ha⟩
    refine ⟨k - hd, ?_⟩
    rw [List.getElem?_drop, Nat.add_sub_cancel' hk]
    exact ha

/-- Handed out by `malloc` and not freed since. -/
def Shared.InUse (m : Shared) (a : Addr) : Prop := (m.dq.heap a).isSome ∧ a ∉ m.freed

/-- The blocks in use are the nodes `ns` of the list and those that a call has for itself. -/
structure NoLeak (s : Pool n) (ns : List Node) : Prop where
  chain : Seg s.dq.heap s.dq.head ns none
  in_use : ∀ a, s.InUse a ↔ a ∈ addrs ns ∨ ∃ i, (s.calls i).own.Has a
  apart : ∀ i a, (s.calls i).own.Has a →
    a ∉ addrs ns ∧ ∀ j, (s.calls j).own.Has a → j = i
  at_rest : (∀ i, (s.calls i).inProgress = false) → ∀ a, s.InUse a ↔ a ∈ addrs ns

theorem PoolInv.noLeak {s : Pool n} {tl : Nat} (h : PoolInv s tl)
    (hunlost : Unlost (s.view tl) s.calls) : NoLeak s (s.linked.drop s.delivered.length) := by
  have hin_use : ∀ a, s.InUse a ↔
      a ∈ addrs (s.linked.drop s.delivered.length) ∨ ∃ i, (s.calls i).own.Has a := by
    intro a
    rw [mem_addrs_drop]
    constructor
    · rintro ⟨hsome, hfreed⟩
      exact (hunlost a hsome).resolve_left hfreed
    · rintro (⟨k, hk, hlisted⟩ | ⟨i, hown⟩)
      · exact ⟨(h.listed.stands k a hk hlisted).isSome, h.listed.unfreed k a hk hlisted⟩
      · have hoff := h.calls.off i a hown
        exact ⟨hoff.known, hoff.unfreed⟩
  refine ⟨h.chain, hin_use, ?_, ?_⟩
  · intro i a hown
    refine ⟨?_, fun j hj => h.calls.apart j i a hj hown⟩
    rw [mem_addrs_drop]
    rintro ⟨k, hk, hlisted⟩
    exact (h.calls.off i a hown).unlisted k hk hlisted
  · intro hrest a
    rw [hin_use a]
    apply or_iff_left
    rintro ⟨i, hown⟩
    rw [(own_of_not_inProgress (hrest i)).1] at hown
    rcases hown with hown | hown <;> cases hown

theorem unlost_run {c : Choice} {s₀ s : Pool n} {ls : List (PoolLabel n)}
    (hstart : Pool.start n c = some s₀) (hreuse : Along Pool.step NoReuse ls s₀)
    (hrun : exec Pool.step ls s₀ = some s) :
    ∃ tl, PoolInv s tl ∧ Counted s ∧ Unlost (s.view tl) s.calls := by
  have hbase : ∃ tl, PoolInv s₀ tl ∧ Counted s₀ ∧ Unlost (s₀.view tl) s₀.calls :=
    ⟨0, start_poolInv hstart, start_counted hstart, start_unlost hstart⟩
  apply exec_induct (P := fun s => ∃ tl, PoolInv s tl ∧ Counted s ∧ Unlost (s.view tl) s.calls) _
    hbase hreuse hrun
  rintro l s t ⟨tl, hinv, hcounted, hunlost⟩ hl hstep
  obtain ⟨tl', hinv'⟩ := hinv.step hl hstep
  obtain ⟨i, call', tl'', hcalls, hact⟩ := hinv.acts hstep
  have hnext := hunlost.update hinv.listed rfl hact
  rw [← hcalls] at hnext
  exact ⟨tl', hinv', hcounted.step hinv hstep, hnext⟩

/-- Whatever the interleaving, and whichever allocations fail, no block is lost. -/
theorem no_block_lost {c : Choice} {s₀ s : Pool n} {ls : List (PoolLabel n)}
    (hstart : Pool.start n c = some s₀) (hreuse : Along Pool.step NoReuse ls s₀)
    (hrun : exec Pool.step ls s₀ = some s) : ∃ ns, NoLeak s ns := by
  obtain ⟨tl, hinv, _, hunlost⟩ := unlost_run hstart hreuse hrun
  exact ⟨_, hinv.noLeak hunlost⟩

theorem no_block_lost_sample : ∃ s₀ s, Pool.start 2 { fresh := some 0 } = some s₀ ∧
    Along Pool.step NoReuse recyclingRun s₀ ∧ exec Pool.step recyclingRun s₀ = some s ∧
    ∃ ns, NoLeak s ns := by
  obtain ⟨s₀, s, hstart, hreuse, hrun⟩ := recyclingRun_runs
  exact ⟨s₀, s, hstart, hreuse, hrun, no_block_lost hstart hreuse hrun⟩

/-! The bound -/

def Own.held (o : Own) : List Addr := o.new_node.toList ++ o.unlinked.toList

theorem Own.mem_held {o : Own} {a : Addr} : a ∈ o.held ↔ o.Has a := by
  unfold held Has
  rw [List.mem_append, Option.mem_toList, Option.mem_toList]

theorem PopPc.held_length (pc : PopPc) : pc.own.held.length ≤ 1 ∧
    (pc.searching = true → pc.own.held.length = 0) := by
  cases pc with
  | fetchSub head msg => exact ⟨Option.length_toList_le, nofun⟩
  | free head msg => exact ⟨Option.length_toList_le, nofun⟩
  | _ => exact ⟨Nat.zero_le 1, fun _ => rfl⟩

/-- A call accounts for one block at most: its own, the one it has not counted yet, or the one that
its eviction still has to find. -/
theorem PoolCall.holds_one (call : PoolCall) : call.own.held.length + call.uncounted.toNat +
    call.owing.toNat ≤ 1 + call.unsubtracted.toNat := by
  cases call with
  | idle => exact Nat.zero_le 1
  | pop pc e sawEmpty =>
    have hheld := pc.held_length.1
    simp only [PoolCall.own, uncounted, owing, unsubtracted, Bool.toNat_false]
    omega
  | push msg pc e =>
    cases pc with
    | evict p =>
      obtain ⟨hheld, hnone⟩ := p.held_length
      have howing : p.owing.toNat ≤ p.unsubtracted.toNat + (1 - p.own.held.length) := by
        unfold PopPc.owing
        cases hun : p.unsubtracted with
        | true => simp
        | false =>
          cases hsearching : p.searching with
          | true =>
            rw [hnone hsearching]
            have := Bool.toNat_le (!p.foundNone)
            simpa using this
          | false => simp
      simp only [PoolCall.own, PushPc.own, uncounted, owing, unsubtracted, Bool.toNat_false]
      omega
    | _ => exact Nat.le_of_ble_eq_true rfl

/-- The blocks in use, those of the list first. -/
def Pool.blocks (s : Pool n) : List Addr :=
  addrs (s.linked.drop s.delivered.length) ++
    (List.finRange n).flatMap fun i => (s.calls i).own.held

theorem NoLeak.mem_blocks {s : Pool n} (h : NoLeak s (s.linked.drop s.delivered.length))
    (a : Addr) : a ∈ s.blocks ↔ s.InUse a := by
  rw [h.in_use, Pool.blocks, List.mem_append, List.mem_flatMap]
  apply or_congr_right
  constructor
  · rintro ⟨i, _, ha⟩
    exact ⟨i, Own.mem_held.mp ha⟩
  · rintro ⟨i, ha⟩
    exact ⟨i, List.mem_finRange i, Own.mem_held.mpr ha⟩

theorem PoolCall.held_length (call : PoolCall) : call.own.held.length ≤ 1 := by
  cases call with
  | idle => exact Nat.zero_le 1
  | pop pc e sawEmpty => exact pc.held_length.1
  | push msg pc e =>
    cases pc with
    | evict p => exact p.held_length.1
    | _ => exact Nat.le_of_ble_eq_true rfl

theorem PoolCall.held_nodup (call : PoolCall) : call.own.held.Nodup := by
  have hle := call.held_length
  cases hheld : call.own.held with
  | nil => exact List.nodup_nil
  | cons a as =>
    rw [hheld, List.length_cons] at hle
    rw [List.length_eq_zero_iff.mp (Nat.le_zero.mp (Nat.le_of_succ_le_succ hle))]
    exact List.nodup_singleton a

theorem NoLeak.nodup_blocks {s : Pool n} (h : NoLeak s (s.linked.drop s.delivered.length)) :
    s.blocks.Nodup := by
  unfold Pool.blocks
  rw [List.nodup_append']
  refine ⟨h.chain.nodup, ?_, ?_⟩
  · rw [List.nodup_flatMap]
    refine ⟨fun i _ => (s.calls i).held_nodup, ?_⟩
    apply (List.nodup_finRange n).imp
    intro i j hij a hi hj
    exact hij ((h.apart i a (Own.mem_held.mp hi)).2 j (Own.mem_held.mp hj)).symm
  · intro a hlisted hheld
    obtain ⟨i, _, ha⟩ := List.mem_flatMap.mp hheld
    exact (h.apart i a (Own.mem_held.mp ha)).1 hlisted

theorem Counted.blocks_length {s : Pool n} (h : Counted s)
    (hlt : s.delivered.length < s.linked.length) : s.blocks.length ≤ MAX_ENTRIES + 1 + n := by
  have hcalls : ∑ i, (s.calls i).own.held.length + tally PoolCall.uncounted s.calls +
      tally PoolCall.owing s.calls ≤ n + tally PoolCall.unsubtracted s.calls := by
    rw [tally_eq_sum, tally_eq_sum, tally_eq_sum, ← Finset.sum_add_distrib,
      ← Finset.sum_add_distrib]
    calc ∑ i, ((s.calls i).own.held.length + (s.calls i).uncounted.toNat +
          (s.calls i).owing.toNat)
        ≤ ∑ i, (1 + (s.calls i).unsubtracted.toNat) :=
          Finset.sum_le_sum fun i _ => (s.calls i).holds_one
      _ = n + ∑ i, (s.calls i).unsubtracted.toNat := by
          rw [Finset.sum_add_distrib, Finset.sum_const, Finset.card_univ, Fintype.card_fin,
            smul_eq_mul, Nat.mul_one]
  have hlength : s.blocks.length = s.linked.length - s.delivered.length +
      ∑ i, (s.calls i).own.held.length := by
    rw [Pool.blocks, List.length_append, addrs_length, List.length_drop, List.length_flatMap,
      Fin.sum_univ_def]
  have hmessages := h.messages
  have hbound := h.bound
  omega

/-- At every moment at most `MAX_ENTRIES + 1` blocks are in use, and one more for each thread. -/
theorem memory_bounded {c : Choice} {s₀ s : Pool n} {ls : List (PoolLabel n)}
    (hstart : Pool.start n c = some s₀) (hreuse : Along Pool.step NoReuse ls s₀)
    (hrun : exec Pool.step ls s₀ = some s) :
    ∃ as : List Addr, as.Nodup ∧ (∀ a, a ∈ as ↔ s.InUse a) ∧ as.length ≤ MAX_ENTRIES + 1 + n := by
  obtain ⟨tl, hinv, hcounted, hunlost⟩ := unlost_run hstart hreuse hrun
  have hnoLeak := hinv.noLeak hunlost
  exact ⟨s.blocks, hnoLeak.nodup_blocks, hnoLeak.mem_blocks,
    hcounted.blocks_length hinv.listed.hd_lt⟩

theorem memory_bounded_sample : ∃ s₀ s, Pool.start 2 { fresh := some 0 } = some s₀ ∧
    Along Pool.step NoReuse recyclingRun s₀ ∧ exec Pool.step recyclingRun s₀ = some s ∧
    ∃ as : List Addr, as.Nodup ∧ (∀ a, a ∈ as ↔ s.InUse a) ∧
      as.length ≤ MAX_ENTRIES + 1 + 2 := by
  obtain ⟨s₀, s, hstart, hreuse, hrun⟩ := recyclingRun_runs
  exact ⟨s₀, s, hstart, hreuse, hrun, memory_bounded hstart hreuse hrun⟩

end Naarad.Queue
