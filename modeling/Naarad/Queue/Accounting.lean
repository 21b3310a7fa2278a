import Naarad.Queue.Linearised
import Naarad.Lib.Tally

/-!
# The counter under any number of threads

`dq.size` is raised and lowered in steps of their own, so it counts the messages on the list up to
the calls that are between the two. It exceeds the bound only by what evictions still owe.
-/

set_option autoImplicit false

namespace Naarad.Queue

open LinkedHeap LabelledRun Tally

variable {n : Nat} {c : Choice} {m m' : Shared}

def PopPc.unsubtracted : PopPc → Bool
  | .fetchSub _ _ => true
  | _ => false

/-- An eviction that will lower the counter, unless it finds the list empty. -/
def PopPc.owing (pc : PopPc) : Bool := pc.unsubtracted || (pc.searching && !pc.foundNone)

namespace PoolCall

/-- A push has linked its node and not raised the counter yet. -/
def uncounted : PoolCall → Bool
  | .push _ (.swing _ _) _ => true
  | .push _ .fetchAdd _ => true
  | _ => false

/-- A pop or an eviction has moved the head and not lowered the counter yet. -/
def unsubtracted : PoolCall → Bool
  | .push _ (.evict p) _ => p.unsubtracted
  | .pop pc _ _ => pc.unsubtracted
  | _ => false

def owing : PoolCall → Bool
  | .push _ (.evict p) _ => p.owing
  | .pop pc _ _ => pc.unsubtracted
  | _ => false

theorem owing_of_unsubtracted {call : PoolCall} (h : call.unsubtracted = true) :
    call.owing = true := by
  unfold unsubtracted at h
  split at h
  · simp [owing, PopPc.owing, h]
  · exact h
  · cases h

end PoolCall

theorem PopPc.unsubtracted_of_searching {pc : PopPc} (h : pc.searching = true) :
    pc.unsubtracted = false := by
  cases pc with
  | fetchSub head msg => cases h
  | _ => rfl

theorem PopPc.balance {pc pc' : PopPc} (hstep : pc.share c m = some (m', pc'))
    (hcrash : pc' ≠ .crash) : ((pc.delivers c m.dq).length : Int) + m'.dq.size +
      pc.unsubtracted.toNat = m.dq.size + pc'.unsubtracted.toNat := by
  rcases PopPc.share_cases hstep with ⟨hpc, hpc', hnone, hsize⟩ |
    ⟨head, next, msg, rfl, rfl, hmsg, hsize⟩ | ⟨head, msg, rfl, rfl, hsize⟩ |
    ⟨head, msg, rfl, rfl, hsize⟩ | h
  · rw [unsubtracted_of_searching hpc, unsubtracted_of_searching hpc', hnone, hsize]
    simp
  · rw [hmsg, hsize]
    simp only [PopPc.unsubtracted, List.length_singleton, Bool.toNat_false, Bool.toNat_true]
    omega
  · rw [hsize]
    simp only [PopPc.unsubtracted, PopPc.delivers, List.length_nil, Bool.toNat_false,
      Bool.toNat_true]
    omega
  · rw [hsize]
    simp only [PopPc.unsubtracted, PopPc.delivers, List.length_nil, Bool.toNat_false]
    omega
  · exact absurd h hcrash

/-- What an eviction does to the bound: it goes on owing, or it pays, or the list is empty. -/
theorem PopOk.owing_share {log : List Node} {hd tl : Nat} {pc pc' : PopPc}
    (hl : Listed (m.view log hd tl)) (h : PopOk (m.view log hd tl) pc)
    (hstep : pc.share c m = some (m', pc')) (hcrash : pc' ≠ .crash) :
    m'.dq.size + pc.owing.toNat ≤ m.dq.size + pc'.owing.toNat ∨
      log.length = hd + 1 ∧ m'.dq.size = m.dq.size ∧ pc'.unsubtracted = pc.unsubtracted := by
  rcases PopPc.share_cases hstep with ⟨hpc, hpc', _, hsize⟩ |
    ⟨head, next, msg, rfl, rfl, _, hsize⟩ | ⟨head, msg, rfl, rfl, hsize⟩ |
    ⟨head, msg, rfl, rfl, hsize⟩ | h'
  · have hun := PopPc.unsubtracted_of_searching hpc
    have hun' := PopPc.unsubtracted_of_searching hpc'
    cases hfound : pc'.foundNone with
    | false =>
      left
      have howing : pc'.owing = true := by simp [PopPc.owing, hpc', hfound]
      have hle := Bool.toNat_le pc.owing
      rw [hsize, howing, Bool.toNat_true]
      omega
    | true =>
      by_cases hlen : log.length = hd + 1
      · exact Or.inr ⟨hlen, hsize, hun'.trans hun.symm⟩
      · left
        have hlooks : pc.looks false pc.foundNone = true :=
          h.looks hl hstep (fun heq => absurd heq hlen) id hfound
        have hnot : pc.foundNone = true := by
          unfold PopPc.looks at hlooks
          split at hlooks
          · cases hlooks
          · exact hlooks
        have howing : pc.owing = false := by simp [PopPc.owing, hun, hnot]
        rw [hsize, howing]
        exact Int.add_le_add_left (Int.natCast_nonneg _) _
  · left
    rw [hsize]
    exact Int.le_refl _
  · left
    rw [hsize]
    simp only [PopPc.owing, PopPc.unsubtracted, PopPc.searching, Bool.true_or, Bool.false_or,
      Bool.false_and, Bool.toNat_true, Bool.toNat_false]
    omega
  · left
    rw [hsize]
    exact Int.le_refl _
  · exact absurd h' hcrash

/-- What a step of one call, from `call` to `call'`, does to the two sums. -/
structure Balance (call call' : PoolCall) (size size' : Int) (links takes : Nat) (empty : Prop) :
    Prop where
  messages : (links : Int) + size + call.uncounted.toNat + call'.unsubtracted.toNat =
    takes + size' + call'.uncounted.toNat + call.unsubtracted.toNat
  bound : size' + call.owing.toNat ≤ size + call'.owing.toNat ∨ size' ≤ MAX_ENTRIES ∨
    empty ∧ size' = size ∧ call'.unsubtracted = call.unsubtracted

theorem PopPc.call_balance {pc pc' : PopPc} (hstep : pc.share c m = some (m', pc'))
    (hcrash : pc' ≠ .crash) (e e' : Effects) (saw saw' : Bool) (empty : Prop) :
    Balance (.pop pc e saw) (.pop pc' e' saw') m.dq.size m'.dq.size 0
      (pc.delivers c m.dq).length empty := by
  have hbalance := PopPc.balance hstep hcrash
  constructor
  · simp only [PoolCall.uncounted, PoolCall.unsubtracted]
    omega
  · left
    simp only [PoolCall.owing]
    omega

theorem owing_afterEvict {pop : PopPc} (hcrash : pop ≠ .crash) (msg : Message) (e : Effects) :
    (PoolCall.push msg (.afterEvict pop) e).owing = pop.owing ∧
      (PoolCall.push msg (.afterEvict pop) e).unsubtracted = pop.unsubtracted ∧
      (PoolCall.push msg (.afterEvict pop) e).uncounted = false := by
  cases pop with
  | crash => exact absurd rfl hcrash
  | done ret => cases ret <;> exact ⟨rfl, rfl, rfl⟩
  | _ => exact ⟨rfl, rfl, rfl⟩

theorem PushPc.quiet {pc : PushPc} (h : pc.put = false) (msg : Message) (e : Effects) :
    (PoolCall.push msg pc e).uncounted = false ∧ (PoolCall.push msg pc e).unsubtracted = false ∧
      (PoolCall.push msg pc e).owing = false := by
  cases pc with
  | swing b tail => cases h
  | fetchAdd => cases h
  | evict pop => cases h
  | _ => exact ⟨rfl, rfl, rfl⟩

theorem PushOk.call_balance {log : List Node} {hd tl : Nat} {pc pc' : PushPc} {msg : Message}
    (hl : Listed (m.view log hd tl)) (h : PushOk (m.view log hd tl) msg pc)
    (hnew : ∀ b t, pc = .casNext b t → (m.dq.heap b).isSome)
    (hstep : pc.share c m = some (m', pc')) (hcrash : pc' ≠ .crash) (e e' : Effects) :
    Balance (.push msg pc e) (.push msg pc' e') m.dq.size m'.dq.size (pc.links c m.dq).length
      (pc.delivers c m.dq).length (log.length = hd + 1) := by
  rcases PushPc.share_cases hnew hstep with ⟨hpc, hpc', hnolink, hnone, hsize⟩ |
    ⟨b, t, node, rfl, rfl, hlink, hsize⟩ | ⟨b, t, rfl, rfl, hsize⟩ | ⟨rfl, hsize, rfl⟩ |
    ⟨pop, pop', rfl, hp, rfl⟩ | h'
  · obtain ⟨hu, hm, ho⟩ := PushPc.quiet hpc msg e
    obtain ⟨hu', hm', ho'⟩ := PushPc.quiet hpc' msg e'
    refine ⟨?_, Or.inl ?_⟩
    · rw [hnolink, hnone, hsize, hu, hu', hm, hm']
      simp
    · rw [hsize, ho, ho']
  · refine ⟨?_, Or.inl ?_⟩
    · rw [hlink, hsize]
      simp only [PoolCall.uncounted, PoolCall.unsubtracted, PushPc.delivers, List.length_singleton,
        List.length_nil, Bool.toNat_true, Bool.toNat_false]
      omega
    · rw [hsize]
      exact Int.le_refl _
  · refine ⟨?_, Or.inl ?_⟩
    · rw [hsize]
      rfl
    · rw [hsize]
      exact Int.le_refl _
  · split
    · refine ⟨?_, Or.inl ?_⟩
      · rw [hsize]
        simp only [PoolCall.uncounted, PoolCall.unsubtracted, PopPc.unsubtracted, PushPc.links,
          PushPc.delivers, List.length_nil, Bool.toNat_true, Bool.toNat_false]
        omega
      · have howing : (PoolCall.push msg (.evict .loadHead) e').owing = true := rfl
        rw [hsize, howing]
        simp only [PoolCall.owing, Bool.toNat_true, Bool.toNat_false]
        omega
    · refine ⟨?_, Or.inr (Or.inl ?_)⟩
      · rw [hsize]
        simp only [PoolCall.uncounted, PoolCall.unsubtracted, PushPc.links, PushPc.delivers,
          List.length_nil, Bool.toNat_true, Bool.toNat_false]
        omega
      · omega
  · have hpop' : pop' ≠ .crash := by
      rintro rfl
      exact hcrash rfl
    obtain ⟨ho, hm, hu⟩ := owing_afterEvict hpop' msg e'
    have hbalance := pop.balance hp hpop'
    constructor
    · rw [hm, hu]
      simp only [PoolCall.uncounted, PoolCall.unsubtracted, PushPc.links, PushPc.delivers,
        List.length_nil]
      omega
    · rw [ho, hm]
      exact (PopOk.owing_share hl h hp hpop').imp_right Or.inr
  · exact absurd h' hcrash

/-- The two sums over all calls. -/
structure Counted (s : Pool n) : Prop where
  messages : (s.linked.length : Int) + tally PoolCall.unsubtracted s.calls =
    s.delivered.length + 1 + s.dq.size + tally PoolCall.uncounted s.calls
  bound : s.dq.size ≤ MAX_ENTRIES + tally PoolCall.owing s.calls

theorem Counted.update {s s' : Pool n} {i : Fin n} {call call' : PoolCall} {links takes : Nat}
    (h : Counted s) (hcall : s.calls i = call) (hcalls : s'.calls = Function.update s.calls i call')
    (hlinked : s'.linked.length = s.linked.length + links)
    (hdelivered : s'.delivered.length = s.delivered.length + takes)
    (hb : Balance call call' s.dq.size s'.dq.size links takes
      (s.linked.length = s.delivered.length + 1)) : Counted s' := by
  obtain ⟨hmessages, hbound⟩ := h
  have hu := tally_update PoolCall.uncounted s.calls i call'
  have hm := tally_update PoolCall.unsubtracted s.calls i call'
  have ho := tally_update PoolCall.owing s.calls i call'
  rw [← hcalls, hcall] at hu hm ho
  constructor
  · have := hb.messages
    omega
  · rcases hb.bound with hle | hle | ⟨hempty, hsize, hsame⟩
    · omega
    · omega
    · -- what is left in the counter are pops that have not lowered it yet
      have hcover : tally PoolCall.unsubtracted s'.calls ≤ tally PoolCall.owing s'.calls :=
        tally_le_tally fun _ => PoolCall.owing_of_unsubtracted
      rw [hsame] at hm
      omega

theorem quiet_of_not_inProgress {call : PoolCall} (h : call.inProgress = false) :
    call.uncounted = false ∧ call.unsubtracted = false ∧ call.owing = false := by
  unfold PoolCall.inProgress at h
  split at h
  · exact ⟨rfl, rfl, rfl⟩
  · exact ⟨rfl, rfl, rfl⟩
  · exact ⟨rfl, rfl, rfl⟩
  · cases h

theorem balance_of_not_inProgress {call call' : PoolCall} (h : call.inProgress = false)
    (hu : call'.uncounted = false) (hm : call'.unsubtracted = false) (ho : call'.owing = false)
    (size : Int) (empty : Prop) : Balance call call' size size 0 0 empty := by
  obtain ⟨hu', hm', ho'⟩ := quiet_of_not_inProgress h
  refine ⟨?_, Or.inl ?_⟩
  · rw [hu, hu', hm, hm']
  · rw [ho, ho']

theorem Counted.step {l : PoolLabel n} {s s' : Pool n} {tl : Nat} (hinv : PoolInv s tl)
    (h : Counted s) (hstep : Pool.step l s = some s') : Counted s' := by
  cases l with
  | pushRear i msg =>
    obtain ⟨hi, ⟨⟩⟩ := Option.ite_none_left_eq_some.mp hstep
    exact h.update rfl rfl rfl rfl
      (balance_of_not_inProgress (Bool.not_eq_true _ ▸ hi) rfl rfl rfl _ _)
  | popFront i =>
    obtain ⟨hi, ⟨⟩⟩ := Option.ite_none_left_eq_some.mp hstep
    exact h.update rfl rfl rfl rfl
      (balance_of_not_inProgress (Bool.not_eq_true _ ▸ hi) rfl rfl rfl _ _)
  | run i c =>
    have hok := hinv.calls.ok i
    have hoff := hinv.calls.off i
    simp only [Pool.step] at hstep
    cases hcall : s.calls i with
    | idle =>
      rw [hcall] at hstep
      cases hstep
    | push msg pc e =>
      rw [hcall] at hstep hok hoff
      obtain ⟨⟨m', pc'⟩, hpc, rfl⟩ := Option.map_eq_some_iff.mp hstep
      obtain ⟨_, _, hok'⟩ := PushOk.step hinv.listed hok hoff hpc rfl
      have hcrash : pc' ≠ .crash := by
        rintro rfl
        exact hok'
      apply h.update hcall rfl _ List.length_append
        (PushOk.call_balance hinv.listed hok hok.casNext_isSome hpc hcrash e _)
      rw [List.length_append, List.length_map]
    | pop pc e sawEmpty =>
      rw [hcall] at hstep hok hoff
      obtain ⟨⟨m', pc'⟩, hpc, rfl⟩ := Option.map_eq_some_iff.mp hstep
      obtain ⟨_, _, hok'⟩ := PopOk.step hinv.listed hok.1 hoff hpc
      have hcrash : pc' ≠ .crash := by
        rintro rfl
        exact hok'
      exact h.update hcall rfl rfl List.length_append
        (PopPc.call_balance hpc hcrash e _ sawEmpty _ _)

theorem start_counted {s : Pool n} (h : Pool.start n c = some s) : Counted s := by
  obtain ⟨dq, hdq, h⟩ := Option.bind_eq_some_iff.mp h
  obtain ⟨a, _, rfl⟩ := Option.map_eq_some_iff.mp hdq
  obtain ⟨_, ⟨⟩, rfl⟩ := Option.map_eq_some_iff.mp h
  constructor
  · rw [tally_eq_zero fun _ => rfl, tally_eq_zero fun _ => rfl]
    rfl
  · exact Int.add_nonneg (Int.natCast_nonneg _) (Int.natCast_nonneg _)

theorem poolInv_counted_run {s₀ s : Pool n} {ls : List (PoolLabel n)}
    (hstart : Pool.start n c = some s₀) (hreuse : Along Pool.step NoReuse ls s₀)
    (hrun : exec Pool.step ls s₀ = some s) : ∃ tl, PoolInv s tl ∧ Counted s := by
  have hbase : ∃ tl, PoolInv s₀ tl ∧ Counted s₀ := ⟨0, start_poolInv hstart, start_counted hstart⟩
  apply exec_induct (P := fun s => ∃ tl, PoolInv s tl ∧ Counted s) _ hbase hreuse hrun
  rintro l s t ⟨tl, hinv, hcounted⟩ hl hstep
  obtain ⟨tl', hinv'⟩ := hinv.step hl hstep
  exact ⟨tl', hinv', hcounted.step hinv hstep⟩

/-- `ns` is the list, and the counter counts the messages behind its dummy. -/
structure Accounted (s : Pool n) (ns : List Node) : Prop where
  linked : Linked s.dq ns
  messages : (ns.tail.length : Int) =
    s.dq.size + tally PoolCall.uncounted s.calls - tally PoolCall.unsubtracted s.calls
  at_rest : (∀ i, (s.calls i).inProgress = false) → s.dq.size = ns.tail.length ∧
    ns.tail.length ≤ MAX_ENTRIES ∧ (isEmpty s.dq = true ↔ ns.tail = []) ∧
    (isFull s.dq = true ↔ ns.tail.length = MAX_ENTRIES)

theorem PoolInv.linked {s : Pool n} {tl : Nat} (h : PoolInv s tl) :
    Linked s.dq (s.linked.drop s.delivered.length) := by
  refine ⟨h.chain, ?_⟩
  have hle : s.delivered.length ≤ tl := h.listed.hd_le
  have hlt : tl < s.linked.length := h.listed.tl_lt
  have hlag : s.linked.length ≤ tl + 2 := h.listed.lag
  have htail : s.dq.tail = (addrs s.linked)[tl]? := h.listed.tail
  refine ⟨(s.linked.drop s.delivered.length).take (tl - s.delivered.length), s.linked[tl],
    s.linked.drop (tl + 1), ?_, ?_, ?_⟩
  · rw [← List.drop_eq_getElem_cons hlt]
    have hdrop : s.linked.drop tl =
        (s.linked.drop s.delivered.length).drop (tl - s.delivered.length) := by
      rw [List.drop_drop]
      congr 1
      omega
    rw [hdrop, List.take_append_drop]
  · rw [List.length_drop]
    omega
  · rw [htail, addrs_getElem?, List.getElem?_eq_getElem hlt]
    rfl

theorem accounted {s₀ s : Pool n} {ls : List (PoolLabel n)} (hstart : Pool.start n c = some s₀)
    (hreuse : Along Pool.step NoReuse ls s₀) (hrun : exec Pool.step ls s₀ = some s) :
    ∃ ns, Accounted s ns := by
  obtain ⟨tl, hinv, hmessages, hbound⟩ := poolInv_counted_run hstart hreuse hrun
  have hlt : s.delivered.length < s.linked.length := hinv.listed.hd_lt
  have hlength : (s.linked.drop s.delivered.length).tail.length =
      s.linked.length - s.delivered.length - 1 := by
    rw [List.length_tail, List.length_drop]
  refine ⟨_, hinv.linked, ?_, ?_⟩
  · rw [hlength]
    omega
  · intro hrest
    have hu : tally PoolCall.uncounted s.calls = 0 :=
      tally_eq_zero fun i => (quiet_of_not_inProgress (hrest i)).1
    have hm : tally PoolCall.unsubtracted s.calls = 0 :=
      tally_eq_zero fun i => (quiet_of_not_inProgress (hrest i)).2.1
    have ho : tally PoolCall.owing s.calls = 0 :=
      tally_eq_zero fun i => (quiet_of_not_inProgress (hrest i)).2.2
    have hsize : s.dq.size = (s.linked.drop s.delivered.length).tail.length := by
      rw [hlength]
      omega
    refine ⟨hsize, by omega, ?_, ?_⟩
    · rw [isEmpty, decide_eq_true_eq, ← List.length_eq_zero_iff]
      omega
    · rw [isFull, decide_eq_true_eq]
      omega

theorem accounted_sample : ∃ s₀ s, Pool.start 2 { fresh := some 0 } = some s₀ ∧
    Along Pool.step NoReuse recyclingRun s₀ ∧ exec Pool.step recyclingRun s₀ = some s ∧
    ∃ ns, Accounted s ns := by
  obtain ⟨s₀, s, hstart, hreuse, hrun⟩ := recyclingRun_runs
  exact ⟨s₀, s, hstart, hreuse, hrun, accounted hstart hreuse hrun⟩

end Naarad.Queue
