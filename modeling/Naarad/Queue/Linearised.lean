import Naarad.Queue.Ownership
import Naarad.Queue.Bookkeeping

/-!
# The queue under any number of threads

`PoolInv` holds in every state of a run in which `malloc` does not hand out a node that a running
call still expects. It makes the list the part of the log that is not delivered yet.
-/

set_option autoImplicit false

namespace Naarad.Queue

open LinkedHeap LabelledRun

variable {n : Nat}

def Pool.view (s : Pool n) (tl : Nat) : View := s.toShared.view s.linked s.delivered.length tl

structure PoolInv (s : Pool n) (tl : Nat) : Prop where
  listed : Listed (s.view tl)
  calls : Calls (s.view tl) s.calls
  delivered : (vals s.linked.tail).take s.delivered.length = s.delivered
  effects : ∀ i, EffectsOk (s.calls i)

theorem update_effects {calls : Fin n → PoolCall} {i : Fin n} {call : PoolCall}
    (h : ∀ j, EffectsOk (calls j)) (hi : EffectsOk call) (j : Fin n) :
    EffectsOk (Function.update calls i call j) := by
  by_cases hj : j = i
  · rw [hj, Function.update_self]
    exact hi
  · rw [Function.update_of_ne hj]
    exact h j

theorem own_of_not_inProgress {call : PoolCall} (h : call.inProgress = false) :
    call.own = .none ∧ call.expects = [] := by
  unfold PoolCall.inProgress at h
  split at h
  · exact ⟨rfl, rfl⟩
  · exact ⟨rfl, rfl⟩
  · exact ⟨rfl, rfl⟩
  · cases h

/-- A thread makes its next call. -/
theorem PoolInv.setCall {s : Pool n} {tl : Nat} {i : Fin n} {call : PoolCall} (h : PoolInv s tl)
    (hi : (s.calls i).inProgress = false) (hown : call.own = .none) (hexpects : call.expects = [])
    (hok : PoolCallOk (s.view tl) call) (heffects : EffectsOk call) :
    PoolInv (s.setCall i call) tl := by
  obtain ⟨hown', hexpects'⟩ := own_of_not_inProgress hi
  have hm : Moves (s.view tl) (s.view tl) (s.calls i).own call.own (s.calls i).expects call.expects
      [] := by
    rw [hown, hown', hexpects, hexpects']
    exact .stay nofun
  refine ⟨h.listed, h.calls.step h.listed rfl hm ?_ hok, h.delivered,
    update_effects h.effects heffects⟩
  intro a ha
  rw [hown] at ha
  cases ha

theorem PopPc.new_node_ne_some (pc : PopPc) (a : Addr) : pc.own.new_node ≠ some a := by
  cases pc <;> exact nofun

/-- Only `malloc` gives a push its node. -/
theorem PushPc.malloc_of_new_node {c : Choice} {m m' : Shared} {pc pc' : PushPc} {a : Addr}
    (hstep : pc.share c m = some (m', pc')) (ha : pc'.own.new_node = some a)
    (hnone : pc.own.new_node = none) : ∃ msg, pc = .malloc msg ∧ c.fresh = some a := by
  cases pc with
  | malloc msg =>
    refine ⟨msg, rfl, ?_⟩
    simp only [PushPc.share] at hstep
    split at hstep
    · obtain ⟨rfl, rfl⟩ := Prod.mk.inj (Option.some.inj hstep)
      cases ha
    · rename_i b hb
      split at hstep
      · obtain ⟨rfl, rfl⟩ := Prod.mk.inj (Option.some.inj hstep)
        exact hb.trans ha
      · cases hstep
  | swing b tail =>
    simp only [PushPc.share, PushPc.step] at hstep
    split at hstep <;> obtain ⟨rfl, rfl⟩ := Prod.mk.inj (Option.some.inj hstep) <;> cases ha
  | fetchAdd =>
    obtain ⟨rfl, rfl⟩ := Prod.mk.inj (Option.some.inj hstep)
    split at ha <;> cases ha
  | evict pop =>
    rw [PushPc.share_evict] at hstep
    obtain ⟨⟨m₁, pop'⟩, _, hr⟩ := Option.map_eq_some_iff.mp hstep
    obtain ⟨rfl, rfl⟩ := Prod.mk.inj hr
    cases pop' with
    | done ret => cases ha
    | crash => cases ha
    | _ => exact absurd ha (PopPc.new_node_ne_some _ a)
  | done ret => cases hstep
  | crash => cases hstep
  | _ => cases hnone

theorem PoolInv.run {s s' : Pool n} {tl : Nat} {i : Fin n} {c : Choice} (h : PoolInv s tl)
    (hreuse : NoReuse (.run i c) s) (hstep : s.run i c (s.calls i) = some s') :
    ∃ tl', PoolInv s' tl' := by
  have hok := h.calls.ok i
  have hoff := h.calls.off i
  have heffects := h.effects i
  cases hcall : s.calls i with
  | idle =>
    rw [hcall] at hstep
    cases hstep
  | push msg pc e =>
    rw [hcall] at hstep hok hoff heffects
    obtain ⟨⟨m', pc'⟩, hpc, rfl⟩ := Option.map_eq_some_iff.mp hstep
    obtain ⟨tl', hm, hok'⟩ := PushOk.step h.listed hok hoff hpc rfl
    rw [← List.length_append] at hm hok'
    have hcrash : pc' ≠ .crash := by
      rintro rfl
      exact hok'
    refine ⟨tl', h.listed.act hoff hm.act, h.calls.step h.listed hcall hm ?_ hok', ?_, ?_⟩
    · intro a ha hnone
      obtain ⟨msg', rfl, hfresh⟩ := PushPc.malloc_of_new_node hpc ha hnone
      exact hreuse (by rw [hcall]; rfl) a (Option.mem_toList.mpr hfresh)
    · exact hm.delivers.trans (congrArg (· ++ _) h.delivered)
    · apply update_effects h.effects
      have hvals : vals ((pc.links c s.dq).map fun node => (node.1, msg)) =
          (pc.links c s.dq).map fun _ => msg := by
        rw [vals, List.map_map]
        rfl
      dsimp only
      rw [hvals]
      exact PushPc.effects_share hok.casNext_isSome hpc hcrash heffects
  | pop pc e sawEmpty =>
    rw [hcall] at hstep hok hoff heffects
    obtain ⟨⟨m', pc'⟩, hpc, rfl⟩ := Option.map_eq_some_iff.mp hstep
    obtain ⟨tl', hm, hok'⟩ := PopOk.step h.listed hok.1 hoff hpc
    rw [← List.length_append] at hm hok'
    have hcrash : pc' ≠ .crash := by
      rintro rfl
      exact hok'
    refine ⟨tl', h.listed.act hoff hm.act, h.calls.step h.listed hcall hm ?_ ⟨hok', ?_⟩, ?_, ?_⟩
    · exact fun a ha => absurd ha (PopPc.new_node_ne_some pc' a)
    · exact PopOk.looks h.listed hok.1 hpc (fun hlen => decide_eq_true hlen) hok.2
    · exact hm.delivers.trans (congrArg (· ++ _) h.delivered)
    · apply update_effects h.effects
      exact ⟨heffects.1, heffects.2 ▸ (PopPc.took_share hpc hcrash).symm⟩

theorem PoolInv.step {l : PoolLabel n} {s s' : Pool n} {tl : Nat} (h : PoolInv s tl)
    (hreuse : NoReuse l s) (hstep : Pool.step l s = some s') : ∃ tl', PoolInv s' tl' := by
  cases l with
  | pushRear i msg =>
    obtain ⟨hi, ⟨⟩⟩ := Option.ite_none_left_eq_some.mp hstep
    exact ⟨tl, h.setCall (Bool.not_eq_true _ ▸ hi) rfl rfl rfl ⟨rfl, rfl⟩⟩
  | popFront i =>
    obtain ⟨hi, ⟨⟩⟩ := Option.ite_none_left_eq_some.mp hstep
    exact ⟨tl, h.setCall (Bool.not_eq_true _ ▸ hi) rfl rfl ⟨trivial, nofun⟩ ⟨rfl, rfl⟩⟩
  | run i c => exact h.run hreuse hstep

theorem start_poolInv {c : Choice} {s : Pool n} (h : Pool.start n c = some s) : PoolInv s 0 := by
  obtain ⟨dq, hdq, h⟩ := Option.bind_eq_some_iff.mp h
  obtain ⟨a, _, rfl⟩ := Option.map_eq_some_iff.mp hdq
  obtain ⟨_, ⟨⟩, rfl⟩ := Option.map_eq_some_iff.mp h
  have hstands : ∀ k b, (addrs [(a, c.block.val)])[k]? = some b →
      Stands (store (fun _ => none) a { c.block with next := none }) [(a, c.block.val)] k b := by
    intro k b hk
    cases k with
    | succ k => cases hk
    | zero =>
      obtain rfl := Option.some.inj hk
      refine ⟨⟨c.block.val, rfl, store_self ..⟩, ?_⟩
      intro j hj
      cases j with
      | zero => exact Nat.le_refl 0
      | succ j => cases hj
  constructor
  · refine ⟨Nat.le_refl 0, Nat.zero_lt_one, Nat.le_succ 1, rfl, rfl, fun k b _ hk => hstands k b hk,
      fun _ _ _ _ => List.not_mem_nil, ?_⟩
    intro b hb
    obtain ⟨k, hk⟩ := List.getElem?_of_mem hb
    exact (hstands k b hk).isSome
  · refine ⟨?_, ?_, ?_, fun _ => trivial⟩
    · rintro i b (hb | hb) <;> cases hb
    · rintro i j b (hb | hb) <;> cases hb
    · exact fun i j b hb => absurd hb List.not_mem_nil
  · rfl
  · exact fun _ => trivial

theorem poolInv_run {c : Choice} {s₀ s : Pool n} {ls : List (PoolLabel n)}
    (hstart : Pool.start n c = some s₀) (hreuse : Along Pool.step NoReuse ls s₀)
    (hrun : exec Pool.step ls s₀ = some s) : ∃ tl, PoolInv s tl := by
  apply exec_induct (P := fun s => ∃ tl, PoolInv s tl) _ ⟨0, start_poolInv hstart⟩ hreuse hrun
  rintro l s t ⟨tl, h⟩ hl hstep
  exact h.step hl hstep

/-- The calls as a FIFO: what was linked is what was delivered and what is on the list, in order,
and every call that has returned had its effect on it, once. -/
structure Fifo (s : Pool n) : Prop where
  no_crash : ∀ i, (s.calls i).crashed = false
  fifo : ∃ dummy ns, Seg s.dq.heap s.dq.head (dummy :: ns) none ∧
    vals s.linked.tail = s.delivered ++ vals ns
  pushed : ∀ i msg ret e, s.calls i = .push msg (.done ret) e →
    e.links = (if ret then [msg] else []) ∧ e.takes.length ≤ ret.toNat
  popped : ∀ i ret e sawEmpty, s.calls i = .pop (.done ret) e sawEmpty →
    e.links = [] ∧ e.takes = ret.toList ∧ (ret = none → sawEmpty = true)

theorem PoolCallOk.not_crashed {v : View} {call : PoolCall} (h : PoolCallOk v call) :
    call.crashed = false := by
  unfold PoolCall.crashed
  split
  · cases h
  · cases h.1
  · rfl

theorem PoolInv.chain {s : Pool n} {tl : Nat} (h : PoolInv s tl) :
    Seg s.dq.heap s.dq.head (s.linked.drop s.delivered.length) none := by
  have hhead : s.dq.head = (addrs s.linked)[s.delivered.length]? := h.listed.head
  rw [hhead]
  exact seg_of_stands h.listed.stands

theorem PoolInv.fifo {s : Pool n} {tl : Nat} (h : PoolInv s tl) : Fifo s := by
  constructor
  · exact fun i => (h.calls.ok i).not_crashed
  · have hlt : s.delivered.length < s.linked.length := h.listed.hd_lt
    have hchain := h.chain
    rw [List.drop_eq_getElem_cons hlt] at hchain
    refine ⟨_, _, hchain, ?_⟩
    have hrest : vals (s.linked.drop (s.delivered.length + 1)) =
        (vals s.linked.tail).drop s.delivered.length := by
      rw [vals, vals, List.map_drop, List.map_tail, List.drop_tail]
    have hsplit := List.take_append_drop s.delivered.length (vals s.linked.tail)
    rw [h.delivered] at hsplit
    rw [hrest]
    exact hsplit.symm
  · intro i msg ret e hcall
    have heffects := h.effects i
    rw [hcall] at heffects
    exact heffects
  · intro i ret e sawEmpty hcall
    have heffects := h.effects i
    have hok := h.calls.ok i
    rw [hcall] at heffects hok
    refine ⟨heffects.1, heffects.2, ?_⟩
    rintro rfl
    exact hok.2 rfl

theorem fifo_of_noReuse {c : Choice} {s₀ s : Pool n} {ls : List (PoolLabel n)}
    (hstart : Pool.start n c = some s₀) (hreuse : Along Pool.step NoReuse ls s₀)
    (hrun : exec Pool.step ls s₀ = some s) : Fifo s := by
  obtain ⟨tl, h⟩ := poolInv_run hstart hreuse hrun
  exact h.fifo

/-- `k` steps of thread `i`, to which `malloc` offers `fresh`. -/
def steps (i : Fin n) (k : Nat) (fresh : Option Addr) : List (PoolLabel n) :=
  List.replicate k (.run i { fresh := fresh })

def numbered (op : UInt8) : Message := { Message.zero with op := op }

/-- Two pushes race for the tail, and the second has to swing it for the first. Then two pops race for
the head; while the one that loses is on its second try, the other thread pushes a message into the
block that it has freed. -/
def recyclingRun : List (PoolLabel 2) :=
  (.pushRear 0 (numbered 1) :: steps 0 4 (some 1)) ++
    (.pushRear 1 (numbered 2) :: steps 1 6 (some 2)) ++ steps 0 3 none ++ steps 1 5 none ++
    steps 0 1 none ++ steps 1 6 none ++ steps 0 1 none ++ (.popFront 1 :: steps 1 5 none) ++
    (.popFront 0 :: steps 0 8 none) ++ steps 1 2 none ++
    (.pushRear 0 (numbered 3) :: steps 0 5 (some 0)) ++ steps 1 7 none ++ steps 0 4 none

theorem recyclingRun_runs : ∃ s₀ s, Pool.start 2 { fresh := some 0 } = some s₀ ∧
    Along Pool.step NoReuse recyclingRun s₀ ∧ exec Pool.step recyclingRun s₀ = some s := by
  have hruns : ((Pool.start 2 { fresh := some 0 }).bind (exec Pool.step recyclingRun)).isSome := by
    decide +kernel
  have hreuse : ∀ s₀ ∈ Pool.start 2 { fresh := some 0 },
      Along Pool.step NoReuse recyclingRun s₀ := by
    decide +kernel
  obtain ⟨s, hs⟩ := Option.isSome_iff_exists.mp hruns
  obtain ⟨s₀, hstart, hrun⟩ := Option.bind_eq_some_iff.mp hs
  exact ⟨s₀, s, hstart, hreuse s₀ hstart, hrun⟩

theorem fifo_of_noReuse_sample : ∃ s₀ s, Pool.start 2 { fresh := some 0 } = some s₀ ∧
    Along Pool.step NoReuse recyclingRun s₀ ∧ exec Pool.step recyclingRun s₀ = some s ∧ Fifo s := by
  obtain ⟨s₀, s, hstart, hreuse, hrun⟩ := recyclingRun_runs
  exact ⟨s₀, s, hstart, hreuse, hrun, fifo_of_noReuse hstart hreuse hrun⟩

/-- The first thread stalls in front of its compare-exchange on the head, which expects the dummy 0
and would put node 1 in its place. The second thread empties the list, and gets block 0 back for a
message of its own; when that node is the dummy, the compare-exchange of the first succeeds. -/
def stalledRun : List (PoolLabel 2) :=
  (.pushRear 1 (numbered 1) :: steps 1 9 (some 1)) ++
    (.pushRear 1 (numbered 2) :: steps 1 9 (some 2)) ++ (.popFront 0 :: steps 0 5 none) ++
    (.popFront 1 :: steps 1 8 none) ++ (.pushRear 1 (numbered 3) :: steps 1 9 (some 0)) ++
    (.popFront 1 :: steps 1 8 none) ++ (.popFront 1 :: steps 1 8 none) ++ steps 0 3 none

theorem fifo_fails : ∃ s₀ s, Pool.start 2 { fresh := some 0 } = some s₀ ∧
    exec Pool.step stalledRun s₀ = some s ∧
    vals s.linked.tail = [numbered 1, numbered 2, numbered 3] ∧
    s.delivered = [numbered 1, numbered 2, numbered 3, numbered 1] ∧
    ¬ Fifo s := by
  have hrun : ((Pool.start 2 { fresh := some 0 }).bind (exec Pool.step stalledRun)).map
      (fun s => (vals s.linked.tail, s.delivered)) =
        some ([numbered 1, numbered 2, numbered 3],
          [numbered 1, numbered 2, numbered 3, numbered 1]) := by
    decide +kernel
  obtain ⟨s, hs, hlists⟩ := Option.map_eq_some_iff.mp hrun
  obtain ⟨s₀, hstart, hs⟩ := Option.bind_eq_some_iff.mp hs
  obtain ⟨hlinked, hdelivered⟩ := Prod.mk.inj hlists
  refine ⟨s₀, s, hstart, hs, hlinked, hdelivered, ?_⟩
  intro hfifo
  obtain ⟨_, ns, _, heq⟩ := hfifo.fifo
  have hlength := congrArg List.length heq
  rw [hlinked, hdelivered] at hlength
  simp at hlength

end Naarad.Queue
