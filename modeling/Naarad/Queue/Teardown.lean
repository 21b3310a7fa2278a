import Naarad.Queue.Leaks
import Naarad.Queue.Threads

/-!
# The end of the queue (`tui/lock_free_queue.c`)

`freeDequeue` goes through the list and frees every node. When no call is in progress any more, the
nodes of the list are all the blocks in use, so each is freed once and none is left.
-/

set_option autoImplicit false

namespace Naarad.Queue

open LinkedHeap LabelledRun

variable {n : Nat}

/-- One step of `freeDequeue`, over the memory that the threads of a pool see. -/
def FreePc.share (m : Shared) : FreePc → Option (Shared × FreePc)
  | .free current next =>
    if current ∈ m.freed then some (m, .crash)
    else some ({ m with freed := current :: m.freed }, .loop next)
  | pc => (pc.step m.dq).map fun r => ({ m with dq := r.1 }, r.2)

/-- A thread that does nothing else. -/
def tearDown (_ : Unit) (s : Shared × FreePc) : Option (Shared × FreePc) := s.2.share s.1

theorem exec_tearDown_succ {k : Nat} {s t u : Shared × FreePc} (hstep : s.2.share s.1 = some t)
    (hrest : exec tearDown (List.replicate k ()) t = some u) :
    exec tearDown (List.replicate (k + 1) ()) s = some u :=
  exec_cons.mpr ⟨t, hstep, hrest⟩

/-- The loop over a path that ends in a null pointer. -/
theorem tearDown_walk {m : Shared} {p : Option Addr} {ns : List Node}
    (hpath : Seg m.dq.heap p ns none) (hunfreed : ∀ a ∈ addrs ns, a ∉ m.freed)
    (hnodup : (addrs ns).Nodup) :
    exec tearDown (List.replicate (2 * ns.length) ()) (m, .loop p) =
      some ({ m with freed := (addrs ns).reverse ++ m.freed }, .storeHead) := by
  induction ns generalizing m p with
  | nil =>
    obtain rfl : p = none := hpath
    rfl
  | cons node ns ih =>
    obtain ⟨hp, next, hcell, hrest⟩ := seg_cons.mp hpath
    subst hp
    rw [addrs_cons, List.nodup_cons] at hnodup
    rw [addrs_cons, List.forall_mem_cons] at hunfreed
    have hload : FreePc.share m (.loop (some node.1)) = some (m, .free node.1 next) := by
      simp only [FreePc.share, FreePc.loop, FreePc.step, hcell]
      rfl
    have hfree : FreePc.share m (.free node.1 next) =
        some ({ m with freed := node.1 :: m.freed }, .loop next) := if_neg hunfreed.1
    have hothers : ∀ a ∈ addrs ns, a ∉ node.1 :: m.freed := by
      intro a ha hmem
      rcases List.mem_cons.mp hmem with rfl | hmem
      · exact hnodup.1 ha
      · exact hunfreed.2 a ha hmem
    have hwalk := ih (m := { m with freed := node.1 :: m.freed }) hrest hothers hnodup.2
    rw [List.length_cons, Nat.mul_succ, addrs_cons, List.reverse_cons, List.append_assoc]
    exact exec_tearDown_succ hload (exec_tearDown_succ hfree hwalk)

theorem tearDown_run {m : Shared} {ns : List Node} (hpath : Seg m.dq.heap m.dq.head ns none)
    (hunfreed : ∀ a ∈ addrs ns, a ∉ m.freed) :
    exec tearDown (List.replicate (2 * ns.length + 4) ()) (m, .loadHead) =
      some (⟨⟨m.dq.heap, none, none, 0⟩, (addrs ns).reverse ++ m.freed⟩, .done) := by
  have hwalk := tearDown_walk hpath hunfreed hpath.nodup
  have hstores : exec tearDown (List.replicate 3 ())
      ({ m with freed := (addrs ns).reverse ++ m.freed }, .storeHead) =
        some (⟨⟨m.dq.heap, none, none, 0⟩, (addrs ns).reverse ++ m.freed⟩, .done) := rfl
  refine exec_tearDown_succ (k := 2 * ns.length + 3) (t := (m, .loop m.dq.head)) rfl ?_
  rw [List.replicate_add]
  exact exec_append_some.mpr ⟨_, hwalk, hstores⟩

/-- Whatever the threads have done to the queue while `malloc` handed out no block that a running
call held, once no call is in progress `freeDequeue` comes to its end, frees exactly the blocks in
use, each of them once, and leaves none. The messages that had not been taken off are those on the
list that it frees. -/
theorem freeDequeue_frees {c : Choice} {s₀ s : Pool n} {ls : List (PoolLabel n)}
    (hstart : Pool.start n c = some s₀) (hreuse : Along Pool.step NoReuse ls s₀)
    (hrun : exec Pool.step ls s₀ = some s) (hrest : ∀ i, (s.calls i).inProgress = false) :
    ∃ frees m, exec tearDown (List.replicate (2 * frees.length + 4) ()) (s.toShared, .loadHead) =
        some (m, .done) ∧
      m.freed = frees ++ s.freed ∧ frees.Nodup ∧ (∀ a, a ∈ frees ↔ s.InUse a) ∧
      (∀ a, ¬ m.InUse a) ∧ m.dq.head = none ∧ m.dq.tail = none ∧ m.dq.size = 0 ∧
      (vals s.linked.tail).length + 1 = s.delivered.length + frees.length := by
  obtain ⟨tl, hinv, _, hunlost⟩ := unlost_run hstart hreuse hrun
  have hleak := hinv.noLeak hunlost
  have hnodes := hleak.at_rest hrest
  have hunfreed : ∀ a ∈ addrs (s.linked.drop s.delivered.length), a ∉ s.freed :=
    fun a ha => ((hnodes a).mpr ha).2
  have hlength : (addrs (s.linked.drop s.delivered.length)).reverse.length =
      (s.linked.drop s.delivered.length).length := by
    rw [List.length_reverse, addrs_length]
  refine ⟨(addrs (s.linked.drop s.delivered.length)).reverse,
    ⟨⟨s.dq.heap, none, none, 0⟩, (addrs (s.linked.drop s.delivered.length)).reverse ++ s.freed⟩,
    ?_, rfl, ?_, ?_, ?_, rfl, rfl, rfl, ?_⟩
  · rw [hlength]
    exact tearDown_run hleak.chain hunfreed
  · exact List.nodup_reverse.mpr hleak.chain.nodup
  · intro a
    rw [List.mem_reverse, hnodes a]
  · rintro a ⟨hsome, hfreed⟩
    obtain ⟨hlisted, hfreed⟩ := not_or.mp (mt List.mem_append.mpr hfreed)
    rw [List.mem_reverse] at hlisted
    exact hlisted ((hnodes a).mp ⟨hsome, hfreed⟩)
  · have hlt : s.delivered.length < s.linked.length := hinv.listed.hd_lt
    rw [hlength, vals_length, List.length_tail, List.length_drop]
    omega

/-- All calls of `recyclingRun` have returned; two blocks were in use. -/
theorem freeDequeue_frees_sample : ∃ s₀ s m, Pool.start 2 { fresh := some 0 } = some s₀ ∧
    exec Pool.step recyclingRun s₀ = some s ∧
    (∃ k, exec tearDown (List.replicate k ()) (s.toShared, .loadHead) = some (m, .done)) ∧
    ∀ a, ¬ m.InUse a := by
  obtain ⟨s₀, s, hstart, hreuse, hrun⟩ := recyclingRun_runs
  have hrest : ∀ s ∈ (Pool.start 2 { fresh := some 0 }).bind (exec Pool.step recyclingRun),
      ∀ i, (s.calls i).inProgress = false := by
    decide +kernel
  obtain ⟨frees, m, hend, _, _, _, hnone, _⟩ := freeDequeue_frees hstart hreuse hrun
    (hrest s (Option.bind_eq_some_iff.mpr ⟨s₀, hstart, hrun⟩))
  exact ⟨s₀, s, m, hstart, hrun, ⟨_, hend⟩, hnone⟩

end Naarad.Queue
