import Naarad.Queue.Calls

/-!
# One thread calling the queue

Whole calls of `pushRear` and `popFront`, run to their return one after another from
`initDequeue`, refine a FIFO bounded by `MAX_ENTRIES`. The run may fail any `malloc`, hand out
released addresses again and let any weak exchange fail spuriously; a call whose exchanges fail
only finitely often returns.
-/

set_option autoImplicit false

namespace Naarad.Queue

open LinkedHeap LabelledRun

inductive Call where
  | pushRear (msg : Message)
  | popFront

inductive Ret where
  | pushed (ok : Bool)
  | popped (msg : Option Message)
  deriving DecidableEq

inductive Pc where
  | push (pc : PushPc)
  | pop (pc : PopPc)

def Call.start : Call → Pc
  | .pushRear msg => .push (.malloc msg)
  | .popFront => .pop .loadHead

def Pc.step (c : Choice) : Dequeue × Pc → Option (Dequeue × Pc)
  | (s, .push pc) => (pc.step c s).map fun r => (r.1, .push r.2)
  | (s, .pop pc) => (pc.step c s).map fun r => (r.1, .pop r.2)

def Pc.ret : Pc → Option Ret
  | .push (.done ok) => some (.pushed ok)
  | .pop (.done msg) => some (.popped msg)
  | _ => none

theorem Pc.ret_eq_some {pc : Pc} {ret : Ret} (h : pc.ret = some ret) :
    (∃ ok, pc = .push (.done ok) ∧ ret = .pushed ok) ∨
      ∃ msg, pc = .pop (.done msg) ∧ ret = .popped msg := by
  unfold Pc.ret at h
  split at h
  · cases h
    exact Or.inl ⟨_, rfl, rfl⟩
  · cases h
    exact Or.inr ⟨_, rfl, rfl⟩
  · cases h

def Call.run (call : Call) (cs : List Choice) (s : Dequeue) : Option (Dequeue × Ret) :=
  (exec Pc.step cs (s, call.start)).bind fun r => r.2.ret.map fun ret => (r.1, ret)

def runCalls : List (Call × List Choice) → Dequeue → Option (Dequeue × List Ret)
  | [], s => some (s, [])
  | (call, cs) :: calls, s =>
    (call.run cs s).bind fun r => (runCalls calls r.1).map fun t => (t.1, r.2 :: t.2)

def allocates (cs : List Choice) : Bool := (cs.head?.bind Choice.fresh).isSome

/-- The abstract queue: what each call returns and leaves behind. -/
def Call.spec (call : Call) (allocated : Bool) (q : List Message) : List Message × Ret :=
  match call with
  | .pushRear msg =>
    if allocated then (BoundedFifo.push MAX_ENTRIES q msg, .pushed true) else (q, .pushed false)
  | .popFront => ((BoundedFifo.pop q).1, .popped (BoundedFifo.pop q).2)

def specCalls : List (Call × List Choice) → List Message → List Message × List Ret
  | [], q => (q, [])
  | (call, cs) :: calls, q =>
    let r := call.spec (allocates cs) q
    let t := specCalls calls r.1
    (t.1, r.2 :: t.2)

/-- The queue never holds a message that no call pushed. -/
theorem mem_specCalls {calls : List (Call × List Choice)} {q : List Message} {m : Message}
    (h : m ∈ (specCalls calls q).1) : m ∈ q ∨ ∃ cs, (.pushRear m, cs) ∈ calls := by
  induction calls generalizing q with
  | nil => exact Or.inl h
  | cons head calls ih =>
    obtain ⟨call, cs⟩ := head
    rcases ih h with h | ⟨cs', h⟩
    · cases call with
      | pushRear msg =>
        simp only [Call.spec] at h
        split at h
        · rcases BoundedFifo.mem_push h with h | rfl
          · exact Or.inl h
          · exact Or.inr ⟨cs, List.mem_cons_self⟩
        · exact Or.inl h
      | popFront => exact Or.inl (BoundedFifo.mem_pop h)
    · exact Or.inr ⟨cs', List.mem_cons_of_mem _ h⟩

/-- The abstract queue `q` as the linked one shows it between two calls. -/
structure Represents (s : Dequeue) (ns : List Node) (q : List Message) : Prop where
  holds : Holds s ns q
  tail_allocated : ∃ t cell, s.tail = some t ∧ s.heap t = some cell
  bounded : q.length ≤ MAX_ENTRIES
  empty_iff : isEmpty s = true ↔ q.length = 0
  full_iff : isFull s = true ↔ q.length = MAX_ENTRIES

theorem Holds.represents {s : Dequeue} {ns : List Node} {q : List Message} (h : Holds s ns q)
    (hq : q.length ≤ MAX_ENTRIES) : Represents s ns q where
  holds := h
  tail_allocated := by
    obtain ⟨_, t, _, _, _, _, ht, hcell, _⟩ := h.linked.tail_cell
    exact ⟨t.1, _, ht, hcell⟩
  bounded := hq
  empty_iff := by
    simp only [isEmpty, h.counted, decide_eq_true_eq]
    omega
  full_iff := by
    simp only [isFull, h.counted, decide_eq_true_eq]
    omega

theorem initDequeue_represents {c : Choice} {s : Dequeue} (h : initDequeue c = some s) :
    ∃ ns, Represents s ns [] := by
  obtain ⟨dummy, hq⟩ := initDequeue_holds h
  exact ⟨[dummy], hq.represents (Nat.zero_le _)⟩

def CallInv (q : List Message) (s : Dequeue) (live : List Node) : Call → Pc → Prop
  | .pushRear msg, .push pc => PushInv q msg s live pc
  | .popFront, .pop pc => PopInv q s live pc
  | _, _ => False

theorem CallInv.step {q : List Message} {s s' : Dequeue} {live : List Node} {call : Call}
    {pc pc' : Pc} {c : Choice} (h : CallInv q s live call pc)
    (hstep : Pc.step c (s, pc) = some (s', pc')) : ∃ live', CallInv q s' live' call pc' := by
  cases call with
  | pushRear msg =>
    cases pc with
    | push pc =>
      obtain ⟨r, hr, heq⟩ := Option.map_eq_some_iff.mp hstep
      obtain ⟨rfl, rfl⟩ := Prod.mk.inj heq
      obtain ⟨_, live', _, _, h'⟩ := PushInv.step h hr
      exact ⟨live', h'⟩
    | pop pc => cases h
  | popFront =>
    cases pc with
    | push pc => cases h
    | pop pc =>
      obtain ⟨r, hr, heq⟩ := Option.map_eq_some_iff.mp hstep
      obtain ⟨rfl, rfl⟩ := Prod.mk.inj heq
      obtain ⟨_, live', _, _, h'⟩ := PopInv.step h hr
      exact ⟨live', h'⟩

theorem CallInv.exec {q : List Message} {s s' : Dequeue} {live : List Node} {call : Call}
    {pc pc' : Pc} {cs : List Choice} (h : CallInv q s live call pc)
    (hrun : exec Pc.step cs (s, pc) = some (s', pc')) : ∃ live', CallInv q s' live' call pc' :=
  exec_invariant (P := fun r => ∃ live', CallInv q r.1 live' call r.2)
    (fun _ _ _ ⟨_, hl⟩ hstep => hl.step hstep) ⟨live, h⟩ hrun

theorem CallInv.start {q : List Message} {s : Dequeue} {ns : List Node} (h : Holds s ns q)
    (call : Call) : CallInv q s ns call call.start := by
  cases call with
  | pushRear msg => exact ⟨h, rfl⟩
  | popFront => exact h

def PushPc.past : PushPc → Bool
  | .malloc _ => false
  | .done ok => ok
  | _ => true

theorem PushPc.step_past {c : Choice} {s : Dequeue} {pc : PushPc} {r : Dequeue × PushPc}
    (hstep : pc.step c s = some r) :
    r.2.past = true ∨ ((∃ m, pc = .malloc m) ∧ c.fresh = none ∧ r = (s, .done false)) := by
  cases pc with
  | malloc m =>
    simp only [PushPc.step] at hstep
    split at hstep
    · rename_i hc
      exact Or.inr ⟨⟨m, rfl⟩, hc, (Option.some.inj hstep).symm⟩
    · split at hstep
      · exact Or.inl (Option.some.inj hstep ▸ rfl)
      · cases hstep
  | casNext n tail =>
    cases tail with
    | none => exact Or.inl (Option.some.inj hstep ▸ rfl)
    | some t =>
      simp only [PushPc.step] at hstep
      repeat' split at hstep
      all_goals exact Or.inl (Option.some.inj hstep ▸ rfl)
  | fetchAdd =>
    refine Or.inl (Option.some.inj hstep ▸ ?_)
    dsimp only
    split <;> rfl
  | evict pop =>
    simp only [PushPc.step] at hstep
    split at hstep
    all_goals first | exact Or.inl (Option.some.inj hstep ▸ rfl) | cases hstep
  | loadTail n => exact Or.inl (Option.some.inj hstep ▸ rfl)
  | done ok => cases hstep
  | crash => cases hstep
  | _ =>
    simp only [PushPc.step] at hstep
    repeat' split at hstep
    all_goals exact Or.inl (Option.some.inj hstep ▸ rfl)

def Pc.Entered : Pc → Prop
  | .push pc => pc.past = true
  | .pop _ => False

theorem Pc.Entered.step {s : Dequeue} {pc : Pc} {c : Choice} {r : Dequeue × Pc} (h : pc.Entered)
    (hstep : Pc.step c (s, pc) = some r) : r.2.Entered := by
  cases pc with
  | pop pc => cases h
  | push pc =>
    obtain ⟨t, ht, rfl⟩ := Option.map_eq_some_iff.mp hstep
    rcases PushPc.step_past ht with hpast | ⟨⟨m, rfl⟩, _⟩
    · exact hpast
    · cases h

theorem Call.run_eq_some {call : Call} {cs : List Choice} {s s' : Dequeue} {ret : Ret} :
    call.run cs s = some (s', ret) ↔
      ∃ pc, exec Pc.step cs (s, call.start) = some (s', pc) ∧ pc.ret = some ret := by
  simp only [Call.run, Option.bind_eq_some_iff, Option.map_eq_some_iff, Prod.exists, Prod.mk.injEq]
  constructor
  · rintro ⟨t, pc, hrun, r, hret, rfl, rfl⟩
    exact ⟨pc, hrun, hret⟩
  · rintro ⟨pc, hrun, hret⟩
    exact ⟨s', pc, hrun, ret, hret, rfl, rfl⟩

/-- A push reports whether its `malloc` succeeded, and a failed one touches nothing. -/
theorem pushRear_ret {msg : Message} {cs : List Choice} {s s' : Dequeue} {ret : Ret}
    (hrun : Call.run (.pushRear msg) cs s = some (s', ret)) :
    ret = .pushed (allocates cs) ∧ (allocates cs = false → s' = s) := by
  obtain ⟨pc, hexec, hret⟩ := Call.run_eq_some.mp hrun
  cases cs with
  | nil =>
    obtain ⟨rfl, rfl⟩ : s = s' ∧ _ = pc := by simpa using hexec
    cases hret
  | cons c cs =>
    obtain ⟨⟨t, pc₁⟩, hstep, hrest⟩ := exec_cons.mp hexec
    cases hc : c.fresh with
    | none =>
      have hfail : allocates (c :: cs) = false := by simp [allocates, hc]
      obtain ⟨rfl, rfl⟩ : s = t ∧ _ = pc₁ := by
        simpa [Pc.step, Call.start, PushPc.step, hc] using hstep
      cases cs with
      | cons c' cs => cases hrest
      | nil =>
        obtain ⟨rfl, rfl⟩ : s = s' ∧ _ = pc := by simpa using hrest
        rw [hfail]
        exact ⟨(Option.some.inj hret).symm, fun _ => rfl⟩
    | some n =>
      have hok : allocates (c :: cs) = true := by simp [allocates, hc]
      have hentered : pc₁.Entered := by
        obtain ⟨r, hr, heq⟩ := Option.map_eq_some_iff.mp hstep
        obtain ⟨rfl, rfl⟩ := Prod.mk.inj heq
        rcases PushPc.step_past hr with hpast | ⟨_, hnone, _⟩
        · exact hpast
        · rw [hc] at hnone
          cases hnone
      have hpc : pc.Entered := exec_invariant (P := fun r => r.2.Entered)
        (fun _ _ _ h hs => h.step hs) hentered hrest
      rw [hok]
      refine ⟨?_, fun h => absurd h (by simp)⟩
      rcases Pc.ret_eq_some hret with ⟨ok, rfl, rfl⟩ | ⟨_, rfl, _⟩
      · exact congrArg _ hpc
      · exact False.elim hpc

theorem spec_push {q : List Message} {msg : Message} (hq : q.length ≤ MAX_ENTRIES) :
    (if MAX_ENTRIES ≤ q.length then (q ++ [msg]).tail else q ++ [msg]) =
      BoundedFifo.push MAX_ENTRIES q msg := by
  by_cases hfull : MAX_ENTRIES ≤ q.length
  · have hne : q ≠ [] := List.ne_nil_of_length_pos (Nat.lt_of_lt_of_le (by decide) hfull)
    rw [if_pos hfull, BoundedFifo.push_of_full _ (Nat.le_antisymm hq hfull),
      List.tail_append_of_ne_nil hne]
  · rw [if_neg hfull, BoundedFifo.push_of_lt _ (by omega)]

theorem Call.spec_length_le {call : Call} {allocated : Bool} {q : List Message}
    (hq : q.length ≤ MAX_ENTRIES) : (call.spec allocated q).1.length ≤ MAX_ENTRIES := by
  cases call with
  | pushRear msg =>
    cases allocated with
    | true => exact BoundedFifo.push_length_le msg (by decide) hq
    | false => exact hq
  | popFront => exact Nat.le_trans (BoundedFifo.pop_length_le q) hq

theorem Represents.call {q : List Message} {s s' : Dequeue} {ns : List Node} {call : Call}
    {cs : List Choice} {ret : Ret} (h : Represents s ns q)
    (hrun : call.run cs s = some (s', ret)) :
    (∃ ns', Represents s' ns' (call.spec (allocates cs) q).1) ∧
      ret = (call.spec (allocates cs) q).2 := by
  obtain ⟨pc, hexec, hret⟩ := Call.run_eq_some.mp hrun
  obtain ⟨live, hinv⟩ := (CallInv.start h.holds call).exec hexec
  suffices hs : Holds s' live (call.spec (allocates cs) q).1 ∧
      ret = (call.spec (allocates cs) q).2 from
    ⟨⟨live, hs.1.represents (Call.spec_length_le h.bounded)⟩, hs.2⟩
  cases call with
  | pushRear msg =>
    obtain ⟨hok, _⟩ := pushRear_ret hrun
    rcases Pc.ret_eq_some hret with ⟨ok, rfl, rfl⟩ | ⟨_, _, rfl⟩
    · have halloc : ok = allocates cs := Ret.pushed.inj hok
      cases ok with
      | true =>
        simp only [Call.spec, ← halloc, if_true, ← spec_push h.bounded]
        exact ⟨hinv, trivial⟩
      | false =>
        simp only [Call.spec, ← halloc, Bool.false_eq_true, if_false]
        exact ⟨hinv, trivial⟩
    · cases hok
  | popFront =>
    rcases Pc.ret_eq_some hret with ⟨_, rfl, _⟩ | ⟨msg, rfl, rfl⟩
    · exact False.elim hinv
    · exact ⟨hinv.1, congrArg Ret.popped hinv.2⟩

theorem Represents.calls {calls : List (Call × List Choice)} {q : List Message} {s s' : Dequeue}
    {ns : List Node} {rets : List Ret} (h : Represents s ns q)
    (hrun : runCalls calls s = some (s', rets)) :
    (∃ ns', Represents s' ns' (specCalls calls q).1) ∧ rets = (specCalls calls q).2 := by
  induction calls generalizing q s ns rets with
  | nil =>
    obtain ⟨rfl, rfl⟩ : s = s' ∧ [] = rets := by simpa [runCalls] using hrun
    exact ⟨⟨ns, h⟩, rfl⟩
  | cons head calls ih =>
    obtain ⟨call, cs⟩ := head
    obtain ⟨⟨t, ret⟩, hcall, hrest⟩ := Option.bind_eq_some_iff.mp hrun
    obtain ⟨⟨s'', rets'⟩, hcalls, heq⟩ := Option.map_eq_some_iff.mp hrest
    obtain ⟨rfl, rfl⟩ := Prod.mk.inj heq
    obtain ⟨⟨ns', h'⟩, hret⟩ := h.call hcall
    obtain ⟨hfinal, hrets⟩ := ih h' hcalls
    exact ⟨hfinal, by rw [hret, hrets]; rfl⟩

end Naarad.Queue
