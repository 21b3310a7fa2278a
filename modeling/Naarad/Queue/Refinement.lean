import Naarad.Queue.Sequential

/-!
# Refinement of the bounded FIFO, with termination

Every step of a call that runs alone and does not fail spuriously brings the call closer to its
return: `rank` drops. A loop goes round once more only when it has moved a lagging tail forward,
so a call returns as soon as its exchanges stop failing.
-/

set_option autoImplicit false

namespace Naarad.Queue

open LinkedHeap LabelledRun

def lag (s : Dequeue) : Nat :=
  match deref s.heap s.tail with
  | some cell => if cell.next = none then 0 else 1
  | none => 0

theorem lag_of_next {s : Dequeue} {cell : Cell Message} (hcell : deref s.heap s.tail = some cell)
    (hne : cell.next ≠ none) : lag s = 1 := by
  simp [lag, hcell, hne]

theorem lag_le (s : Dequeue) : lag s ≤ 1 := by
  unfold lag
  split
  · split <;> omega
  · omega

theorem lag_retail {s : Dequeue} {ns : List Node} {tail next : Option Addr} {cell : Cell Message}
    (h : Linked s ns) (htail : tail = s.tail) (hcell : deref s.heap tail = some cell)
    (hnext : cell.next = next) (hne : next ≠ none) : lag { s with tail := next } = 0 := by
  obtain ⟨_, _, y, _, hy, hycell⟩ := h.lagging htail hcell hnext hne
  simp [lag, hy, hycell]

def PopPc.rank (s : Dequeue) : PopPc → Nat
  | .loadHead => 8 + 10 * lag s
  | .loadTail _ => 7 + 10 * lag s
  | .loadNext _ _ => 6 + 10 * lag s
  | .recheck _ _ _ => 5 + 10 * lag s
  | .help _ _ => 9
  | .copyMsg _ _ => 4
  | .casHead _ _ _ => 3
  | .fetchSub _ _ => 2
  | .free _ _ => 1
  | .done _ => 0
  | .crash => 0

def PushPc.rank (s : Dequeue) : PushPc → Nat
  | .malloc _ => 40
  | .setMsg _ _ => 39
  | .setNext _ => 38
  | .loadTail _ => 27 + 10 * lag s
  | .loadNext _ _ => 26 + 10 * lag s
  | .recheck _ _ _ => 25 + 10 * lag s
  | .help _ _ _ => 28
  | .casNext _ _ => 24
  | .swing _ _ => 20
  | .fetchAdd => 19
  | .evict pop => pop.rank s
  | .done _ => 0
  | .crash => 0

theorem exchanges_of_eq {c : Choice} {p q : Option Addr} (hc : c.spurious = false) (h : p = q) :
    exchanges c p q = true := by
  simp [exchanges, hc, h]

theorem PopInv.rank_lt {q : List Message} {s s' : Dequeue} {live : List Node} {pc pc' : PopPc}
    {c : Choice} (h : PopInv q s live pc) (hc : c.spurious = false)
    (hstep : pc.step c s = some (s', pc')) : pc'.rank s' < pc.rank s := by
  have hlag := lag_le s
  cases pc with
  | loadNext head tail =>
    simp only [PopPc.step] at hstep
    split at hstep <;> obtain ⟨rfl, rfl⟩ := Prod.mk.inj (Option.some.inj hstep) <;>
      simp only [PopPc.rank] <;> omega
  | recheck head tail next =>
    obtain ⟨hq, hhead, htail, cell, hcell, hnext⟩ := h
    simp only [PopPc.step, if_pos hhead] at hstep
    split at hstep
    · rename_i hsame
      split at hstep
      · obtain ⟨rfl, rfl⟩ := Prod.mk.inj (Option.some.inj hstep)
        simp only [PopPc.rank]
        omega
      · rename_i hsome
        obtain ⟨rfl, rfl⟩ := Prod.mk.inj (Option.some.inj hstep)
        have hone : lag s = 1 :=
          lag_of_next (htail ▸ hsame ▸ hcell) (by rw [hnext]; exact hsome)
        simp only [PopPc.rank, hone]
        omega
    · obtain ⟨rfl, rfl⟩ := Prod.mk.inj (Option.some.inj hstep)
      simp only [PopPc.rank]
      omega
  | help tail next =>
    obtain ⟨hq, htail, hne, cell, hcell, hnext⟩ := h
    simp only [PopPc.step, exchanges_of_eq hc htail.symm, if_true] at hstep
    obtain ⟨rfl, rfl⟩ := Prod.mk.inj (Option.some.inj hstep)
    simp only [PopPc.rank, lag_retail hq.linked htail hcell hnext hne]
    omega
  | copyMsg head next =>
    simp only [PopPc.step] at hstep
    split at hstep <;> obtain ⟨rfl, rfl⟩ := Prod.mk.inj (Option.some.inj hstep) <;>
      simp only [PopPc.rank] <;> omega
  | casHead head next msg =>
    obtain ⟨hq, hhead, _⟩ := h
    simp only [PopPc.step, exchanges_of_eq hc hhead.symm, if_true] at hstep
    obtain ⟨rfl, rfl⟩ := Prod.mk.inj (Option.some.inj hstep)
    simp only [PopPc.rank]
    omega
  | free head msg =>
    obtain ⟨ns, hns, _⟩ := h
    obtain ⟨v, a, rfl, _, hcell⟩ := hns.live_eq
    simp only [PopPc.step, hcell] at hstep
    obtain ⟨rfl, rfl⟩ := Prod.mk.inj (Option.some.inj hstep)
    simp only [PopPc.rank]
    omega
  | done ret => cases hstep
  | crash => cases hstep
  | _ =>
    obtain ⟨rfl, rfl⟩ := Prod.mk.inj (Option.some.inj hstep)
    simp only [PopPc.rank]
    omega

theorem PushInv.rank_lt {q : List Message} {msg : Message} {s s' : Dequeue} {live : List Node}
    {pc pc' : PushPc} {c : Choice} (h : PushInv q msg s live pc) (hc : c.spurious = false)
    (hstep : pc.step c s = some (s', pc')) : pc'.rank s' < pc.rank s := by
  have hlag := lag_le s
  have hlag' := lag_le s'
  cases pc with
  | malloc m =>
    simp only [PushPc.step] at hstep
    repeat' split at hstep
    · obtain ⟨rfl, rfl⟩ := Prod.mk.inj (Option.some.inj hstep)
      simp only [PushPc.rank]
      omega
    · obtain ⟨rfl, rfl⟩ := Prod.mk.inj (Option.some.inj hstep)
      simp only [PushPc.rank]
      omega
    · cases hstep
  | recheck n tail next =>
    obtain ⟨hq, hn, htail, cell, hcell, hnext⟩ := h
    simp only [PushPc.step, if_pos htail] at hstep
    split at hstep
    · obtain ⟨rfl, rfl⟩ := Prod.mk.inj (Option.some.inj hstep)
      simp only [PushPc.rank]
      omega
    · rename_i hsome
      obtain ⟨rfl, rfl⟩ := Prod.mk.inj (Option.some.inj hstep)
      have hone : lag s = 1 := lag_of_next (htail ▸ hcell) (by rw [hnext]; exact hsome)
      simp only [PushPc.rank, hone]
      omega
  | casNext n tail =>
    obtain ⟨hq, hn, htail, cell, hcell, hlast⟩ := h
    cases tail with
    | none => cases hcell
    | some t =>
      have ht : s.heap t = some cell := hcell
      simp only [PushPc.step, ht, exchanges_of_eq hc hlast, if_true] at hstep
      obtain ⟨rfl, rfl⟩ := Prod.mk.inj (Option.some.inj hstep)
      simp only [PushPc.rank]
      omega
  | help n tail next =>
    obtain ⟨hq, hn, htail, hne, cell, hcell, hnext⟩ := h
    simp only [PushPc.step, exchanges_of_eq hc htail.symm, if_true] at hstep
    obtain ⟨rfl, rfl⟩ := Prod.mk.inj (Option.some.inj hstep)
    simp only [PushPc.rank, lag_retail hq.linked htail hcell hnext hne]
    omega
  | fetchAdd =>
    obtain ⟨rfl, rfl⟩ := Prod.mk.inj (Option.some.inj hstep)
    split <;> simp only [PushPc.rank, PopPc.rank] <;> omega
  | evict pop =>
    simp only [PushPc.step] at hstep
    cases hp : pop.step c s with
    | none => simp [hp] at hstep
    | some r =>
      obtain ⟨t, pop'⟩ := r
      have hlt := h.2.2.rank_lt hc hp
      simp only [hp] at hstep
      cases pop' with
      | _ =>
        obtain ⟨rfl, rfl⟩ := Prod.mk.inj (Option.some.inj hstep)
        simpa only [PushPc.rank, PopPc.rank] using hlt
  | loadTail n =>
    obtain ⟨rfl, rfl⟩ := Prod.mk.inj (Option.some.inj hstep)
    simp only [PushPc.rank]
    omega
  | done ret => cases hstep
  | crash => cases hstep
  | _ =>
    simp only [PushPc.step] at hstep
    split at hstep <;> obtain ⟨rfl, rfl⟩ := Prod.mk.inj (Option.some.inj hstep) <;>
      simp only [PushPc.rank] <;> omega

def Pc.rank (s : Dequeue) : Pc → Nat
  | .push pc => pc.rank s
  | .pop pc => pc.rank s

theorem CallInv.rank_lt {q : List Message} {s s' : Dequeue} {live : List Node} {call : Call}
    {pc pc' : Pc} {c : Choice} (h : CallInv q s live call pc) (hc : c.spurious = false)
    (hstep : Pc.step c (s, pc) = some (s', pc')) : pc'.rank s' < pc.rank s := by
  match call, pc, h with
  | .pushRear _, .push _, h =>
    obtain ⟨r, hr, heq⟩ := Option.map_eq_some_iff.mp hstep
    obtain ⟨rfl, rfl⟩ := Prod.mk.inj heq
    exact PushInv.rank_lt h hc hr
  | .popFront, .pop _, h =>
    obtain ⟨r, hr, heq⟩ := Option.map_eq_some_iff.mp hstep
    obtain ⟨rfl, rfl⟩ := Prod.mk.inj heq
    exact PopInv.rank_lt h hc hr

/-- `malloc` never returns a block that is still allocated. -/
def Choice.Valid (c : Choice) (s : Dequeue) : Prop := ∀ n, c.fresh = some n → s.heap n = none

def Pc.Ready (c : Choice) (s : Dequeue) : Pc → Prop
  | .push (.malloc _) => c.Valid s
  | _ => True

theorem Pc.step_ready {c c' : Choice} {s s' : Dequeue} {pc pc' : Pc}
    (hstep : Pc.step c (s, pc) = some (s', pc')) : pc'.Ready c' s' := by
  cases pc with
  | pop pc =>
    obtain ⟨r, hr, heq⟩ := Option.map_eq_some_iff.mp hstep
    obtain ⟨_, rfl⟩ := Prod.mk.inj heq
    trivial
  | push pc =>
    obtain ⟨⟨t, pc₁⟩, hr, heq⟩ := Option.map_eq_some_iff.mp hstep
    obtain ⟨rfl, rfl⟩ := Prod.mk.inj heq
    cases pc₁ with
    | malloc m =>
      rcases PushPc.step_past hr with hpast | ⟨_, _, hdone⟩
      · cases hpast
      · cases hdone
    | _ => trivial

theorem PopPc.step_isSome {c : Choice} {s : Dequeue} {pc : PopPc} (hret : ∀ r, pc ≠ .done r)
    (hcrash : pc ≠ .crash) : (pc.step c s).isSome := by
  cases pc with
  | done r => exact absurd rfl (hret r)
  | crash => exact absurd rfl hcrash
  | free head msg =>
    cases head with
    | none => rfl
    | some a =>
      simp only [PopPc.step]
      split <;> rfl
  | loadHead | loadTail head | fetchSub head msg => rfl
  | _ =>
    simp only [PopPc.step]
    repeat' split
    all_goals rfl

theorem CallInv.progress {q : List Message} {s : Dequeue} {live : List Node} {call : Call}
    {pc : Pc} {c : Choice} (h : CallInv q s live call pc) (hc : pc.Ready c s)
    (hret : pc.ret = none) : ∃ s' pc', Pc.step c (s, pc) = some (s', pc') := by
  suffices hs : (Pc.step c (s, pc)).isSome by
    obtain ⟨r, hr⟩ := Option.isSome_iff_exists.mp hs
    exact ⟨r.1, r.2, hr⟩
  match call, pc, h with
  | .popFront, .pop pc, h =>
    simp only [Pc.step, Option.isSome_map]
    refine PopPc.step_isSome (fun r hr => ?_) (fun hr => ?_)
    · subst hr
      cases hret
    · subst hr
      cases h
  | .pushRear msg, .push pc, h =>
    simp only [Pc.step, Option.isSome_map]
    cases pc with
    | malloc m =>
      simp only [PushPc.step]
      split
      · rfl
      · rename_i n hn
        rw [if_pos (hc n hn)]
        rfl
    | casNext n tail =>
      cases tail with
      | none => rfl
      | some t =>
        simp only [PushPc.step]
        repeat' split
        all_goals rfl
    | evict pop =>
      have hpop : (pop.step c s).isSome := by
        refine PopPc.step_isSome h.2.1 fun hr => ?_
        subst hr
        cases h.2.2
      obtain ⟨⟨t, pop'⟩, hr⟩ := Option.isSome_iff_exists.mp hpop
      simp only [PushPc.step, hr]
      cases pop' <;> rfl
    | done ok => cases hret
    | crash => cases h
    | loadTail n | fetchAdd => rfl
    | _ =>
      simp only [PushPc.step]
      repeat' split
      all_goals rfl

theorem map_range_succ {α : Type} (f : Nat → α) (k : Nat) :
    (List.range (k + 1)).map f = f 0 :: (List.range k).map fun i => f (i + 1) := by
  rw [List.range_succ_eq_map, List.map_cons, List.map_map]
  rfl

def Returns (stream : Nat → Choice) (s : Dequeue) (pc : Pc) : Prop :=
  ∃ k s' pc', exec Pc.step ((List.range k).map stream) (s, pc) = some (s', pc') ∧
    pc'.ret.isSome

theorem Returns.of_ret {stream : Nat → Choice} {s : Dequeue} {pc : Pc} (h : pc.ret.isSome) :
    Returns stream s pc := ⟨0, s, pc, rfl, h⟩

theorem Returns.of_step {stream : Nat → Choice} {s s' : Dequeue} {pc pc' : Pc}
    (hstep : Pc.step (stream 0) (s, pc) = some (s', pc'))
    (h : Returns (fun i => stream (i + 1)) s' pc') : Returns stream s pc := by
  obtain ⟨k, t, pc'', hrun, hret⟩ := h
  refine ⟨k + 1, t, pc'', ?_, hret⟩
  rw [map_range_succ]
  exact exec_cons.mpr ⟨_, hstep, hrun⟩

theorem CallInv.returns_of_quiet {q : List Message} {call : Call} {stream : Nat → Choice}
    {s : Dequeue} {live : List Node} {pc : Pc} {bound : Nat}
    (hquiet : ∀ n, (stream n).spurious = false) (h : CallInv q s live call pc)
    (hready : pc.Ready (stream 0) s) (hrank : pc.rank s ≤ bound) : Returns stream s pc := by
  induction bound generalizing stream s live pc with
  | zero =>
    cases hret : pc.ret with
    | some r => exact .of_ret (by rw [hret]; rfl)
    | none =>
      obtain ⟨s', pc', hstep⟩ := h.progress hready hret
      have := h.rank_lt (hquiet 0) hstep
      omega
  | succ bound ih =>
    cases hret : pc.ret with
    | some r => exact .of_ret (by rw [hret]; rfl)
    | none =>
      obtain ⟨s', pc', hstep⟩ := h.progress hready hret
      obtain ⟨live', h'⟩ := h.step hstep
      have hlt := h.rank_lt (hquiet 0) hstep
      exact .of_step hstep
        (ih (fun n => hquiet (n + 1)) h' (Pc.step_ready hstep) (by omega))

/-- A call ends under every stream of choices that fails spuriously only finitely often. -/
theorem CallInv.returns {q : List Message} {call : Call} {stream : Nat → Choice}
    {s : Dequeue} {live : List Node} {pc : Pc} {N : Nat}
    (hquiet : ∀ n, N ≤ n → (stream n).spurious = false) (h : CallInv q s live call pc)
    (hready : pc.Ready (stream 0) s) : Returns stream s pc := by
  induction N generalizing stream s live pc with
  | zero => exact h.returns_of_quiet (fun n => hquiet n (Nat.zero_le n)) hready (Nat.le_refl _)
  | succ N ih =>
    cases hret : pc.ret with
    | some r => exact .of_ret (by rw [hret]; rfl)
    | none =>
      obtain ⟨s', pc', hstep⟩ := h.progress hready hret
      obtain ⟨live', h'⟩ := h.step hstep
      exact .of_step hstep
        (ih (fun n hn => hquiet (n + 1) (by omega)) h' (Pc.step_ready hstep))

theorem Represents.call_returns {q : List Message} {s : Dequeue} {ns : List Node}
    (h : Represents s ns q) (call : Call) {stream : Nat → Choice} {N : Nat}
    (hquiet : ∀ n, N ≤ n → (stream n).spurious = false) (hvalid : (stream 0).Valid s) :
    ∃ k s' ret, call.run ((List.range k).map stream) s = some (s', ret) := by
  have hready : call.start.Ready (stream 0) s := by
    cases call with
    | pushRear msg => exact hvalid
    | popFront => trivial
  obtain ⟨k, s', pc', hrun, hret⟩ := (CallInv.start h.holds call).returns hquiet hready
  obtain ⟨ret, hret⟩ := Option.isSome_iff_exists.mp hret
  exact ⟨k, s', ret, Call.run_eq_some.mpr ⟨pc', hrun, hret⟩⟩

theorem runCalls_represents {c : Choice} {s₀ s : Dequeue} {calls : List (Call × List Choice)}
    {rets : List Ret} (hinit : initDequeue c = some s₀)
    (hrun : runCalls calls s₀ = some (s, rets)) :
    (∃ ns, Represents s ns (specCalls calls []).1) ∧ rets = (specCalls calls []).2 := by
  obtain ⟨ns₀, h₀⟩ := initDequeue_represents hinit
  exact h₀.calls hrun

/-- The linked queue of one thread is a FIFO bounded by `MAX_ENTRIES`, after every sequence of
calls; a push whose `malloc` fails changes nothing; every call returns once its exchanges stop
failing spuriously. -/
theorem sequential_refinement {c : Choice} {s₀ s : Dequeue} {calls : List (Call × List Choice)}
    {rets : List Ret} (hinit : initDequeue c = some s₀)
    (hrun : runCalls calls s₀ = some (s, rets)) :
    (∃ ns, Represents s ns (specCalls calls []).1) ∧ rets = (specCalls calls []).2 ∧
    (∀ msg cs s', Call.run (.pushRear msg) cs s = some (s', .pushed false) → s' = s) ∧
    (∀ (call : Call) (stream : Nat → Choice) (N : Nat),
      (∀ n, N ≤ n → (stream n).spurious = false) → (stream 0).Valid s →
      ∃ k s' ret, call.run ((List.range k).map stream) s = some (s', ret)) := by
  obtain ⟨⟨ns, h⟩, hrets⟩ := runCalls_represents hinit hrun
  refine ⟨⟨ns, h⟩, hrets, ?_, fun call stream N hquiet hvalid => h.call_returns call hquiet hvalid⟩
  intro msg cs s' hcall
  obtain ⟨hok, hsame⟩ := pushRear_ret hcall
  exact hsame (Ret.pushed.inj hok).symm

/-- A run in which the first push loses its final exchange, the pop helps the tail, and the second
push is given the address that the pop released. -/
def sampleCalls : List (Call × List Choice) :=
  let quiet : Choice := { fresh := none }
  [(.pushRear Message.zero, { fresh := some 1 } :: List.replicate 6 quiet ++
      [{ fresh := none, spurious := true }, quiet]),
    (.popFront, List.replicate 13 quiet),
    (.pushRear { Message.zero with op := 3 }, { fresh := some 0 } :: List.replicate 8 quiet),
    (.pushRear Message.zero, [quiet])]

theorem sequential_refinement_sample : ∃ s₀ s rets, initDequeue { fresh := some 0 } = some s₀ ∧
    runCalls sampleCalls s₀ = some (s, rets) ∧
    (∃ ns, Represents s ns [{ Message.zero with op := 3 }]) ∧
    rets = [.pushed true, .popped (some Message.zero), .pushed true, .pushed false] := by
  refine ⟨_, _, _, rfl, rfl, ?_⟩
  have h := sequential_refinement (c := { fresh := some 0 }) rfl
    (show runCalls sampleCalls _ = some _ from rfl)
  exact ⟨h.1, h.2.1⟩

end Naarad.Queue
