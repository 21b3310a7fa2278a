import Naarad.EndToEnd
import Naarad.HookSteps
import Naarad.Lib.Transactions
import Naarad.ScratchRefinement

/-!
# Hooks on several CPUs run one at a time

A hook uses `inode_cache` once at most, and everything else it writes is its CPU's own. So hooks that
run on different CPUs at the same time do what they do one after the other, in the order in which
they use the cache.
-/

set_option autoImplicit false

namespace Naarad.Scratch

open CharArray Hooks LabelledRun Transactions
open Function (update)

abbrev Cache := UInt64 → Option Record

/-- What belongs to one CPU: its record, the events it has submitted, and the cached record that its
hook has found. -/
structure CpuState where
  record : Record
  submitted : List Record
  cached : Option Record

/-- The events of one CPU, in order. -/
def eventsOf (cpu : Nat) (events : List (Nat × Record)) : List Record :=
  (events.filter (·.1 = cpu)).map Prod.snd

namespace HookStep

def copyName : Action Cache CpuState :=
  .own fun p => match p.cached with
    | some cached =>
      { p with record :=
        { p.record with data := { p.record.data with filename := cached.data.filename } } }
    | none => p

def actions : HookStep → List (Action Cache CpuState)
  | .store f => [.own fun p => { p with record := f p.record }]
  | .update_elem h ino =>
    [.shared fun cache p => (if h.update_elem then update cache ino (some p.record) else cache, p)]
  | .copyCached ino => [.shared fun cache p => (cache, { p with cached := cache ino }), copyName]
  | .perf_event_output => [.own fun p => { p with submitted := p.submitted ++ [p.record] }]

theorem countP_actions (step : HookStep) :
    step.actions.countP Action.isShared = if step.usesCache then 1 else 0 := by
  cases step <;> rfl

theorem countP_flatMap (steps : List HookStep) :
    (steps.flatMap actions).countP Action.isShared = steps.countP usesCache := by
  induction steps with
  | nil => rfl
  | cons step steps ih =>
    rw [List.flatMap_cons, List.countP_append, countP_actions, ih, List.countP_cons, Nat.add_comm]

end HookStep

theorem countP_reportSteps (r : Rodata) (h : Helpers) (n : Nat) (op : String) :
    (reportSteps r h n op).countP HookStep.usesCache = 0 := rfl

theorem countP_bodySteps (r : Rodata) (h : Helpers) (call : HookCall) :
    (bodySteps r h call).countP HookStep.usesCache ≤ 1 := by
  cases call with
  | file_open file =>
    rw [bodySteps, List.countP_append, countP_reportSteps]
    split
    · exact Nat.le_refl 1
    · exact Nat.zero_le 1
  | file_permission file mask =>
    have hif (c : Prop) [Decidable c] (n : Nat) (op : String) :
        (if c then reportSteps r h n op else []).countP HookStep.usesCache = 0 := by
      split <;> rfl
    rw [bodySteps, List.countP_append, List.countP_append, hif, hif]
    exact Nat.le_refl 1
  | inode_create dir dentry => exact Nat.zero_le 1
  | inode_link dir dentry => exact Nat.zero_le 1
  | inode_unlink dir dentry => exact Nat.zero_le 1
  | inode_symlink dir dentry => exact Nat.zero_le 1
  | inode_mkdir dir dentry => exact Nat.zero_le 1
  | inode_rmdir dir dentry => exact Nat.zero_le 1
  | inode_mknod dir dentry => exact Nat.zero_le 1
  | inode_rename old_dir old_dentry new_dir new_dentry => exact Nat.zero_le 1

theorem countP_steps (r : Rodata) (i : Invocation) :
    (i.steps r).countP HookStep.usesCache ≤ 1 := by
  unfold Invocation.steps
  split
  · rw [List.countP_cons]
    exact countP_bodySteps r i.helpers i.call
  · exact Nat.zero_le 1

def Invocation.transaction (r : Rodata) (i : Invocation) : Transaction Cache CpuState where
  actions := (i.steps r).flatMap HookStep.actions
  one_shared := by
    rw [HookStep.countP_flatMap]
    exact countP_steps r i

def HookPc.actions : HookPc → List (Action Cache CpuState)
  | .run steps => steps.flatMap HookStep.actions
  | .copy _ steps => HookStep.copyName :: steps.flatMap HookStep.actions

def CpuLabel.toLabel : CpuLabel → Label Nat Invocation
  | .enter i => .enter i
  | .step cpu _ => .act cpu

/-- What the state of a CPU and the actions left to it say about the maps in memory. -/
structure Cpus.OnCpu (cpu : Nat) (s : Cpus) (p : CpuState) (as : List (Action Cache CpuState)) :
    Prop where
  record : p.record = s.data_array cpu
  submitted : p.submitted = eventsOf cpu s.events
  cached : ∀ cached steps, s.pc cpu = .copy cached steps → p.cached = cached.map s.elems
  rest : as = (s.pc cpu).actions

/-- The hooks in memory as transactions. -/
structure Cpus.Refines (s : Cpus) (t : Sys Nat Invocation Cache CpuState) : Prop where
  common : t.common = s.inode_cache
  current : t.current = s.current
  cpus : ∀ cpu, s.OnCpu cpu (t.own cpu) (t.rest cpu)

section Refinement
variable {r : Rodata} {cpu other elem : Nat} {s s' : Cpus} {p p' : CpuState} {cache : Cache}
  {as : List (Action Cache CpuState)} {steps : List HookStep} {t : Sys Nat Invocation Cache CpuState}

theorem eventsOf_concat_self (events : List (Nat × Record)) (rec : Record) :
    eventsOf cpu (events ++ [(cpu, rec)]) = eventsOf cpu events ++ [rec] := by
  unfold eventsOf
  rw [List.filter_append, List.map_append, List.filter_cons_of_pos (by simp)]
  rfl

theorem eventsOf_concat_of_ne (events : List (Nat × Record)) (rec : Record) (h : other ≠ cpu) :
    eventsOf other (events ++ [(cpu, rec)]) = eventsOf other events := by
  unfold eventsOf
  rw [List.filter_append, List.filter_cons_of_neg (by simpa using h.symm), List.filter_nil,
    List.append_nil]

namespace Cpus

/-- Where nothing of a CPU changes, and no element that its hook still copies from. -/
theorem OnCpu.frame (h : s.OnCpu cpu p as) (hrecord : s'.data_array cpu = s.data_array cpu)
    (hevents : eventsOf cpu s'.events = eventsOf cpu s.events) (hpc : s'.pc cpu = s.pc cpu)
    (helems : ∀ elem, (s.pc cpu).held = some elem → s'.elems elem = s.elems elem) :
    s'.OnCpu cpu p as := by
  refine ⟨h.record.trans hrecord.symm, h.submitted.trans hevents.symm, ?_, hpc ▸ h.rest⟩
  intro cached steps hcopy
  rw [hpc] at hcopy
  rw [h.cached cached steps hcopy]
  cases cached with
  | none => rfl
  | some elem =>
    rw [Option.map_some, Option.map_some, helems elem]
    rw [hcopy]
    rfl

theorem OnCpu.goOn_run (hrecord : p.record = s.data_array cpu)
    (hsubmitted : p.submitted = eventsOf cpu s.events) (steps : List HookStep) :
    (s.goOn cpu (.run steps)).OnCpu cpu p (steps.flatMap HookStep.actions) := by
  have hpc : (s.goOn cpu (.run steps)).pc cpu = .run steps := Function.update_self ..
  refine ⟨hrecord, hsubmitted, ?_, ?_⟩
  · intro cached steps hcopy
    rw [hpc] at hcopy
    cases hcopy
  · rw [hpc]
    rfl

theorem OnCpu.goOn_of_ne (h : s.OnCpu other p as) (hne : other ≠ cpu) (pc : HookPc) :
    (s.goOn cpu pc).OnCpu other p as :=
  h.frame rfl rfl (Function.update_of_ne hne ..) fun _ _ => rfl

theorem Refines.act (h : s.Refines t) (hcommon : cache = s'.inode_cache)
    (hcurrent : s'.current = s.current) (hown : s'.OnCpu cpu p as)
    (hothers : ∀ other, other ≠ cpu → s'.OnCpu other (t.own other) (t.rest other)) :
    s'.Refines { t with
      common := cache, own := update t.own cpu p, rest := update t.rest cpu as } := by
  refine ⟨hcommon, h.current.trans hcurrent.symm, ?_⟩
  intro d
  dsimp only
  by_cases hd : d = cpu
  · subst hd
    rw [Function.update_self, Function.update_self]
    exact hown
  · rw [Function.update_of_ne hd, Function.update_of_ne hd]
    exact hothers d hd

/-- The CPU is about to take the first of these actions. -/
theorem Refines.rest (h : s.Refines t) {pc : HookPc} (hpc : s.pc cpu = pc) :
    t.rest cpu = pc.actions := hpc ▸ (h.cpus cpu).rest

theorem Refines.store (h : s.Refines t) (f : Record → Record) (steps : List HookStep) :
    ((s.store cpu f).goOn cpu (.run steps)).Refines { t with
      common := t.common
      own := update t.own cpu { t.own cpu with record := f (t.own cpu).record }
      rest := update t.rest cpu (steps.flatMap HookStep.actions) } := by
  obtain ⟨hrecord, hsubmitted, _, _⟩ := h.cpus cpu
  refine h.act h.common rfl ?_ ?_
  · apply OnCpu.goOn_run
    · dsimp only [Cpus.store]
      rw [Function.update_self, hrecord]
    · exact hsubmitted
  · intro other hother
    apply OnCpu.goOn_of_ne _ hother
    exact (h.cpus other).frame (Function.update_of_ne hother ..) rfl rfl fun _ _ => rfl

theorem inode_cache_update (s : Cpus) (ino : UInt64) (rec : Record)
    (hfree : ∀ key, s.buckets key ≠ some elem) :
    inode_cache { s with
      buckets := update s.buckets ino (some elem), elems := update s.elems elem rec } =
      update s.inode_cache ino (some rec) := by
  funext key
  unfold inode_cache
  dsimp only
  by_cases hkey : key = ino
  · subst hkey
    rw [Function.update_self, Function.update_self, Option.map_some, Function.update_self]
  · rw [Function.update_of_ne hkey, Function.update_of_ne hkey]
    cases hbucket : s.buckets key with
    | none => rfl
    | some elem' =>
      have hne : elem' ≠ elem := by
        rintro rfl
        exact hfree key hbucket
      rw [Option.map_some, Option.map_some, Function.update_of_ne hne]

theorem Refines.update_elem (h : s.Refines t) (hs : Helpers) (ino : UInt64) (steps : List HookStep)
    (hfree : hs.update_elem = true →
      (∀ key, s.buckets key ≠ some elem) ∧ ∀ other, (s.pc other).held ≠ some elem) :
    ((s.update_elem hs cpu elem ino).goOn cpu (.run steps)).Refines { t with
      common := if hs.update_elem then update t.common ino (some (t.own cpu).record) else t.common
      own := update t.own cpu (t.own cpu)
      rest := update t.rest cpu (steps.flatMap HookStep.actions) } := by
  obtain ⟨hrecord, hsubmitted, _, _⟩ := h.cpus cpu
  unfold Cpus.update_elem
  by_cases hupdate : hs.update_elem = true
  · obtain ⟨hbuckets, hheld⟩ := hfree hupdate
    rw [if_pos hupdate, if_pos hupdate]
    refine h.act ?_ rfl ?_ ?_
    · rw [h.common, hrecord]
      exact (inode_cache_update s ino (s.data_array cpu) hbuckets).symm
    · apply OnCpu.goOn_run
      · exact hrecord
      · exact hsubmitted
    · intro other hother
      apply OnCpu.goOn_of_ne _ hother
      refine (h.cpus other).frame rfl rfl rfl ?_
      intro held hheld'
      refine Function.update_of_ne ?_ ..
      rintro rfl
      exact hheld other hheld'
  · rw [if_neg hupdate, if_neg hupdate]
    refine h.act h.common rfl (.goOn_run hrecord hsubmitted steps) ?_
    intro other hother
    exact (h.cpus other).goOn_of_ne hother _

theorem Refines.lookup (h : s.Refines t) (ino : UInt64) (steps : List HookStep) :
    (s.goOn cpu (.copy (s.buckets ino) steps)).Refines { t with
      common := t.common
      own := update t.own cpu { t.own cpu with cached := t.common ino }
      rest := update t.rest cpu (HookStep.copyName :: steps.flatMap HookStep.actions) } := by
  obtain ⟨hrecord, hsubmitted, _, _⟩ := h.cpus cpu
  have hpc : (s.goOn cpu (.copy (s.buckets ino) steps)).pc cpu = .copy (s.buckets ino) steps :=
    Function.update_self ..
  refine h.act h.common rfl ⟨hrecord, hsubmitted, ?_, ?_⟩ ?_
  · intro cached steps' hcopy
    rw [hpc] at hcopy
    cases hcopy
    dsimp only
    rw [h.common]
    rfl
  · rw [hpc]
    rfl
  · intro other hother
    exact (h.cpus other).goOn_of_ne hother _

theorem Refines.perf_event_output (h : s.Refines t) (steps : List HookStep) :
    ((s.perf_event_output cpu).goOn cpu (.run steps)).Refines { t with
      common := t.common
      own := update t.own cpu
        { t.own cpu with submitted := (t.own cpu).submitted ++ [(t.own cpu).record] }
      rest := update t.rest cpu (steps.flatMap HookStep.actions) } := by
  obtain ⟨hrecord, hsubmitted, _, _⟩ := h.cpus cpu
  refine h.act h.common rfl ?_ ?_
  · apply OnCpu.goOn_run
    · exact hrecord
    · dsimp only [Cpus.perf_event_output]
      rw [eventsOf_concat_self, hsubmitted, hrecord]
  · intro other hother
    apply OnCpu.goOn_of_ne _ hother
    exact (h.cpus other).frame rfl (eventsOf_concat_of_ne _ _ hother) rfl fun _ _ => rfl

theorem Refines.copy (h : s.Refines t) {cached : Option Nat} {steps : List HookStep}
    (hpc : s.pc cpu = .copy cached steps) :
    ((s.copy cpu cached).goOn cpu (.run steps)).Refines { t with
      common := t.common
      own := update t.own cpu (HookStep.copyName.run (t.common, t.own cpu)).2
      rest := update t.rest cpu (steps.flatMap HookStep.actions) } := by
  obtain ⟨hrecord, hsubmitted, hcached, _⟩ := h.cpus cpu
  have hfound := hcached cached steps hpc
  cases cached with
  | none =>
    refine h.act h.common rfl ?_ ?_
    · apply OnCpu.goOn_run
      · simp only [HookStep.copyName, Action.run, hfound, Option.map_none]
        exact hrecord
      · simp only [HookStep.copyName, Action.run, hfound, Option.map_none]
        exact hsubmitted
    · intro other hother
      exact (h.cpus other).goOn_of_ne hother _
  | some elem =>
    refine h.act h.common rfl ?_ ?_
    · apply OnCpu.goOn_run
      · simp only [HookStep.copyName, Action.run, hfound, Option.map_some, Cpus.copy, Cpus.store]
        rw [Function.update_self, hrecord]
      · simp only [HookStep.copyName, Action.run, hfound, Option.map_some]
        exact hsubmitted
    · intro other hother
      apply OnCpu.goOn_of_ne _ hother
      exact (h.cpus other).frame (Function.update_of_ne hother ..) rfl rfl fun _ _ => rfl

theorem Refines.enter (h : s.Refines t) (i : Invocation) :
    ({ s with current := update s.current i.cpu (some i) }.goOn i.cpu (.run (i.steps r))).Refines
      { t with
        current := update t.current i.cpu (some i)
        rest := update t.rest i.cpu (i.transaction r).actions } := by
  refine ⟨h.common, ?_, ?_⟩
  · dsimp only
    rw [h.current]
    rfl
  · intro d
    dsimp only
    by_cases hd : d = i.cpu
    · subst hd
      rw [Function.update_self]
      apply OnCpu.goOn_run
      · exact (h.cpus i.cpu).record
      · exact (h.cpus i.cpu).submitted
    · rw [Function.update_of_ne hd]
      apply OnCpu.goOn_of_ne _ hd
      exact (h.cpus d).frame rfl rfl rfl fun _ _ => rfl

theorem any_actions (steps : List HookStep) :
    (steps.flatMap HookStep.actions).any Action.isShared = steps.any HookStep.usesCache := by
  rw [List.any_flatMap]
  congr 1
  funext step
  cases step <;> rfl

/-- A step in memory is the step of the transactions, with the same hook taking effect. -/
theorem Refines.step {l : CpuLabel} (h : s.Refines t) (hfree : NoReuse l s)
    (hstep : Cpus.step r l s = some s') :
    ∃ t', Transactions.step Invocation.cpu (Invocation.transaction r) l.toLabel t = some t' ∧
      s'.Refines t' ∧
      Cpus.effects r l s = Transactions.effects (Invocation.transaction r) l.toLabel t := by
  cases l with
  | enter i =>
    unfold Cpus.step at hstep
    dsimp only at hstep
    split at hstep
    · rename_i hpc
      cases hstep
      have hrest : t.rest i.cpu = [] := h.rest hpc
      refine ⟨_, step_enter hrest, h.enter i, ?_⟩
      have hany : (i.transaction r).actions.any Action.isShared =
        (i.steps r).any HookStep.usesCache := any_actions (i.steps r)
      simp only [Cpus.effects, Transactions.effects, CpuLabel.toLabel, hany]
    · cases hstep
  | step cpu elem =>
    unfold Cpus.step at hstep
    dsimp only at hstep
    split at hstep
    · cases hstep
    · rename_i f steps hpc
      cases hstep
      have hrest := h.rest hpc
      refine ⟨_, step_act hrest, h.store f steps, ?_⟩
      rw [CpuLabel.toLabel, effects_own hrest, Cpus.effects, hpc]
      rfl
    · rename_i hs ino steps hpc
      cases hstep
      have hrest := h.rest hpc
      refine ⟨_, step_act hrest, h.update_elem hs ino steps ?_, ?_⟩
      · intro hupdate
        apply hfree
        rw [hpc]
        exact hupdate
      · rw [CpuLabel.toLabel, effects_shared hrest, Cpus.effects, hpc, h.current]
        rfl
    · rename_i ino steps hpc
      cases hstep
      have hrest := h.rest hpc
      refine ⟨_, step_act hrest, h.lookup ino steps, ?_⟩
      rw [CpuLabel.toLabel, effects_shared hrest, Cpus.effects, hpc, h.current]
      rfl
    · rename_i steps hpc
      cases hstep
      have hrest := h.rest hpc
      refine ⟨_, step_act hrest, h.perf_event_output steps, ?_⟩
      rw [CpuLabel.toLabel, effects_own hrest, Cpus.effects, hpc]
      rfl
    · rename_i cached steps hpc
      cases hstep
      have hrest := h.rest hpc
      refine ⟨_, step_act hrest, h.copy hpc, ?_⟩
      rw [CpuLabel.toLabel, effects_own hrest, Cpus.effects, hpc]

end Cpus
end Refinement

/-! Whole hooks, one after the other. -/

/-- The state in common and that of one CPU are those of the maps. -/
structure Sees (cpu : Nat) (sp : Cache × CpuState) (m : Maps) : Prop where
  inode_cache : sp.1 = m.inode_cache
  record : sp.2.record = m.data_array cpu
  submitted : sp.2.submitted = eventsOf cpu m.events

section Sequential
variable {r : Rodata} {cpu other : Nat} {m : Maps} {sp : Cache × CpuState}

theorem Sees.store (h : Sees cpu sp m) (f : Record → Record) :
    Sees cpu (sp.1, { sp.2 with record := f sp.2.record }) (Scratch.store cpu f m) := by
  refine ⟨h.inode_cache, ?_, h.submitted⟩
  dsimp only [Scratch.store]
  rw [Function.update_self, h.record]

theorem Sees.run (h : Sees cpu sp m) (step : HookStep) :
    Sees cpu (runAll step.actions sp) (step.run cpu m) := by
  cases step with
  | store f => exact h.store f
  | update_elem hs ino =>
    dsimp only [HookStep.run, Scratch.update_elem]
    refine ⟨?_, ?_, ?_⟩
    · dsimp only [HookStep.actions, runAll, List.foldl_cons, List.foldl_nil, Action.run]
      rw [h.inode_cache, h.record]
      split <;> rfl
    · rw [apply_ite Maps.data_array, ite_self]
      exact h.record
    · rw [apply_ite Maps.events, ite_self]
      exact h.submitted
  | copyCached ino =>
    dsimp only [HookStep.run, Scratch.copyCached, HookStep.actions, HookStep.copyName, runAll,
      List.foldl_cons, List.foldl_nil, Action.run]
    rw [h.inode_cache]
    cases m.inode_cache ino with
    | none => exact ⟨rfl, h.record, h.submitted⟩
    | some cached =>
      have hstore := h.store fun rec =>
        { rec with data := { rec.data with filename := cached.data.filename } }
      exact ⟨rfl, hstore.record, hstore.submitted⟩
  | perf_event_output =>
    refine ⟨h.inode_cache, h.record, ?_⟩
    dsimp only [HookStep.run, Scratch.perf_event_output, HookStep.actions, runAll, List.foldl_cons,
      List.foldl_nil, Action.run]
    rw [eventsOf_concat_self, h.submitted, h.record]

theorem Sees.runSteps (h : Sees cpu sp m) (steps : List HookStep) :
    Sees cpu (runAll (steps.flatMap HookStep.actions) sp) (runSteps cpu steps m) := by
  induction steps generalizing sp m with
  | nil => exact h
  | cons step steps ih =>
    rw [List.flatMap_cons, runAll_append]
    exact ih (h.run step)

/-- A step leaves the records and the events of the other CPUs alone. -/
theorem HookStep.run_other (step : HookStep) (m : Maps) (hother : other ≠ cpu) :
    (step.run cpu m).data_array other = m.data_array other ∧
      eventsOf other (step.run cpu m).events = eventsOf other m.events := by
  have hstore (f : Record → Record) (m : Maps) :
      (Scratch.store cpu f m).data_array other = m.data_array other :=
    Function.update_of_ne hother ..
  cases step with
  | store f => exact ⟨hstore f m, rfl⟩
  | update_elem hs ino =>
    dsimp only [HookStep.run, Scratch.update_elem]
    split <;> exact ⟨rfl, rfl⟩
  | copyCached ino =>
    dsimp only [HookStep.run, Scratch.copyCached]
    split
    · exact ⟨hstore _ m, rfl⟩
    · exact ⟨rfl, rfl⟩
  | perf_event_output => exact ⟨rfl, eventsOf_concat_of_ne _ _ hother⟩

theorem runSteps_other (steps : List HookStep) (m : Maps) (hother : other ≠ cpu) :
    (runSteps cpu steps m).data_array other = m.data_array other ∧
      eventsOf other (runSteps cpu steps m).events = eventsOf other m.events := by
  induction steps generalizing m with
  | nil => exact ⟨rfl, rfl⟩
  | cons step steps ih =>
    obtain ⟨hdata, hevents⟩ := step.run_other m hother
    obtain ⟨hdata', hevents'⟩ := ih (step.run cpu m)
    exact ⟨hdata'.trans hdata, hevents'.trans hevents⟩

theorem serial_sees (start : Cache × (Nat → CpuState)) (order : List Invocation)
    (h : ∀ cpu, Sees cpu (start.1, start.2 cpu) m) (cpu : Nat) :
    Sees cpu ((serial Invocation.cpu (Invocation.transaction r) order start).1,
      (serial Invocation.cpu (Invocation.transaction r) order start).2 cpu)
      (invokeAll r order m) := by
  induction order generalizing start m with
  | nil => exact h cpu
  | cons i order ih =>
    have hself := (h i.cpu).runSteps (i.steps r)
    rw [← invoke_eq_steps] at hself
    apply ih
    intro d
    dsimp only
    by_cases hd : d = i.cpu
    · subst hd
      rw [Function.update_self]
      exact hself
    · obtain ⟨hdata, hevents⟩ := runSteps_other (i.steps r) m hd
      rw [← invoke_eq_steps] at hdata hevents
      rw [Function.update_of_ne hd]
      exact ⟨hself.inode_cache, (h d).record.trans hdata.symm, (h d).submitted.trans hevents.symm⟩

end Sequential

/-- The loaded program before the first hook, as transactions. -/
def Cpus.sys (data : Nat → Record) : Sys Nat Invocation Cache CpuState where
  common _ := none
  own cpu := ⟨data cpu, [], none⟩
  current _ := none
  rest _ := []

theorem Cpus.refines_start (data : Nat → Record) : (Cpus.start data).Refines (Cpus.sys data) := by
  refine ⟨rfl, rfl, ?_⟩
  intro cpu
  refine ⟨rfl, rfl, ?_, rfl⟩
  intro cached steps hcopy
  cases hcopy

theorem entered_toLabel (ls : List CpuLabel) :
    Transactions.entered (ls.map CpuLabel.toLabel) = entered ls := by
  induction ls with
  | nil => rfl
  | cons l ls ih =>
    cases l with
    | enter i => exact congrArg (List.cons i) ih
    | step cpu elem => exact ih

/-- The hooks of `order`, run one at a time, leave the same cache; on a CPU that is in no hook they
are those that it has entered, and leave the same record and the same events. -/
structure OneAtATime (r : Rodata) (data : Nat → Record) (calls order : List Invocation) (s : Cpus) :
    Prop where
  inode_cache : s.inode_cache = (invokeAll r order ⟨data, fun _ => none, []⟩).inode_cache
  entered : ∀ cpu, order.filter (·.cpu = cpu) <+: calls.filter (·.cpu = cpu)
  idle : ∀ cpu, s.pc cpu = .run [] →
    order.filter (·.cpu = cpu) = calls.filter (·.cpu = cpu) ∧
      s.data_array cpu = (invokeAll r order ⟨data, fun _ => none, []⟩).data_array cpu ∧
      eventsOf cpu s.events = eventsOf cpu (invokeAll r order ⟨data, fun _ => none, []⟩).events

/-- At every moment it is as if the hooks that have taken effect had run one at a time. -/
theorem one_at_a_time {r : Rodata} {data : Nat → Record} {ls : List CpuLabel} {s : Cpus}
    (hrun : exec (Cpus.step r) ls (.start data) = some s)
    (hfree : Along (Cpus.step r) NoReuse ls (.start data)) :
    OneAtATime r data (entered ls) (outputs (Cpus.step r) (Cpus.effects r) ls (.start data)) s := by
  obtain ⟨t, ht, hrefines, houtputs⟩ := outputs_simulated
    (fun l s s' t h hok hstep => h.step hok hstep) (Cpus.refines_start data) hfree hrun
  have hserialized := serializable (fun _ => rfl) ht
  rw [entered_toLabel, ← houtputs] at hserialized
  generalize outputs (Cpus.step r) (Cpus.effects r) ls (.start data) = order at hserialized ⊢
  have hstart : ∀ cpu, Sees cpu ((Cpus.sys data).common, (Cpus.sys data).own cpu)
      ⟨data, fun _ => none, []⟩ := fun _ => ⟨rfl, rfl, rfl⟩
  have hsees := serial_sees (r := r) ((Cpus.sys data).common, (Cpus.sys data).own) order hstart
  refine ⟨?_, ?_, ?_⟩
  · rw [← hrefines.common, hserialized.common]
    exact (hsees 0).inode_cache
  · intro cpu
    cases hserialized.progress cpu with
    | after _ _ hentered => exact hentered ▸ List.prefix_refl _
    | before k _ _ _ _ _ _ _ hentered => exact ⟨[k], hentered.symm⟩
  · intro cpu hpc
    obtain ⟨hown, hentered⟩ := (hserialized.progress cpu).idle (hrefines.rest hpc)
    obtain ⟨hrecord, hsubmitted, _, _⟩ := hrefines.cpus cpu
    refine ⟨hentered.symm, ?_, ?_⟩
    · rw [← hrecord, hown]
      exact (hsees cpu).record
    · rw [← hsubmitted, hown]
      exact (hsees cpu).submitted

/-- With the documented helpers, the cache is the one that the hooks of `Hooks` leave. -/
theorem cache_refines {r : Rodata} {data : Nat → Record} {ls : List CpuLabel} {s : Cpus}
    {calls : List (Task × Invocation)} {M : Type} {bh : BpfHelpers M} (hbh : bh.Documented)
    {empty : M} (hempty : ∀ ino, bh.bpf_map_lookup_elem empty ino = none)
    (hrun : exec (Cpus.step r) ls (.start data) = some s)
    (hfree : Along (Cpus.step r) NoReuse ls (.start data))
    (hcalls : outputs (Cpus.step r) (Cpus.effects r) ls (.start data) = calls.map Prod.snd)
    (hdoc : AllDocumented bh r calls ⟨some .zero, empty, []⟩) (key : UInt64) :
    (s.inode_cache key).map Record.data = bh.bpf_map_lookup_elem
      (Hooks.invokeAll bh r (calls.map fun c => (c.1, c.2.call)) ⟨some .zero, empty, []⟩).inode_cache
        key := by
  have hstart : Scratch.Refines bh ⟨data, fun _ => none, []⟩ ⟨some .zero, empty, []⟩ :=
    ⟨rfl, fun ino => (hempty ino).symm, rfl⟩
  rw [(one_at_a_time hrun hfree).inode_cache, hcalls]
  exact (hstart.invokeAll hbh hdoc).inode_cache key

/-- The helpers as they answer for a task, with room in the cache or without. -/
def Helpers.ofTask (task : Task) (update_elem : Bool) : Helpers where
  pid_tgid := task.pid_tgid
  uid_gid := task.uid_gid
  ktime := task.ktime
  comm _ _ := task.comm
  d_path := BpfHelpers.reference.bpf_d_path
  probe_read_str _ s buf := BpfHelpers.reference.bpf_probe_read_str buf s
  update_elem := update_elem

example (task : Task) (update_elem : Bool) :
    Documented .reference task (.ofTask task update_elem) :=
  ⟨rfl, rfl, rfl, fun _ _ => rfl, fun _ _ => rfl, fun _ _ _ => rfl⟩

/-- CPU 0 opens a file with the number `ino`. -/
def openOn0 (ino : UInt64) (path : List UInt8) : Invocation :=
  ⟨0, .ofTask sampleTask true, .file_open ⟨sampleTarget, ⟨1, ino⟩, true, path⟩⟩

/-- CPU 1 reads a file with the number `ino`. -/
def readOn1 (ino : UInt64) (path : List UInt8) : Invocation :=
  ⟨1, .ofTask sampleTask true, .file_permission ⟨sampleTarget, ⟨1, ino⟩, true, path⟩ MAY_READ⟩

/-- While CPU 1 is about to copy the name of `a`, `a` is opened again and gets another element, and
its first one goes to `b`. -/
def reuse : List CpuLabel :=
  .enter (openOn0 8 (ascii "/t/a")) :: List.replicate 6 (.step 0 0) ++
    .enter (readOn1 8 (ascii "/t/a")) :: List.replicate 2 (.step 1 0) ++
    .enter (openOn0 8 (ascii "/t/a")) :: List.replicate 6 (.step 0 1) ++
    .enter (openOn0 9 (ascii "/t/b")) :: List.replicate 6 (.step 0 0) ++
    List.replicate 4 (.step 1 0)

/-- The read of `a` is then reported under the name of `b`. -/
example : (exec (Cpus.step sampleRodata) reuse (.start fun _ => .zero)).map (fun s =>
    (eventsOf 1 s.events).map fun rec => rec.data.filename.str) = some [ascii "/t/b"] := by
  decide +kernel

end Naarad.Scratch
