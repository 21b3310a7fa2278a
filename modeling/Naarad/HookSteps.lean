import Naarad.Lib.LabelledRun
import Naarad.ScratchRecord

/-!
# The steps of a hook (`file_monitor.bpf.c`)

A hook is a list of steps: the helper calls, and between them the stores to the record of its CPU.
Hooks on different CPUs take their steps in any order, and `inode_cache` is common to them. A lookup
returns a pointer into the map; the name is copied behind it one step later, when the map may have
another element for the key.
-/

set_option autoImplicit false

namespace Naarad.Scratch

open CharArray Hooks
open Function (update)

inductive HookStep where
  | store (f : Record → Record)
  | update_elem (h : Helpers) (ino : UInt64)
  | copyCached (ino : UInt64)
  | perf_event_output

namespace HookStep

def storeData (f : data_t → data_t) : HookStep := .store fun rec => { rec with data := f rec.data }

/-- The step when nothing comes between its lookup and its copy. -/
def run (cpu : Nat) : HookStep → Maps → Maps
  | .store f => Scratch.store cpu f
  | .update_elem h ino => Scratch.update_elem h cpu ino
  | .copyCached ino => Scratch.copyCached cpu ino
  | .perf_event_output => Scratch.perf_event_output cpu

def usesCache : HookStep → Bool
  | .store _ => false
  | .update_elem .. => true
  | .copyCached _ => true
  | .perf_event_output => false

end HookStep

def runSteps (cpu : Nat) (steps : List HookStep) (m : Maps) : Maps :=
  steps.foldl (fun m step => step.run cpu m) m

def reportSteps (r : Rodata) (h : Helpers) (n : Nat) (op : String) : List HookStep :=
  [.storeData (setOperation r op), .storeData (setTask h n), .perf_event_output]

def nameSteps (op : String) (r : Rodata) (h : Helpers) (dentry : Dentry) : List HookStep :=
  .storeData (fun data => { data with filename := h.probe_read_str 0 dentry.name data.filename }) ::
    reportSteps r h 0 op

/-- The steps of a hook once its record is cleared. -/
def bodySteps (r : Rodata) (h : Helpers) : HookCall → List HookStep
  | .file_open file =>
    (if file.hasPath then
      [.storeData fun data => { data with filename := h.d_path file.path data.filename },
        .update_elem h file.inode.i_ino]
    else []) ++ reportSteps r h 0 "open"
  | .file_permission file mask =>
    [.copyCached file.inode.i_ino] ++
      (if mask &&& MAY_READ ≠ 0 then reportSteps r h 0 "read" else []) ++
      if mask &&& MAY_WRITE ≠ 0 then
        reportSteps r h (if mask &&& MAY_READ ≠ 0 then 1 else 0) "write"
      else []
  | .inode_create _ dentry => nameSteps "create" r h dentry
  | .inode_link _ dentry => nameSteps "link" r h dentry
  | .inode_unlink _ dentry => nameSteps "unlink" r h dentry
  | .inode_symlink _ dentry => nameSteps "symlink" r h dentry
  | .inode_mkdir _ dentry => nameSteps "mkdir" r h dentry
  | .inode_rmdir _ dentry => nameSteps "rmdir" r h dentry
  | .inode_mknod _ dentry => nameSteps "mknod" r h dentry
  | .inode_rename _ old_dentry _ new_dentry =>
    [.storeData fun data => { data with filename := h.probe_read_str 0 old_dentry.name data.filename },
      .storeData fun data =>
        { data with new_filename := h.probe_read_str 1 new_dentry.name data.new_filename }] ++
      reportSteps r h 0 "rename"

/-- A hook that does not pass its identity test has none. -/
def Invocation.steps (r : Rodata) (i : Invocation) : List HookStep :=
  if i.call.dirs.any (is_target_dir r) then .store (fun _ => .zero) :: bodySteps r i.helpers i.call
  else []

theorem runSteps_append (cpu : Nat) (steps steps' : List HookStep) (m : Maps) :
    runSteps cpu (steps ++ steps') m = runSteps cpu steps' (runSteps cpu steps m) := List.foldl_append

theorem guarded_eq_steps {target : Bool} {cpu : Nat} {steps : List HookStep} {body : Maps → Maps}
    (hbody : ∀ m, body m = runSteps cpu steps m) (m : Maps) :
    guarded target cpu body m =
      runSteps cpu (if target then .store (fun _ => .zero) :: steps else []) m := by
  cases target with
  | true => exact hbody _
  | false => rfl

theorem if_steps {c : Prop} [Decidable c] {cpu : Nat} {steps : List HookStep} {f : Maps → Maps}
    (hf : ∀ m, f m = runSteps cpu steps m) (m : Maps) :
    (if c then f m else m) = runSteps cpu (if c then steps else []) m := by
  by_cases hc : c
  · rw [if_pos hc, if_pos hc, hf]
  · rw [if_neg hc, if_neg hc]
    rfl

theorem if_report {c : Prop} [Decidable c] (r : Rodata) (h : Helpers) (cpu n : Nat) (op : String)
    (m : Maps) : (if c then report r h cpu n op m else m) =
      runSteps cpu (if c then reportSteps r h n op else []) m :=
  if_steps (f := report r h cpu n op) (fun _ => rfl) m

theorem nameHook_eq_steps (op : String) (r : Rodata) (h : Helpers) (cpu : Nat) (dir : Inode)
    (dentry : Dentry) (m : Maps) : nameHook op r h cpu dir dentry m = runSteps cpu
      (if is_target_dir r dir then .store (fun _ => .zero) :: nameSteps op r h dentry else []) m := by
  apply guarded_eq_steps
  intro m
  rfl

/-- A hook is its steps, one after the other. -/
theorem invoke_eq_steps (r : Rodata) (i : Invocation) (m : Maps) :
    i.invoke r m = runSteps i.cpu (i.steps r) m := by
  unfold Invocation.invoke Invocation.steps
  cases i.call
  all_goals simp only [HookCall.dirs, List.any_cons, List.any_nil, Bool.or_false]
  case file_open file =>
    apply guarded_eq_steps
    intro m
    rw [bodySteps, runSteps_append, ← if_steps (f := fun m =>
      update_elem i.helpers i.cpu file.inode.i_ino <|
        Scratch.storeData i.cpu (fun data =>
          { data with filename := i.helpers.d_path file.path data.filename }) m) fun _ => rfl]
    rfl
  case file_permission file mask =>
    apply guarded_eq_steps
    intro m
    rw [bodySteps, runSteps_append, runSteps_append]
    dsimp only
    rw [if_report, if_report]
    rfl
  case inode_create dir dentry => exact nameHook_eq_steps ..
  case inode_link dir dentry => exact nameHook_eq_steps ..
  case inode_unlink dir dentry => exact nameHook_eq_steps ..
  case inode_symlink dir dentry => exact nameHook_eq_steps ..
  case inode_mkdir dir dentry => exact nameHook_eq_steps ..
  case inode_rmdir dir dentry => exact nameHook_eq_steps ..
  case inode_mknod dir dentry => exact nameHook_eq_steps ..
  case inode_rename old_dir old_dentry new_dir new_dentry =>
    rw [show (is_target_dir r old_dir || is_target_dir r new_dir) =
      !(!is_target_dir r old_dir && !is_target_dir r new_dir) by simp]
    apply guarded_eq_steps
    intro m
    rfl

/-! Hooks on several CPUs. -/

/-- What a CPU has left to do. After a lookup it copies the name from the element that was found, if
one was. -/
inductive HookPc where
  | run (steps : List HookStep)
  | copy (cached : Option Nat) (steps : List HookStep)

/-- The maps in memory: a key of `inode_cache` has an element, and the element a record. -/
structure Cpus where
  data_array : Nat → Record
  buckets : UInt64 → Option Nat
  elems : Nat → Record
  events : List (Nat × Record)
  current : Nat → Option Invocation
  pc : Nat → HookPc

/-- `elem` is the element that an update takes. -/
inductive CpuLabel where
  | enter (i : Invocation)
  | step (cpu elem : Nat)

namespace Cpus

/-- Loaded, with nothing in `inode_cache`. -/
def start (data : Nat → Record) : Cpus where
  data_array := data
  buckets _ := none
  elems _ := .zero
  events := []
  current _ := none
  pc _ := .run []

def inode_cache (s : Cpus) (key : UInt64) : Option Record := (s.buckets key).map s.elems

def store (cpu : Nat) (f : Record → Record) (s : Cpus) : Cpus :=
  { s with data_array := update s.data_array cpu (f (s.data_array cpu)) }

/-- `bpf_map_update_elem` puts the record into an element of its own, and the key gets that one. -/
def update_elem (h : Helpers) (cpu elem : Nat) (ino : UInt64) (s : Cpus) : Cpus :=
  if h.update_elem then
    { s with
      buckets := update s.buckets ino (some elem)
      elems := update s.elems elem (s.data_array cpu) }
  else s

def perf_event_output (cpu : Nat) (s : Cpus) : Cpus :=
  { s with events := s.events ++ [(cpu, s.data_array cpu)] }

def goOn (cpu : Nat) (pc : HookPc) (s : Cpus) : Cpus := { s with pc := update s.pc cpu pc }

/-- `memcpy(data->filename, cached->filename, ..)`, under `if (cached)`. -/
def copy (cpu : Nat) (cached : Option Nat) (s : Cpus) : Cpus :=
  match cached with
  | some elem => s.store cpu fun rec =>
    { rec with data := { rec.data with filename := (s.elems elem).data.filename } }
  | none => s

/-- A CPU enters a hook when it is in none, and takes one step of it at a time. -/
def step (r : Rodata) : CpuLabel → Cpus → Option Cpus
  | .enter i, s =>
    match s.pc i.cpu with
    | .run [] => some ({ s with current := update s.current i.cpu (some i) }.goOn i.cpu
        (.run (i.steps r)))
    | _ => none
  | .step cpu elem, s =>
    match s.pc cpu with
    | .run [] => none
    | .run (.store f :: steps) => some ((s.store cpu f).goOn cpu (.run steps))
    | .run (.update_elem h ino :: steps) =>
      some ((s.update_elem h cpu elem ino).goOn cpu (.run steps))
    | .run (.copyCached ino :: steps) => some (s.goOn cpu (.copy (s.buckets ino) steps))
    | .run (.perf_event_output :: steps) => some ((s.perf_event_output cpu).goOn cpu (.run steps))
    | .copy cached steps => some ((s.copy cpu cached).goOn cpu (.run steps))

/-- The hook that takes effect in a step, if one does: at its access to `inode_cache`, or on entry. -/
def effects (r : Rodata) : CpuLabel → Cpus → List Invocation
  | .enter i, _ => if (i.steps r).any HookStep.usesCache then [] else [i]
  | .step cpu _, s =>
    match s.pc cpu with
    | .run (step :: _) => if step.usesCache then (s.current cpu).toList else []
    | _ => []

end Cpus

/-- The hooks that are entered in a run. -/
def entered (ls : List CpuLabel) : List Invocation :=
  ls.filterMap fun l =>
    match l with
    | .enter i => some i
    | .step .. => none

/-- The element from which a name is about to be copied. -/
def HookPc.held : HookPc → Option Nat
  | .run _ => none
  | .copy cached _ => cached

def HookPc.updates : HookPc → Bool
  | .run (.update_elem h _ :: _) => h.update_elem
  | _ => false

/-- An update takes an element that no key has and no hook still copies from. -/
def NoReuse : CpuLabel → Cpus → Prop
  | .enter _, _ => True
  | .step cpu elem, s => (s.pc cpu).updates = true →
    (∀ key, s.buckets key ≠ some elem) ∧ ∀ other, (s.pc other).held ≠ some elem

end Naarad.Scratch
