import Naarad.Hooks
import Mathlib.Data.List.Count

/-!
# From the hooks to the counters

The kind of an operation is written down four times: in the literal that a hook stores, in the name
that the map files it under, in its code, and in the label of the counter's `switch`. The literal of
`inode_symlink` is not the name in the map; every other kind arrives as what it was submitted as.
-/

set_option autoImplicit false

namespace Naarad.Hooks

open CharArray

variable {M : Type} {bh : BpfHelpers M}

/-- Every submitted event was counted under the code of its kind and pushed with that code. -/
structure CountedAs (kinds : List Operation) (mon' : Monitor) (hs : List Handled) : Prop where
  counters : ∀ op : Operation,
    read_counter mon'.counters op.code = UInt64.ofNat (kinds.count op)
  messages : List.Forall₂ (fun kind h => h.msg.op = kind.code ∧ h.msg.op ≠ OP_UNKNOWN) kinds hs

def NoSymlink (r : Rodata) (b : Bpf M) (calls : List (Task × HookCall)) : Prop :=
  ∀ task dir dentry, (task, HookCall.inode_symlink dir dentry) ∈ calls →
    (HookCall.inode_symlink dir dentry).passes r b = false

theorem HookCall.syslink_mem_kinds {call : HookCall} (h : Operation.syslink ∈ call.kinds) :
    ∃ dir dentry, call = .inode_symlink dir dentry := by
  cases call with
  | inode_symlink dir dentry => exact ⟨dir, dentry, rfl⟩
  | file_permission file mask =>
    exfalso
    rcases List.mem_append.mp h with hread | hwrite
    · split at hread <;> simp at hread
    · split at hwrite <;> simp at hwrite
  | _ => simp [kinds] at h

theorem noSymlink_iff {r : Rodata} {b : Bpf M} {calls : List (Task × HookCall)} :
    NoSymlink r b calls ↔ Operation.syslink ∉ submitted r b calls := by
  constructor
  · intro hno hmem
    obtain ⟨⟨task, call⟩, hcall, hkind⟩ := List.mem_flatMap.mp hmem
    unfold HookCall.submits at hkind
    split at hkind
    · rename_i hpass
      obtain ⟨dir, dentry, rfl⟩ := HookCall.syslink_mem_kinds hkind
      rw [hno task dir dentry hcall] at hpass
      cases hpass
    · cases hkind
  · intro hno task dir dentry hcall
    by_contra hpass
    apply hno
    apply List.mem_flatMap.mpr
    refine ⟨_, hcall, ?_⟩
    unfold HookCall.submits
    rw [if_pos (Bool.not_eq_false _ ▸ hpass)]
    exact List.mem_singleton_self _

theorem mappedOp_hookName (kind : Operation) :
    mappedOp (hookName kind) = if kind = .syslink then OP_UNKNOWN else kind.code := by
  cases kind <;> decide

theorem handled_codes {kinds : List Operation} {events : List data_t} {es : List (Env × data_t)}
    {hs : List Handled}
    (hsubmitted : List.Forall₂ (fun kind e => e.operation.str = hookName kind) kinds events)
    (hes : es.map Prod.snd = events)
    (hmsgs : List.Forall₂ (fun e h => MessageOf e.2 h.msg) es hs) :
    List.Forall₂ (fun kind h => h.msg.op = mappedOp (hookName kind)) kinds hs := by
  subst hes
  induction hmsgs generalizing kinds with
  | nil =>
    cases hsubmitted
    exact .nil
  | cons hmsg _ ih =>
    cases hsubmitted with
    | cons hkind hrest => exact .cons (hkind ▸ hmsg.op) (ih hrest)

theorem ops_eq_codes {kinds : List Operation} {hs : List Handled}
    (h : List.Forall₂ (fun kind x => x.msg.op = kind.code ∧ x.msg.op ≠ OP_UNKNOWN) kinds hs) :
    (hs.map fun x => x.msg.op) = kinds.map Operation.code := by
  induction h with
  | nil => rfl
  | cons hone _ ih => rw [List.map_cons, List.map_cons, ih, hone.1]

theorem codes_of_noSymlink {kinds : List Operation} {hs : List Handled}
    (hno : Operation.syslink ∉ kinds)
    (h : List.Forall₂ (fun kind x => x.msg.op = mappedOp (hookName kind)) kinds hs) :
    List.Forall₂ (fun kind x => x.msg.op = kind.code ∧ x.msg.op ≠ OP_UNKNOWN) kinds hs := by
  induction h with
  | nil => exact .nil
  | @cons kind x kinds hs hone _ ih =>
    have hne : kind ≠ .syslink := fun heq => hno (heq ▸ List.mem_cons_self)
    rw [mappedOp_hookName, if_neg hne] at hone
    refine .cons ⟨hone, ?_⟩ (ih fun hmem => hno (List.mem_cons_of_mem _ hmem))
    rw [hone]
    exact kind.code_ne_unknown

theorem noSymlink_of_codes {kinds : List Operation} {hs : List Handled}
    (h : List.Forall₂ (fun kind x => x.msg.op = mappedOp (hookName kind)) kinds hs)
    (hcodes : List.Forall₂ (fun kind x => x.msg.op = kind.code ∧ x.msg.op ≠ OP_UNKNOWN) kinds hs) :
    Operation.syslink ∉ kinds := by
  induction h with
  | nil => exact List.not_mem_nil
  | @cons kind x kinds hs hone _ ih =>
    cases hcodes with
    | cons hcode hrest =>
      intro hmem
      rcases List.mem_cons.mp hmem with rfl | hmem
      · exact hcode.2 hone
      · exact ih hrest hmem

/-- The events of any invocations of the hooks, handled after `init_operation_map`, are counted and
pushed under their own codes exactly when none of them comes from `inode_symlink`. -/
theorem hooks_counted {r : Rodata} {calls : List (Task × HookCall)} {b : Bpf M}
    {es : List (Env × data_t)} {mon mon' : Monitor} {hs : List Handled} (hb : b.events = [])
    (hes : es.map Prod.snd = (invokeAll bh r calls b).events) (hmon : mon.Initialised)
    (hrun : handleAll es mon = some (mon', hs)) :
    CountedAs (submitted r b calls) mon' hs ↔ NoSymlink r b calls := by
  have hall := handleAll_spec hmon.map_builtin hrun
  obtain ⟨events, hevents, hkinds⟩ := (invokeAll_invoked r calls b).events
  rw [hb, List.nil_append] at hevents
  have hcodes := handled_codes hkinds (hes.trans hevents) hall.messages
  rw [noSymlink_iff]
  constructor
  · intro h
    exact noSymlink_of_codes hcodes h.messages
  · intro hno
    have hown := codes_of_noSymlink hno hcodes
    refine ⟨?_, hown⟩
    intro op
    rw [hall.counter hmon.counters_eq, ops_eq_codes hown,
      List.count_map_of_injective _ _ Operation.code_injective]

def sampleTarget : Inode := ⟨1, 7⟩

def sampleRodata : Rodata := ⟨7, fun _ _ => 0⟩

def sampleTask : Task := ⟨0, 0, .zero 16, fun _ => 0⟩

def sampleBpf : Bpf (List (UInt64 × data_t)) := ⟨some .zero, [], []⟩

/-- The events that invocations submit after loading, each handled by a quiet call. -/
def handledCalls (calls : List (Task × HookCall)) : List (Env × data_t) :=
  ((invokeAll .reference sampleRodata calls sampleBpf).events.zipIdx 1).map fun x =>
    (.quiet x.2 fun _ => .sent, x.1)

theorem map_snd_handledCalls (calls : List (Task × HookCall)) : (handledCalls calls).map Prod.snd =
    (invokeAll .reference sampleRodata calls sampleBpf).events := by
  unfold handledCalls
  rw [List.map_map]
  exact List.zipIdx_map_fst ..

/-- A file is opened, read and written at once, and replaced by a new one. -/
def sampleCalls : List (Task × HookCall) :=
  let file : File := ⟨sampleTarget, ⟨1, 8⟩, true, ascii "/t/a"⟩
  [(sampleTask, .file_open file), (sampleTask, .file_permission file (MAY_READ ||| MAY_WRITE)),
    (sampleTask, .inode_create sampleTarget ⟨ascii "b"⟩),
    (sampleTask, .inode_rename sampleTarget ⟨ascii "b"⟩ sampleTarget ⟨ascii "a"⟩)]

theorem hooks_counted_sample : ∃ mon' hs,
    handleAll (handledCalls sampleCalls) (.fresh 0) = some (mon', hs) ∧
    submitted sampleRodata sampleBpf sampleCalls = [.open, .read, .write, .create, .rename] ∧
    NoSymlink sampleRodata sampleBpf sampleCalls ∧
    CountedAs (submitted sampleRodata sampleBpf sampleCalls) mon' hs := by
  have hruns : (handleAll (handledCalls sampleCalls) (.fresh 0)).isSome := by decide +kernel
  obtain ⟨⟨mon', hs⟩, hrun⟩ := Option.isSome_iff_exists.mp hruns
  have hno : NoSymlink sampleRodata sampleBpf sampleCalls := by
    intro task dir dentry hmem
    simp [sampleCalls] at hmem
  exact ⟨mon', hs, hrun, rfl, hno, (hooks_counted rfl (map_snd_handledCalls _)
    (Monitor.fresh_initialised 0) hrun).mpr hno⟩

/-- One symbolic link made in the target directory: its event is submitted, and is neither counted
nor pushed under the code of its kind. -/
theorem symlink_uncounted :
    let call := HookCall.inode_symlink sampleTarget ⟨ascii "a"⟩
    ∃ mon' hs, handleAll (handledCalls [(sampleTask, call)]) (.fresh 0) = some (mon', hs) ∧
      submitted sampleRodata sampleBpf [(sampleTask, call)] = [.syslink] ∧
      read_counter mon'.counters Operation.syslink.code = 0 ∧
      (hs.map fun h => h.msg.op) = [OP_UNKNOWN] ∧
      ¬ CountedAs (submitted sampleRodata sampleBpf [(sampleTask, call)]) mon' hs := by
  intro call
  have hruns : (handleAll (handledCalls [(sampleTask, call)]) (.fresh 0)).map
      (fun m => (read_counter m.1.counters Operation.syslink.code, m.2.map fun h => h.msg.op)) =
        some (0, [OP_UNKNOWN]) := by decide +kernel
  obtain ⟨⟨mon', hs⟩, hrun, heq⟩ := Option.map_eq_some_iff.mp hruns
  obtain ⟨hcounter, hops⟩ := Prod.mk.inj heq
  refine ⟨mon', hs, hrun, rfl, hcounter, hops, ?_⟩
  intro h
  have hcount := h.counters .syslink
  rw [hcounter] at hcount
  revert hcount
  decide

end Naarad.Hooks
