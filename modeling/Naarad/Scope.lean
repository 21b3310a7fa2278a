import Naarad.EndToEnd

/-!
# Which directories are monitored

The loader keeps the inode number of the target directory and drops its device, and the identity
test of the hooks compares numbers only. A directory on another device that repeats the number is
taken for the target.
-/

set_option autoImplicit false

namespace Naarad.Hooks

open CharArray

variable {M : Type} {bh : BpfHelpers M}

/-- `skel->rodata->target_inode = st.st_ino`. -/
def Rodata.load (st : Inode) (pad : List UInt8 → Nat → UInt8) : Rodata where
  target_inode := st.i_ino
  pad := pad

/-- The mask of an access has `MAY_READ` or `MAY_WRITE`. -/
def HookCall.AsksAccess : HookCall → Prop
  | .file_permission _ mask => mask &&& MAY_READ ≠ 0 ∨ mask &&& MAY_WRITE ≠ 0
  | _ => True

def HookCall.SubmitsEvent (bh : BpfHelpers M) (r : Rodata) (task : Task) (call : HookCall)
    (b : Bpf M) : Prop :=
  ∃ e es, (call.invoke bh r task b).events = b.events ++ e :: es

/-- Every invocation of the sequence submits an event if and only if it concerns the target. -/
def InScope (bh : BpfHelpers M) (r : Rodata) (target : Inode) (calls : List (Task × HookCall))
    (b : Bpf M) : Prop :=
  ∀ pre task call post, calls = pre ++ (task, call) :: post →
    (call.SubmitsEvent bh r task (invokeAll bh r pre b) ↔ target ∈ call.dirs)

/-- An invocation on a directory with the target's inode number concerns the target. -/
def HookCall.NoClash (target : Inode) (call : HookCall) : Prop :=
  ∀ dir ∈ call.dirs, dir.i_ino = target.i_ino → target ∈ call.dirs

theorem HookCall.AsksAccess.kinds_ne_nil {call : HookCall} (h : call.AsksAccess) :
    call.kinds ≠ [] := by
  cases call with
  | file_permission file mask =>
    intro hnil
    obtain ⟨hread, hwrite⟩ := List.append_eq_nil_iff.mp hnil
    rcases h with h | h
    · rw [if_pos h] at hread
      cases hread
    · rw [if_pos h] at hwrite
      cases hwrite
  | _ => exact List.cons_ne_nil _ _

theorem HookCall.submitsEvent_iff {r : Rodata} {task : Task} {call : HookCall} {b : Bpf M} :
    call.SubmitsEvent bh r task b ↔ call.submits r b ≠ [] := by
  obtain ⟨es, hes, hkinds⟩ := (call.invoke_invoked r task b).events
  constructor
  · rintro ⟨e, es', hes'⟩ hnil
    rw [hnil] at hkinds
    have hnone : es = [] := List.forall₂_nil_left_iff.mp hkinds
    rw [hes, hnone] at hes'
    exact List.cons_ne_nil _ _ (List.append_cancel_left hes').symm
  · intro hne
    cases es with
    | nil => exact absurd (List.forall₂_nil_right_iff.mp hkinds) hne
    | cons e es => exact ⟨e, es, hes⟩

theorem HookCall.submitsEvent_iff_dirs {r : Rodata} {task : Task} {call : HookCall} {b : Bpf M}
    (hdata : b.data_array.isSome) (hasks : call.AsksAccess) :
    call.SubmitsEvent bh r task b ↔ ∃ dir ∈ call.dirs, dir.i_ino = r.target_inode := by
  have hpasses : call.passes r b = call.dirs.any (is_target_dir r) := by
    rw [passes, hdata, Bool.and_true]
  rw [submitsEvent_iff, submits, hpasses]
  constructor
  · intro hne
    split at hne
    · rename_i hany
      obtain ⟨dir, hmem, hdir⟩ := List.any_eq_true.mp hany
      exact ⟨dir, hmem, of_decide_eq_true hdir⟩
    · exact absurd rfl hne
  · rintro ⟨dir, hmem, hdir⟩
    rw [if_pos (List.any_eq_true.mpr ⟨dir, hmem, decide_eq_true hdir⟩)]
    exact hasks.kinds_ne_nil

theorem invokeAll_data_array {r : Rodata} {calls : List (Task × HookCall)} {b : Bpf M}
    (hdata : b.data_array.isSome) : (invokeAll bh r calls b).data_array.isSome := by
  rw [(invokeAll_invoked r calls b).data_array]
  exact hdata

theorem HookCall.inScope_iff_noClash {target : Inode} {pad : List UInt8 → Nat → UInt8}
    {task : Task} {call : HookCall} {b : Bpf M} (hdata : b.data_array.isSome)
    (hasks : call.AsksAccess) :
    (call.SubmitsEvent bh (.load target pad) task b ↔ target ∈ call.dirs) ↔ call.NoClash target := by
  rw [submitsEvent_iff_dirs hdata hasks]
  constructor
  · intro h dir hmem hino
    exact h.mp ⟨dir, hmem, hino⟩
  · intro h
    constructor
    · rintro ⟨dir, hmem, hino⟩
      exact h dir hmem hino
    · intro hmem
      exact ⟨target, hmem, rfl⟩

/-- The invocations of a sequence that submit an event are those that concern the target, exactly
when none is on a directory that has the target's inode number on another device. -/
theorem monitored_scope {target : Inode} {pad : List UInt8 → Nat → UInt8}
    {calls : List (Task × HookCall)} {b : Bpf M} (hdata : b.data_array.isSome)
    (hasks : ∀ c ∈ calls, c.2.AsksAccess) :
    InScope bh (.load target pad) target calls b ↔ ∀ c ∈ calls, c.2.NoClash target := by
  constructor
  · intro h c hc
    obtain ⟨pre, post, hsplit⟩ := List.append_of_mem hc
    exact (HookCall.inScope_iff_noClash (invokeAll_data_array hdata) (hasks c hc)).mp
      (h pre c.1 c.2 post hsplit)
  · intro h pre task call post hsplit
    have hc : (task, call) ∈ calls := by
      rw [hsplit]
      exact List.mem_append_right _ List.mem_cons_self
    exact (HookCall.inScope_iff_noClash (invokeAll_data_array hdata) (hasks _ hc)).mpr (h _ hc)

/-- An open in the target, and a creation elsewhere on the same device. -/
def sampleScope : List (Task × HookCall) :=
  [(sampleTask, .file_open ⟨sampleTarget, ⟨1, 8⟩, true, ascii "/t/a"⟩),
    (sampleTask, .inode_create ⟨1, 9⟩ ⟨ascii "b"⟩)]

theorem monitored_scope_sample :
    InScope .reference (.load sampleTarget fun _ _ => 0) sampleTarget sampleScope sampleBpf := by
  refine (monitored_scope rfl ?_).mpr ?_
  · simp [sampleScope, HookCall.AsksAccess]
  · simp [sampleScope, HookCall.NoClash, HookCall.dirs, sampleTarget]

/-- A creation in a directory of device 2 that has the inode number of the target on device 1. -/
theorem other_device_monitored :
    ¬ InScope .reference (.load sampleTarget fun _ _ => 0) sampleTarget
      [(sampleTask, .inode_create ⟨2, 7⟩ ⟨ascii "b"⟩)] sampleBpf := by
  intro h
  have hscope := h [] _ _ [] rfl
  have hevent : (HookCall.inode_create ⟨2, 7⟩ ⟨ascii "b"⟩).SubmitsEvent .reference
      (.load sampleTarget fun _ _ => 0) sampleTask sampleBpf := ⟨_, [], rfl⟩
  have hmem := hscope.mp hevent
  revert hmem
  decide

end Naarad.Hooks
