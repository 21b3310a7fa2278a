import Naarad.HandleEvent
import Naarad.Lib.BoundedMap

/-!
# The LSM hooks (`file_monitor.bpf.c`)

Ten hooks share one identity test, one scratch record and one way of submitting it. A hook reads
the kernel objects it is called on and the current task; what it changes is the scratch record, the
inode cache and the stream of submitted events.
-/

set_option autoImplicit false

namespace Naarad.Hooks

open CharArray

/-- A kernel inode; `dev` is the file system it belongs to, `i_ino` its number there. -/
structure Inode where
  dev : UInt64
  i_ino : UInt64
  deriving DecidableEq

structure Dentry where
  name : List UInt8
  deriving DecidableEq

/-- An open file: the directory its dentry is in, its own inode, whether `f_path` has a dentry and
a mount, and the path these name. -/
structure File where
  parent : Inode
  inode : Inode
  hasPath : Bool
  path : List UInt8
  deriving DecidableEq

/-- The current task, and the clock as each submission of one invocation reads it. -/
structure Task where
  pid_tgid : UInt64
  uid_gid : UInt64
  comm : CharArray 16
  ktime : Nat → UInt64

/-- The loaded program's constants: `target_inode`, and the bytes that follow each string literal. -/
structure Rodata where
  target_inode : UInt64
  pad : List UInt8 → Nat → UInt8

/-- The maps, and the events submitted so far; `data_array` is `none` when its lookup fails. `M` is
what the kernel has for a hash map. -/
structure Bpf (M : Type) where
  data_array : Option data_t
  inode_cache : M
  events : List data_t

def INODE_CACHE_ENTRIES : Nat := 1024

def MAY_READ : UInt32 := 1
def MAY_WRITE : UInt32 := 2

/-- The helpers of the kernel for hash maps and strings; `entries` counts the keys of a map. -/
structure BpfHelpers (M : Type) where
  bpf_map_lookup_elem : M → UInt64 → Option data_t
  bpf_map_update_elem : M → UInt64 → data_t → M
  entries : M → Nat
  bpf_d_path : List UInt8 → CharArray 256 → CharArray 256
  bpf_probe_read_str : CharArray 256 → List UInt8 → CharArray 256

namespace BpfHelpers

variable {M : Type}

def ops (bh : BpfHelpers M) : BoundedMap.Ops UInt64 data_t M where
  lookup := bh.bpf_map_lookup_elem
  update := bh.bpf_map_update_elem
  size := bh.entries

/-- The cache has the key, or room for it. -/
def Takes (bh : BpfHelpers M) (key : UInt64) (cache : M) : Prop :=
  bh.ops.Takes INODE_CACHE_ENTRIES key cache

instance (bh : BpfHelpers M) (key : UInt64) (cache : M) : Decidable (bh.Takes key cache) :=
  inferInstanceAs (Decidable (BoundedMap.Ops.Takes ..))

/-- The helpers as they are documented. A path that does not fit with its NUL makes `bpf_d_path`
fail, and what is in the buffer then is left open. -/
structure Documented (bh : BpfHelpers M) : Prop where
  inode_cache : bh.ops.Laws INODE_CACHE_ENTRIES
  d_path : ∀ {path buf}, path.length < 256 → 0 ∉ path → (bh.bpf_d_path path buf).str = path
  probe_read_str : ∀ {buf s}, 0 ∉ s → (bh.bpf_probe_read_str buf s).str = s.take 255

/-- A hash map as an association list; of a path that is too long, the end is kept. -/
def reference : BpfHelpers (List (UInt64 × data_t)) where
  bpf_map_lookup_elem cache key := cache.lookup key
  bpf_map_update_elem := BoundedMap.update INODE_CACHE_ENTRIES
  entries := List.length
  bpf_d_path path buf := buf.snprintf (path.drop (path.length - 255))
  bpf_probe_read_str buf s := buf.snprintf s

theorem reference_documented : reference.Documented where
  inode_cache := BoundedMap.listOps_laws
  d_path := by
    intro path buf hfits hclean
    have hdrop : path.drop (path.length - 255) = path := by
      rw [Nat.sub_eq_zero_of_le (Nat.le_of_lt_succ hfits), List.drop_zero]
    dsimp only [reference]
    rw [hdrop, str_snprintf _ (by decide) hclean]
    exact List.take_of_length_le (Nat.le_of_lt_succ hfits)
  probe_read_str := str_snprintf _ (by decide)

end BpfHelpers

variable {M : Type} {bh : BpfHelpers M}

def is_target_dir (r : Rodata) (dir : Inode) : Bool := dir.i_ino = r.target_inode

/-- The stores `data->operation = literal` of sixteen bytes. -/
def setOperation (r : Rodata) (op : String) (data : data_t) : data_t :=
  { data with operation := memcpy 16 (ascii op) (r.pad (ascii op)) }

/-- Fills in the task's fields and hands the record to the perf buffer; `n` counts the submissions
of this invocation. -/
def submit_event (task : Task) (n : Nat) (data : data_t) (b : Bpf M) : Bpf M :=
  let data := { data with
    pid := (task.pid_tgid >>> 32).toUInt32
    timestamp := task.ktime n
    uid := (task.uid_gid &&& 0xFFFFFFFF).toUInt32
    gid := ((task.uid_gid >>> 32) &&& 0xFFFFFFFF).toUInt32
    comm := task.comm }
  { b with data_array := some data, events := b.events ++ [data] }

def file_open (bh : BpfHelpers M) (r : Rodata) (task : Task) (file : File) (b : Bpf M) : Bpf M :=
  if is_target_dir r file.parent then
    match b.data_array with
    | none => b
    | some _ =>
      let data := data_t.zero
      if file.hasPath then
        let data := { data with filename := bh.bpf_d_path file.path data.filename }
        let b := { b with
          inode_cache := bh.bpf_map_update_elem b.inode_cache file.inode.i_ino data }
        submit_event task 0 (setOperation r "open" data) b
      else submit_event task 0 (setOperation r "open" data) b
  else b

def file_permission (bh : BpfHelpers M) (r : Rodata) (task : Task) (file : File) (mask : UInt32)
    (b : Bpf M) : Bpf M :=
  if is_target_dir r file.parent then
    match b.data_array with
    | none => b
    | some _ =>
      let data := data_t.zero
      let data :=
        match bh.bpf_map_lookup_elem b.inode_cache file.inode.i_ino with
        | some cached => { data with filename := cached.filename }
        | none => data
      -- the scratch record is cleared and filled whether or not anything is submitted
      let b := { b with data_array := some data }
      let b :=
        if mask &&& MAY_READ ≠ 0 then submit_event task 0 (setOperation r "read" data) b else b
      if mask &&& MAY_WRITE ≠ 0 then
        let n := if mask &&& MAY_READ ≠ 0 then 1 else 0
        submit_event task n (setOperation r "write" (b.data_array.getD data)) b
      else b
  else b

abbrev NameHook (M : Type) : Type :=
  BpfHelpers M → Rodata → Task → Inode → Dentry → Bpf M → Bpf M

/-- The hooks that report one name in one directory. -/
def nameHook (op : String) : NameHook M := fun bh r task dir dentry b =>
  if is_target_dir r dir then
    match b.data_array with
    | none => b
    | some _ =>
      let data := data_t.zero
      let data := { data with filename := bh.bpf_probe_read_str data.filename dentry.name }
      submit_event task 0 (setOperation r op data) b
  else b

def inode_create : NameHook M := nameHook "create"
def inode_link : NameHook M := nameHook "link"
def inode_unlink : NameHook M := nameHook "unlink"
def inode_symlink : NameHook M := nameHook "symlink"
def inode_mkdir : NameHook M := nameHook "mkdir"
def inode_rmdir : NameHook M := nameHook "rmdir"
def inode_mknod : NameHook M := nameHook "mknod"

def inode_rename (bh : BpfHelpers M) (r : Rodata) (task : Task) (old_dir : Inode)
    (old_dentry : Dentry) (new_dir : Inode) (new_dentry : Dentry) (b : Bpf M) : Bpf M :=
  if !is_target_dir r old_dir && !is_target_dir r new_dir then b
  else
    match b.data_array with
    | none => b
    | some _ =>
      let data := data_t.zero
      let data := { data with
        filename := bh.bpf_probe_read_str data.filename old_dentry.name
        new_filename := bh.bpf_probe_read_str data.new_filename new_dentry.name }
      submit_event task 0 (setOperation r "rename" data) b

inductive HookCall where
  | file_open (file : File)
  | file_permission (file : File) (mask : UInt32)
  | inode_create (dir : Inode) (dentry : Dentry)
  | inode_link (dir : Inode) (new_dentry : Dentry)
  | inode_unlink (dir : Inode) (dentry : Dentry)
  | inode_symlink (dir : Inode) (dentry : Dentry)
  | inode_mkdir (dir : Inode) (dentry : Dentry)
  | inode_rmdir (dir : Inode) (dentry : Dentry)
  | inode_mknod (dir : Inode) (dentry : Dentry)
  | inode_rename (old_dir : Inode) (old_dentry : Dentry) (new_dir : Inode) (new_dentry : Dentry)
  deriving DecidableEq

def HookCall.invoke (bh : BpfHelpers M) (r : Rodata) (task : Task) : HookCall → Bpf M → Bpf M
  | .file_open file => Hooks.file_open bh r task file
  | .file_permission file mask => Hooks.file_permission bh r task file mask
  | .inode_create dir dentry => Hooks.inode_create bh r task dir dentry
  | .inode_link dir dentry => Hooks.inode_link bh r task dir dentry
  | .inode_unlink dir dentry => Hooks.inode_unlink bh r task dir dentry
  | .inode_symlink dir dentry => Hooks.inode_symlink bh r task dir dentry
  | .inode_mkdir dir dentry => Hooks.inode_mkdir bh r task dir dentry
  | .inode_rmdir dir dentry => Hooks.inode_rmdir bh r task dir dentry
  | .inode_mknod dir dentry => Hooks.inode_mknod bh r task dir dentry
  | .inode_rename old_dir old_dentry new_dir new_dentry =>
    Hooks.inode_rename bh r task old_dir old_dentry new_dir new_dentry

def invokeAll (bh : BpfHelpers M) (r : Rodata) : List (Task × HookCall) → Bpf M → Bpf M
  | [], b => b
  | (task, call) :: calls, b => invokeAll bh r calls (call.invoke bh r task b)

def HookCall.dirs : HookCall → List Inode
  | .file_open file => [file.parent]
  | .file_permission file _ => [file.parent]
  | .inode_create dir _ => [dir]
  | .inode_link dir _ => [dir]
  | .inode_unlink dir _ => [dir]
  | .inode_symlink dir _ => [dir]
  | .inode_mkdir dir _ => [dir]
  | .inode_rmdir dir _ => [dir]
  | .inode_mknod dir _ => [dir]
  | .inode_rename old_dir _ new_dir _ => [old_dir, new_dir]

/-- The kinds of the events an invocation stands for, in the order of submission. -/
def HookCall.kinds : HookCall → List Operation
  | .file_open _ => [.open]
  | .file_permission _ mask =>
    (if mask &&& MAY_READ ≠ 0 then [.read] else []) ++
      (if mask &&& MAY_WRITE ≠ 0 then [.write] else [])
  | .inode_create _ _ => [.create]
  | .inode_link _ _ => [.link]
  | .inode_unlink _ _ => [.unlink]
  | .inode_symlink _ _ => [.syslink]
  | .inode_mkdir _ _ => [.mkdir]
  | .inode_rmdir _ _ => [.rmdir]
  | .inode_mknod _ _ => [.mknod]
  | .inode_rename _ _ _ _ => [.rename]

def hookName : Operation → List UInt8
  | .syslink => ascii "symlink"
  | op => op.key

def HookCall.passes (r : Rodata) (b : Bpf M) (call : HookCall) : Bool :=
  call.dirs.any (is_target_dir r) && b.data_array.isSome

def HookCall.submits (r : Rodata) (b : Bpf M) (call : HookCall) : List Operation :=
  if call.passes r b then call.kinds else []

/-- What one invocation leaves behind: the scratch record stays available, and one event for each
kind is submitted behind the earlier ones. -/
structure Invoked (b : Bpf M) (kinds : List Operation) (b' : Bpf M) : Prop where
  data_array : b'.data_array.isSome = b.data_array.isSome
  events : ∃ es, b'.events = b.events ++ es ∧
    List.Forall₂ (fun kind e => e.operation.str = hookName kind) kinds es

theorem Invoked.quiet {b b' : Bpf M} (hevents : b'.events = b.events)
    (hdata : b'.data_array.isSome = b.data_array.isSome) : Invoked b [] b' :=
  ⟨hdata, [], by rw [hevents, List.append_nil], .nil⟩

theorem Invoked.none (b : Bpf M) : Invoked b [] b := .quiet rfl rfl

theorem Invoked.trans {b₁ b₂ b₃ : Bpf M} {ks₁ ks₂ : List Operation} (h₁ : Invoked b₁ ks₁ b₂)
    (h₂ : Invoked b₂ ks₂ b₃) : Invoked b₁ (ks₁ ++ ks₂) b₃ := by
  obtain ⟨es₁, heq₁, hes₁⟩ := h₁.events
  obtain ⟨es₂, heq₂, hes₂⟩ := h₂.events
  refine ⟨h₂.data_array.trans h₁.data_array, es₁ ++ es₂, ?_, List.rel_append hes₁ hes₂⟩
  rw [heq₂, heq₁, List.append_assoc]

theorem Invoked.after_quiet {b b₁ b₂ : Bpf M} {ks : List Operation} (h : Invoked b₁ ks b₂)
    (hquiet : Invoked b [] b₁) : Invoked b ks b₂ := hquiet.trans h

theorem hookName_length_lt (kind : Operation) : (hookName kind).length < 16 := by
  cases kind <;> decide

theorem nul_notMem_hookName (kind : Operation) : 0 ∉ hookName kind := by
  cases kind <;> decide

theorem submit_event_invoked {r : Rodata} {task : Task} {n : Nat} {op : String} {data : data_t}
    {b : Bpf M} (kind : Operation) (hdata : b.data_array.isSome) (hop : ascii op = hookName kind) :
    Invoked b [kind] (submit_event task n (setOperation r op data) b) := by
  refine ⟨hdata.symm, [_], rfl, .cons ?_ .nil⟩
  simp only [setOperation, hop]
  exact str_memcpy _ (hookName_length_lt kind) (nul_notMem_hookName kind)

theorem submit_event_invoked_if {r : Rodata} {task : Task} {n : Nat} {op : String} {data : data_t}
    {b : Bpf M} (kind : Operation) (c : Prop) [Decidable c] (hdata : b.data_array.isSome)
    (hop : ascii op = hookName kind) :
    Invoked b (if c then [kind] else [])
      (if c then submit_event task n (setOperation r op data) b else b) := by
  by_cases hc : c
  · rw [if_pos hc, if_pos hc]
    exact submit_event_invoked kind hdata hop
  · rw [if_neg hc, if_neg hc]
    exact Invoked.none b

theorem nameHook_invoked {op : String} (kind : Operation) (hop : ascii op = hookName kind)
    (r : Rodata) (task : Task) (dir : Inode) (dentry : Dentry) (b : Bpf M) :
    Invoked b (if is_target_dir r dir && b.data_array.isSome then [kind] else [])
      (nameHook op bh r task dir dentry b) := by
  unfold nameHook
  by_cases hdir : is_target_dir r dir
  · rw [if_pos hdir, hdir]
    cases hdata : b.data_array with
    | none => exact Invoked.none b
    | some d => exact submit_event_invoked kind (by rw [hdata]; rfl) hop
  · rw [if_neg hdir, Bool.eq_false_iff.mpr hdir]
    exact Invoked.none b

theorem file_open_invoked (r : Rodata) (task : Task) (file : File) (b : Bpf M) :
    Invoked b (if is_target_dir r file.parent && b.data_array.isSome then [.open] else [])
      (file_open bh r task file b) := by
  unfold file_open
  by_cases hdir : is_target_dir r file.parent
  · rw [if_pos hdir, hdir]
    cases hdata : b.data_array with
    | none => exact Invoked.none b
    | some d =>
      have hsome : b.data_array.isSome := by rw [hdata]; rfl
      by_cases hpath : file.hasPath
      · simp only [if_pos hpath]
        refine Invoked.after_quiet (submit_event_invoked .open ?_ rfl) (.quiet rfl ?_)
        · rfl
        · rw [hdata]
      · simp only [if_neg hpath]
        exact submit_event_invoked .open hsome rfl
  · rw [if_neg hdir, Bool.eq_false_iff.mpr hdir]
    exact Invoked.none b

theorem file_permission_invoked (r : Rodata) (task : Task) (file : File) (mask : UInt32)
    (b : Bpf M) : Invoked b (if is_target_dir r file.parent && b.data_array.isSome
        then (HookCall.file_permission file mask).kinds else [])
      (file_permission bh r task file mask b) := by
  unfold file_permission
  by_cases hdir : is_target_dir r file.parent
  · rw [if_pos hdir, hdir]
    cases hdata : b.data_array with
    | none => exact Invoked.none b
    | some d =>
      simp only
      generalize (match bh.bpf_map_lookup_elem b.inode_cache file.inode.i_ino with
        | some cached => { data_t.zero with filename := cached.filename }
        | none => data_t.zero) = data
      have hscratch : Invoked b [] { b with data_array := some data } :=
        .quiet rfl (by rw [hdata]; rfl)
      apply Invoked.after_quiet _ hscratch
      refine Invoked.trans ?_ (submit_event_invoked_if .write (mask &&& MAY_WRITE ≠ 0) ?_ rfl)
      · exact submit_event_invoked_if .read (mask &&& MAY_READ ≠ 0) rfl rfl
      · split <;> rfl
  · rw [if_neg hdir, Bool.eq_false_iff.mpr hdir]
    exact Invoked.none b

theorem inode_rename_invoked (r : Rodata) (task : Task) (old_dir : Inode) (old_dentry : Dentry)
    (new_dir : Inode) (new_dentry : Dentry) (b : Bpf M) :
    Invoked b (if (is_target_dir r old_dir || is_target_dir r new_dir) && b.data_array.isSome
        then [.rename] else [])
      (inode_rename bh r task old_dir old_dentry new_dir new_dentry b) := by
  unfold inode_rename
  by_cases hdirs : is_target_dir r old_dir || is_target_dir r new_dir
  · have hguard : (!is_target_dir r old_dir && !is_target_dir r new_dir) = false := by
      rw [← Bool.not_or, hdirs]
      rfl
    rw [hguard, hdirs]
    cases hdata : b.data_array with
    | none => exact Invoked.none b
    | some d => exact submit_event_invoked .rename (by rw [hdata]; rfl) rfl
  · have hguard : (!is_target_dir r old_dir && !is_target_dir r new_dir) = true := by
      rw [← Bool.not_or, Bool.eq_false_iff.mpr hdirs]
      rfl
    rw [hguard, Bool.eq_false_iff.mpr hdirs]
    exact Invoked.none b

theorem HookCall.invoke_invoked (r : Rodata) (task : Task) (call : HookCall) (b : Bpf M) :
    Invoked b (call.submits r b) (call.invoke bh r task b) := by
  unfold submits passes
  cases call
  all_goals simp only [dirs, List.any_cons, List.any_nil, Bool.or_false]
  case file_open file => exact file_open_invoked r task file b
  case file_permission file mask => exact file_permission_invoked r task file mask b
  case inode_create dir dentry => exact nameHook_invoked .create rfl r task dir dentry b
  case inode_link dir dentry => exact nameHook_invoked .link rfl r task dir dentry b
  case inode_unlink dir dentry => exact nameHook_invoked .unlink rfl r task dir dentry b
  case inode_symlink dir dentry => exact nameHook_invoked .syslink rfl r task dir dentry b
  case inode_mkdir dir dentry => exact nameHook_invoked .mkdir rfl r task dir dentry b
  case inode_rmdir dir dentry => exact nameHook_invoked .rmdir rfl r task dir dentry b
  case inode_mknod dir dentry => exact nameHook_invoked .mknod rfl r task dir dentry b
  case inode_rename old_dir old_dentry new_dir new_dentry =>
    exact inode_rename_invoked r task old_dir old_dentry new_dir new_dentry b

def submitted (r : Rodata) (b : Bpf M) (calls : List (Task × HookCall)) : List Operation :=
  calls.flatMap fun c => c.2.submits r b

theorem invokeAll_invoked (r : Rodata) (calls : List (Task × HookCall)) (b : Bpf M) :
    Invoked b (submitted r b calls) (invokeAll bh r calls b) := by
  induction calls generalizing b with
  | nil => exact Invoked.none b
  | cons c calls ih =>
    have hone : Invoked b (c.2.submits r b) (c.2.invoke bh r c.1 b) := c.2.invoke_invoked r c.1 b
    -- the guards of the later invocations see the scratch record as the first one saw it
    have hrest := ih (c.2.invoke bh r c.1 b)
    unfold submitted HookCall.submits HookCall.passes at hrest
    rw [hone.data_array] at hrest
    unfold submitted
    rw [List.flatMap_cons]
    exact hone.trans hrest

end Naarad.Hooks
