import Naarad.Hooks

/-!
# The scratch record in memory (`file_monitor.bpf.c`)

Each CPU has one record, and the hooks build their events in it, store by store. A record is cleared
as a whole, its padding included, before anything is written to it; what it held before is then not
seen again, in an event or in the cache.
-/

set_option autoImplicit false

namespace Naarad.Scratch

open CharArray Hooks
open Function (update)

/-- `struct data_t` with the four bytes between `gid` and `timestamp`. -/
structure Record where
  data : data_t
  padding : CharArray 4
  deriving DecidableEq

def Record.zero : Record := ⟨.zero, .zero 4⟩

/-- What the helpers answer during one invocation. The numbered ones count the calls of the
invocation; those that fill a buffer may keep bytes of it. -/
structure Helpers where
  pid_tgid : UInt64
  uid_gid : UInt64
  ktime : Nat → UInt64
  comm : Nat → CharArray 16 → CharArray 16
  d_path : List UInt8 → CharArray 256 → CharArray 256
  probe_read_str : Nat → List UInt8 → CharArray 256 → CharArray 256
  update_elem : Bool

def DATA_ARRAY_ENTRIES : UInt32 := 1

/-- The maps of the program and the events submitted so far, each with its CPU. -/
structure Maps where
  data_array : Nat → Record
  inode_cache : UInt64 → Option Record
  events : List (Nat × Record)

/-- `bpf_map_lookup_elem` on a per-CPU array fails for an index out of range only. -/
def Maps.lookup_data (m : Maps) (cpu : Nat) (key : UInt32) : Option Record :=
  if key < DATA_ARRAY_ENTRIES then some (m.data_array cpu) else none

/-- A store to the record of a CPU. -/
def store (cpu : Nat) (f : Record → Record) (m : Maps) : Maps :=
  { m with data_array := update m.data_array cpu (f (m.data_array cpu)) }

/-- `memset(data, 0, sizeof(*data))`. -/
def memset (cpu : Nat) : Maps → Maps := store cpu fun _ => .zero

def storeData (cpu : Nat) (f : data_t → data_t) : Maps → Maps :=
  store cpu fun rec => { rec with data := f rec.data }

/-- `bpf_map_update_elem(&inode_cache, &ino, data, BPF_ANY)`. -/
def update_elem (h : Helpers) (cpu : Nat) (ino : UInt64) (m : Maps) : Maps :=
  if h.update_elem then
    { m with inode_cache := update m.inode_cache ino (some (m.data_array cpu)) }
  else m

def perf_event_output (cpu : Nat) (m : Maps) : Maps :=
  { m with events := m.events ++ [(cpu, m.data_array cpu)] }

def setTask (h : Helpers) (n : Nat) (data : data_t) : data_t :=
  { data with
    pid := (h.pid_tgid >>> 32).toUInt32
    timestamp := h.ktime n
    uid := (h.uid_gid &&& 0xFFFFFFFF).toUInt32
    gid := ((h.uid_gid >>> 32) &&& 0xFFFFFFFF).toUInt32
    comm := h.comm n data.comm }

def submit_event (h : Helpers) (cpu n : Nat) (m : Maps) : Maps :=
  perf_event_output cpu (storeData cpu (setTask h n) m)

/-- `memcpy` of the operation's name, and the submission. -/
def report (r : Rodata) (h : Helpers) (cpu n : Nat) (op : String) (m : Maps) : Maps :=
  submit_event h cpu n (storeData cpu (setOperation r op) m)

/-- The filename of the cached record, if there is one. -/
def copyCached (cpu : Nat) (ino : UInt64) (m : Maps) : Maps :=
  match m.inode_cache ino with
  | some cached => storeData cpu (fun data => { data with filename := cached.data.filename }) m
  | none => m

/-- The way into every hook: the identity test, the lookup of the record, and its clearing. -/
def guarded (target : Bool) (cpu : Nat) (body : Maps → Maps) (m : Maps) : Maps :=
  if target then
    match m.lookup_data cpu 0 with
    | none => m
    | some _ => body (memset cpu m)
  else m

def file_open (r : Rodata) (h : Helpers) (cpu : Nat) (file : File) : Maps → Maps :=
  guarded (is_target_dir r file.parent) cpu fun m =>
    let m :=
      if file.hasPath then
        update_elem h cpu file.inode.i_ino <|
          storeData cpu (fun data => { data with filename := h.d_path file.path data.filename }) m
      else m
    report r h cpu 0 "open" m

def file_permission (r : Rodata) (h : Helpers) (cpu : Nat) (file : File) (mask : UInt32) :
    Maps → Maps :=
  guarded (is_target_dir r file.parent) cpu fun m =>
    let m := copyCached cpu file.inode.i_ino m
    let m := if mask &&& MAY_READ ≠ 0 then report r h cpu 0 "read" m else m
    if mask &&& MAY_WRITE ≠ 0 then
      let n := if mask &&& MAY_READ ≠ 0 then 1 else 0
      report r h cpu n "write" m
    else m

/-- The hooks that report one name in one directory. -/
def nameHook (op : String) (r : Rodata) (h : Helpers) (cpu : Nat) (dir : Inode) (dentry : Dentry) :
    Maps → Maps :=
  guarded (is_target_dir r dir) cpu fun m =>
    let m := storeData cpu (fun data =>
      { data with filename := h.probe_read_str 0 dentry.name data.filename }) m
    report r h cpu 0 op m

def inode_create : Rodata → Helpers → Nat → Inode → Dentry → Maps → Maps := nameHook "create"
def inode_link : Rodata → Helpers → Nat → Inode → Dentry → Maps → Maps := nameHook "link"
def inode_unlink : Rodata → Helpers → Nat → Inode → Dentry → Maps → Maps := nameHook "unlink"
def inode_symlink : Rodata → Helpers → Nat → Inode → Dentry → Maps → Maps := nameHook "symlink"
def inode_mkdir : Rodata → Helpers → Nat → Inode → Dentry → Maps → Maps := nameHook "mkdir"
def inode_rmdir : Rodata → Helpers → Nat → Inode → Dentry → Maps → Maps := nameHook "rmdir"
def inode_mknod : Rodata → Helpers → Nat → Inode → Dentry → Maps → Maps := nameHook "mknod"

def inode_rename (r : Rodata) (h : Helpers) (cpu : Nat) (old_dir : Inode) (old_dentry : Dentry)
    (new_dir : Inode) (new_dentry : Dentry) : Maps → Maps :=
  guarded (!(!is_target_dir r old_dir && !is_target_dir r new_dir)) cpu fun m =>
    let m := storeData cpu (fun data =>
      { data with filename := h.probe_read_str 0 old_dentry.name data.filename }) m
    let m := storeData cpu (fun data =>
      { data with new_filename := h.probe_read_str 1 new_dentry.name data.new_filename }) m
    report r h cpu 0 "rename" m

structure Invocation where
  cpu : Nat
  helpers : Helpers
  call : HookCall

def Invocation.invoke (r : Rodata) (i : Invocation) : Maps → Maps :=
  match i.call with
  | .file_open file => file_open r i.helpers i.cpu file
  | .file_permission file mask => file_permission r i.helpers i.cpu file mask
  | .inode_create dir dentry => inode_create r i.helpers i.cpu dir dentry
  | .inode_link dir dentry => inode_link r i.helpers i.cpu dir dentry
  | .inode_unlink dir dentry => inode_unlink r i.helpers i.cpu dir dentry
  | .inode_symlink dir dentry => inode_symlink r i.helpers i.cpu dir dentry
  | .inode_mkdir dir dentry => inode_mkdir r i.helpers i.cpu dir dentry
  | .inode_rmdir dir dentry => inode_rmdir r i.helpers i.cpu dir dentry
  | .inode_mknod dir dentry => inode_mknod r i.helpers i.cpu dir dentry
  | .inode_rename old_dir old_dentry new_dir new_dentry =>
    inode_rename r i.helpers i.cpu old_dir old_dentry new_dir new_dentry

def invokeAll (r : Rodata) (calls : List Invocation) (m : Maps) : Maps :=
  calls.foldl (fun m i => i.invoke r m) m

/-! ## Two runs -/

/-- The same cache and the same events; the records may differ. -/
structure Agree (m m' : Maps) : Prop where
  inode_cache : m.inode_cache = m'.inode_cache
  events : m.events = m'.events

/-- The same record of one CPU as well. -/
structure AgreeOn (cpu : Nat) (m m' : Maps) : Prop extends Agree m m' where
  record : m.data_array cpu = m'.data_array cpu

variable {m m' : Maps} {cpu : Nat}

theorem AgreeOn.store (h : AgreeOn cpu m m') (f : Record → Record) :
    AgreeOn cpu (store cpu f m) (store cpu f m') := by
  refine ⟨⟨h.inode_cache, h.events⟩, ?_⟩
  dsimp only [Scratch.store]
  rw [Function.update_self, Function.update_self, h.record]

/-- Clearing the record makes two runs agree on it. -/
theorem Agree.memset (h : Agree m m') (cpu : Nat) : AgreeOn cpu (memset cpu m) (memset cpu m') := by
  refine ⟨⟨h.inode_cache, h.events⟩, ?_⟩
  dsimp only [Scratch.memset, Scratch.store]
  rw [Function.update_self, Function.update_self]

theorem AgreeOn.update_elem (h : AgreeOn cpu m m') (hs : Helpers) (ino : UInt64) :
    AgreeOn cpu (update_elem hs cpu ino m) (update_elem hs cpu ino m') := by
  unfold Scratch.update_elem
  split
  · refine ⟨⟨?_, h.events⟩, h.record⟩
    dsimp only
    rw [h.inode_cache, h.record]
  · exact h

theorem AgreeOn.copyCached (h : AgreeOn cpu m m') (ino : UInt64) :
    AgreeOn cpu (copyCached cpu ino m) (copyCached cpu ino m') := by
  unfold Scratch.copyCached
  rw [h.inode_cache]
  split
  · exact h.store _
  · exact h

theorem AgreeOn.perf_event_output (h : AgreeOn cpu m m') :
    AgreeOn cpu (perf_event_output cpu m) (perf_event_output cpu m') := by
  refine ⟨⟨h.inode_cache, ?_⟩, h.record⟩
  dsimp only [Scratch.perf_event_output]
  rw [h.events, h.record]

theorem AgreeOn.report (h : AgreeOn cpu m m') (r : Rodata) (hs : Helpers) (n : Nat) (op : String) :
    AgreeOn cpu (report r hs cpu n op m) (report r hs cpu n op m') :=
  ((h.store _).store _).perf_event_output

theorem Agree.guarded (h : Agree m m') {target : Bool} {body : Maps → Maps}
    (hbody : ∀ m m', AgreeOn cpu m m' → AgreeOn cpu (body m) (body m')) :
    Agree (guarded target cpu body m) (guarded target cpu body m') := by
  unfold Scratch.guarded
  split
  · exact (hbody _ _ (h.memset cpu)).toAgree
  · exact h

theorem Agree.invoke (h : Agree m m') (r : Rodata) (i : Invocation) :
    Agree (i.invoke r m) (i.invoke r m') := by
  have hname : ∀ op dir dentry, Agree (nameHook op r i.helpers i.cpu dir dentry m)
      (nameHook op r i.helpers i.cpu dir dentry m') := by
    intro op dir dentry
    apply h.guarded
    intro m m' hm
    exact (hm.store _).report r i.helpers 0 op
  unfold Invocation.invoke
  cases i.call with
  | file_open file =>
    apply h.guarded
    intro m m' hm
    dsimp only
    split
    · exact ((hm.store _).update_elem _ _).report r i.helpers 0 "open"
    · exact hm.report r i.helpers 0 "open"
  | file_permission file mask =>
    apply h.guarded
    intro m m' hm
    have hcopied := hm.copyCached file.inode.i_ino
    have hread : AgreeOn i.cpu
        (if mask &&& MAY_READ ≠ 0 then
          report r i.helpers i.cpu 0 "read" (copyCached i.cpu file.inode.i_ino m)
          else copyCached i.cpu file.inode.i_ino m)
        (if mask &&& MAY_READ ≠ 0 then
          report r i.helpers i.cpu 0 "read" (copyCached i.cpu file.inode.i_ino m')
          else copyCached i.cpu file.inode.i_ino m') := by
      split
      · exact hcopied.report r i.helpers 0 "read"
      · exact hcopied
    dsimp only
    split
    · exact hread.report r i.helpers _ "write"
    · exact hread
  | inode_create dir dentry => exact hname _ dir dentry
  | inode_link dir dentry => exact hname _ dir dentry
  | inode_unlink dir dentry => exact hname _ dir dentry
  | inode_symlink dir dentry => exact hname _ dir dentry
  | inode_mkdir dir dentry => exact hname _ dir dentry
  | inode_rmdir dir dentry => exact hname _ dir dentry
  | inode_mknod dir dentry => exact hname _ dir dentry
  | inode_rename old_dir old_dentry new_dir new_dentry =>
    apply h.guarded
    intro m m' hm
    exact ((hm.store _).store _).report r i.helpers 0 "rename"

theorem Agree.invokeAll (h : Agree m m') (r : Rodata) (calls : List Invocation) :
    Agree (invokeAll r calls m) (invokeAll r calls m') :=
  List.foldl_rel h fun i _ _ _ hagree => hagree.invoke r i

/-! ## One invocation -/

/-- Events of these kinds are submitted on the CPU, and only these keys of the cache can change. -/
structure Effect (cpu : Nat) (keys : List UInt64) (kinds : List Operation) (m t : Maps) : Prop where
  events : ∃ es : List Record, t.events = m.events ++ es.map (cpu, ·) ∧
    List.Forall₂ (fun kind e => e.data.operation.str = hookName kind) kinds es
  inode_cache : ∀ key, key ∉ keys → t.inode_cache key = m.inode_cache key

variable {t u : Maps} {keys keys' : List UInt64} {kinds kinds' : List Operation}

theorem Effect.none (m : Maps) : Effect cpu [] [] m m :=
  ⟨⟨[], (List.append_nil _).symm, .nil⟩, fun _ _ => rfl⟩

theorem Effect.trans (h : Effect cpu keys kinds m t) (h' : Effect cpu keys' kinds' t u) :
    Effect cpu (keys ++ keys') (kinds ++ kinds') m u := by
  obtain ⟨es, hes, hkinds⟩ := h.events
  obtain ⟨es', hes', hkinds'⟩ := h'.events
  refine ⟨⟨es ++ es', ?_, List.rel_append hkinds hkinds'⟩, ?_⟩
  · rw [hes', hes, List.map_append, List.append_assoc]
  · intro key hkey
    obtain ⟨hk, hk'⟩ := not_or.mp (fun hor => hkey (List.mem_append.mpr hor))
    rw [h'.inode_cache key hk', h.inode_cache key hk]

theorem store_effect (cpu : Nat) (f : Record → Record) (m : Maps) :
    Effect cpu [] [] m (store cpu f m) :=
  ⟨⟨[], (List.append_nil _).symm, .nil⟩, fun _ _ => rfl⟩

theorem update_elem_effect (h : Helpers) (cpu : Nat) (ino : UInt64) (m : Maps) :
    Effect cpu [ino] [] m (update_elem h cpu ino m) := by
  unfold update_elem
  split
  · refine ⟨⟨[], (List.append_nil _).symm, .nil⟩, ?_⟩
    intro key hkey
    exact Function.update_of_ne (fun heq => hkey (List.mem_singleton.mpr heq)) ..
  · exact ⟨⟨[], (List.append_nil _).symm, .nil⟩, fun _ _ => rfl⟩

theorem copyCached_effect (cpu : Nat) (ino : UInt64) (m : Maps) :
    Effect cpu [] [] m (copyCached cpu ino m) := by
  unfold copyCached
  split
  · exact store_effect cpu _ m
  · exact Effect.none m

theorem report_effect {op : String} (kind : Operation) (hop : ascii op = hookName kind) (r : Rodata)
    (h : Helpers) (cpu n : Nat) (m : Maps) : Effect cpu [] [kind] m (report r h cpu n op m) := by
  refine ⟨⟨[(report r h cpu n op m).data_array cpu], rfl, .cons ?_ .nil⟩, fun _ _ => rfl⟩
  dsimp only [report, submit_event, perf_event_output, storeData, store, setTask, setOperation]
  rw [Function.update_self, Function.update_self, hop]
  exact str_memcpy _ (hookName_length_lt kind) (nul_notMem_hookName kind)

/-- A hook that does not pass its identity test returns at once. -/
structure Guarded (target : Bool) (cpu : Nat) (keys : List UInt64) (kinds : List Operation)
    (m t : Maps) : Prop where
  inside : target = true → Effect cpu keys kinds m t
  outside : target = false → t = m

theorem guarded_spec {target : Bool} {body : Maps → Maps}
    (hbody : ∀ m, Effect cpu keys kinds m (body m)) (m : Maps) :
    Guarded target cpu keys kinds m (guarded target cpu body m) := by
  constructor
  · rintro rfl
    exact (store_effect cpu _ m).trans (hbody _)
  · rintro rfl
    rfl

/-- The inode that an invocation may put into the cache. -/
def cachedKeys : HookCall → List UInt64
  | .file_open file => [file.inode.i_ino]
  | _ => []

theorem nameHook_spec {op : String} (kind : Operation) (hop : ascii op = hookName kind) (r : Rodata)
    (h : Helpers) (cpu : Nat) (dir : Inode) (dentry : Dentry) (m : Maps) :
    Guarded (is_target_dir r dir) cpu [] [kind] m (nameHook op r h cpu dir dentry m) := by
  apply guarded_spec
  intro m
  exact (store_effect cpu _ m).trans (report_effect kind hop r h cpu 0 _)

theorem file_open_spec (r : Rodata) (h : Helpers) (cpu : Nat) (file : File) (m : Maps) :
    Guarded (is_target_dir r file.parent) cpu [file.inode.i_ino] [.open] m
      (file_open r h cpu file m) := by
  apply guarded_spec
  intro m
  dsimp only
  split
  · exact ((store_effect cpu _ m).trans (update_elem_effect h cpu _ _)).trans
      (report_effect .open rfl r h cpu 0 _)
  · obtain ⟨hevents, hcache⟩ := report_effect .open rfl r h cpu 0 m
    exact ⟨hevents, fun key _ => hcache key List.not_mem_nil⟩

theorem file_permission_spec (r : Rodata) (h : Helpers) (cpu : Nat) (file : File) (mask : UInt32)
    (m : Maps) : Guarded (is_target_dir r file.parent) cpu [] (HookCall.file_permission file mask).kinds
      m (file_permission r h cpu file mask m) := by
  apply guarded_spec
  intro m
  have hif : ∀ (c : Prop) [Decidable c] (kind : Operation) (op : String) (n : Nat) (m : Maps),
      ascii op = hookName kind → Effect cpu [] (if c then [kind] else []) m
        (if c then report r h cpu n op m else m) := by
    intro c _ kind op n m hop
    by_cases hc : c
    · rw [if_pos hc, if_pos hc]
      exact report_effect kind hop r h cpu n m
    · rw [if_neg hc, if_neg hc]
      exact Effect.none m
  exact ((copyCached_effect cpu _ m).trans (hif (mask &&& MAY_READ ≠ 0) .read "read" 0 _ rfl)).trans
    (hif (mask &&& MAY_WRITE ≠ 0) .write "write" _ _ rfl)

theorem inode_rename_spec (r : Rodata) (h : Helpers) (cpu : Nat) (old_dir : Inode)
    (old_dentry : Dentry) (new_dir : Inode) (new_dentry : Dentry) (m : Maps) :
    Guarded (is_target_dir r old_dir || is_target_dir r new_dir) cpu [] [.rename] m
      (inode_rename r h cpu old_dir old_dentry new_dir new_dentry m) := by
  rw [show (is_target_dir r old_dir || is_target_dir r new_dir) =
    !(!is_target_dir r old_dir && !is_target_dir r new_dir) by simp]
  apply guarded_spec
  intro m
  exact ((store_effect cpu _ m).trans (store_effect cpu _ _)).trans
    (report_effect .rename rfl r h cpu 0 _)

theorem Invocation.invoke_spec (r : Rodata) (i : Invocation) (m : Maps) :
    Guarded (i.call.dirs.any (is_target_dir r)) i.cpu (cachedKeys i.call) i.call.kinds m
      (i.invoke r m) := by
  unfold invoke
  cases i.call
  all_goals simp only [HookCall.dirs, List.any_cons, List.any_nil, Bool.or_false]
  case file_open file => exact file_open_spec r _ _ file m
  case file_permission file mask => exact file_permission_spec r _ _ file mask m
  case inode_create dir dentry => exact nameHook_spec .create rfl r _ _ dir dentry m
  case inode_link dir dentry => exact nameHook_spec .link rfl r _ _ dir dentry m
  case inode_unlink dir dentry => exact nameHook_spec .unlink rfl r _ _ dir dentry m
  case inode_symlink dir dentry => exact nameHook_spec .syslink rfl r _ _ dir dentry m
  case inode_mkdir dir dentry => exact nameHook_spec .mkdir rfl r _ _ dir dentry m
  case inode_rmdir dir dentry => exact nameHook_spec .rmdir rfl r _ _ dir dentry m
  case inode_mknod dir dentry => exact nameHook_spec .mknod rfl r _ _ dir dentry m
  case inode_rename old_dir old_dentry new_dir new_dentry =>
    exact inode_rename_spec r _ _ old_dir old_dentry new_dir new_dentry m

/-- What the records held before the first invocation shows in no event and in no cached record.
Every invocation on the target directory submits the events it stands for, one elsewhere changes
nothing, and only `file_open` changes the cache, at the inode it opens. -/
theorem no_leak (r : Rodata) (calls : List Invocation) (data data' : Nat → Record)
    (cache : UInt64 → Option Record) (events : List (Nat × Record)) :
    (invokeAll r calls ⟨data, cache, events⟩).events =
        (invokeAll r calls ⟨data', cache, events⟩).events ∧
      (invokeAll r calls ⟨data, cache, events⟩).inode_cache =
        (invokeAll r calls ⟨data', cache, events⟩).inode_cache ∧
      ∀ pre i post, calls = pre ++ i :: post →
        Guarded (i.call.dirs.any (is_target_dir r)) i.cpu (cachedKeys i.call) i.call.kinds
          (invokeAll r pre ⟨data, cache, events⟩) (invokeAll r (pre ++ [i]) ⟨data, cache, events⟩) := by
  have hstart : Agree ⟨data, cache, events⟩ ⟨data', cache, events⟩ := ⟨rfl, rfl⟩
  have hagree := hstart.invokeAll r calls
  refine ⟨hagree.events, hagree.inode_cache, ?_⟩
  intro pre i post _
  have hlast : invokeAll r (pre ++ [i]) ⟨data, cache, events⟩ =
      i.invoke r (invokeAll r pre ⟨data, cache, events⟩) := by
    unfold invokeAll
    rw [List.foldl_append]
    rfl
  rw [hlast]
  exact i.invoke_spec r _

end Naarad.Scratch
