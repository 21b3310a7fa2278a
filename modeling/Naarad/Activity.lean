import Naarad.EndToEnd
import Naarad.Sinks
import Naarad.Table

/-!
# From the activity in the target directory to the table on the screen

`observe` says what the monitor is for: who did what to which file, in order. Between it and the
table are the scratch record, the perf buffer, the conversion of the event, the linked queue and
the array of copies.
-/

set_option autoImplicit false

namespace Naarad.Hooks

open CharArray Queue

structure Activity where
  kind : Operation
  file : List UInt8
  comm : List UInt8
  uid : UInt32
  gid : UInt32

/-- The path that a file was opened by last, by its inode number. -/
abbrev Names := List (UInt64 × List UInt8)

def Activity.by (task : Task) (file : List UInt8) (kind : Operation) : Activity where
  kind := kind
  file := file
  comm := task.comm.str
  uid := (task.uid_gid &&& 0xFFFFFFFF).toUInt32
  gid := ((task.uid_gid >>> 32) &&& 0xFFFFFFFF).toUInt32

/-- A name is recorded as far as it fits. -/
def Dentry.recorded (dentry : Dentry) : List UInt8 := dentry.name.take 255

namespace HookCall

def subject (names : Names) : HookCall → List UInt8
  | .file_open file => if file.hasPath then file.path else []
  | .file_permission file _ => (names.lookup file.inode.i_ino).getD []
  | .inode_create _ dentry => dentry.recorded
  | .inode_link _ dentry => dentry.recorded
  | .inode_unlink _ dentry => dentry.recorded
  | .inode_symlink _ dentry => dentry.recorded
  | .inode_mkdir _ dentry => dentry.recorded
  | .inode_rmdir _ dentry => dentry.recorded
  | .inode_mknod _ dentry => dentry.recorded
  | .inode_rename _ dentry _ _ => dentry.recorded

def remember (names : Names) : HookCall → Names
  | .file_open file =>
    if file.hasPath then BoundedMap.update INODE_CACHE_ENTRIES names file.inode.i_ino file.path
    else names
  | _ => names

def observe (names : Names) (task : Task) (call : HookCall) : List Activity :=
  call.kinds.map (.by task (call.subject names))

/-- The strings that the kernel passes. -/
def strings : HookCall → List (List UInt8)
  | .file_open file => [file.path]
  | .file_permission _ _ => []
  | .inode_create _ dentry => [dentry.name]
  | .inode_link _ dentry => [dentry.name]
  | .inode_unlink _ dentry => [dentry.name]
  | .inode_symlink _ dentry => [dentry.name]
  | .inode_mkdir _ dentry => [dentry.name]
  | .inode_rmdir _ dentry => [dentry.name]
  | .inode_mknod _ dentry => [dentry.name]
  | .inode_rename _ dentry _ new_dentry => [dentry.name, new_dentry.name]

/-- Those that have to fit a buffer as a whole. -/
def paths : HookCall → List (List UInt8)
  | .file_open file => [file.path]
  | _ => []

end HookCall

/-- The activity that a sequence of calls is to report; a call that concerns no target directory
is not observed. -/
def observeAll (r : Rodata) : List (Task × HookCall) → Names → List Activity
  | [], _ => []
  | (task, call) :: calls, names =>
    if call.dirs.any (is_target_dir r) then
      call.observe names task ++ observeAll r calls (call.remember names)
    else observeAll r calls names

variable {M : Type} {bh : BpfHelpers M}

/-- The cache has the names. -/
def Caches (bh : BpfHelpers M) (cache : M) (names : Names) : Prop :=
  BoundedMap.Tracks bh.ops (BoundedMap.listOps INODE_CACHE_ENTRIES)
    (fun data : data_t => data.filename.str) cache names

/-- The event reports the activity. -/
structure Reports (e : data_t) (a : Activity) : Prop where
  operation : e.operation.str = hookName a.kind
  filename : e.filename.str = a.file
  comm : e.comm.str = a.comm
  uid : e.uid = a.uid
  gid : e.gid = a.gid

/-- What an invocation leaves behind, beside the earlier events. -/
structure Observed (bh : BpfHelpers M) (b : Bpf M) (activities : List Activity) (names : Names)
    (b' : Bpf M) : Prop where
  data_array : b'.data_array.isSome
  names : Caches bh b'.inode_cache names
  events : ∃ es, b'.events = b.events ++ es ∧ List.Forall₂ Reports es activities

theorem Observed.none {b : Bpf M} {names : Names} (hdata : b.data_array.isSome)
    (hnames : Caches bh b.inode_cache names) : Observed bh b [] names b :=
  ⟨hdata, hnames, [], (List.append_nil _).symm, .nil⟩

theorem Observed.trans {b₁ b₂ b₃ : Bpf M} {as₁ as₂ : List Activity} {names₁ names₂ : Names}
    (h₁ : Observed bh b₁ as₁ names₁ b₂) (h₂ : Observed bh b₂ as₂ names₂ b₃) :
    Observed bh b₁ (as₁ ++ as₂) names₂ b₃ := by
  obtain ⟨es₁, heq₁, hes₁⟩ := h₁.events
  obtain ⟨es₂, heq₂, hes₂⟩ := h₂.events
  refine ⟨h₂.data_array, h₂.names, es₁ ++ es₂, ?_, List.rel_append hes₁ hes₂⟩
  rw [heq₂, heq₁, List.append_assoc]

theorem submit_event_observed {r : Rodata} {task : Task} {n : Nat} {op : String} (data : data_t)
    {b : Bpf M} {kind : Operation} {names : Names} (hop : ascii op = hookName kind)
    (hnames : Caches bh b.inode_cache names) :
    Observed bh b [.by task data.filename.str kind] names
      (submit_event task n (setOperation r op data) b) := by
  refine ⟨rfl, hnames, [_], rfl, .cons ⟨?_, rfl, rfl, rfl, rfl⟩ .nil⟩
  simp only [setOperation, hop]
  exact str_memcpy _ (hookName_length_lt kind) (nul_notMem_hookName kind)

section Invoke
variable {r : Rodata} {task : Task} {b : Bpf M} {names : Names}

theorem nameHook_observed (hdoc : bh.Documented) {op : String} {kind : Operation}
    (hop : ascii op = hookName kind) {dir : Inode} {dentry : Dentry} (hdata : b.data_array.isSome)
    (hnames : Caches bh b.inode_cache names) (hdir : is_target_dir r dir = true)
    (hclean : 0 ∉ dentry.name) :
    Observed bh b [.by task dentry.recorded kind] names (nameHook op bh r task dir dentry b) := by
  obtain ⟨data, hdata⟩ := Option.isSome_iff_exists.mp hdata
  have hname : (bh.bpf_probe_read_str data_t.zero.filename dentry.name).str = dentry.recorded :=
    hdoc.probe_read_str hclean
  unfold nameHook
  rw [if_pos hdir, hdata, ← hname]
  exact submit_event_observed { data_t.zero with filename := _ } hop hnames

theorem file_open_observed (hdoc : bh.Documented) {file : File} (hdata : b.data_array.isSome)
    (hnames : Caches bh b.inode_cache names) (hdir : is_target_dir r file.parent = true)
    (hfits : file.path.length < 256) (hclean : 0 ∉ file.path) :
    Observed bh b ((HookCall.file_open file).observe names task)
      ((HookCall.file_open file).remember names) (file_open bh r task file b) := by
  obtain ⟨data, hsome⟩ := Option.isSome_iff_exists.mp hdata
  have hop : ascii "open" = hookName .open := rfl
  unfold file_open
  rw [if_pos hdir, hsome]
  simp only [HookCall.observe, HookCall.kinds, HookCall.subject, HookCall.remember]
  by_cases hpath : file.hasPath
  · rw [if_pos hpath, if_pos hpath, if_pos hpath]
    let opened : data_t :=
      { data_t.zero with filename := bh.bpf_d_path file.path data_t.zero.filename }
    have hfilename : opened.filename.str = file.path := hdoc.d_path hfits hclean
    have hcached : Caches bh (bh.bpf_map_update_elem b.inode_cache file.inode.i_ino opened)
        (BoundedMap.update INODE_CACHE_ENTRIES names file.inode.i_ino opened.filename.str) :=
      hnames.update hdoc.inode_cache BoundedMap.listOps_laws file.inode.i_ino opened
    let cached : Bpf M := { b with
      inode_cache := bh.bpf_map_update_elem b.inode_cache file.inode.i_ino opened }
    have hcache : Observed bh b [] _ cached := ⟨hdata, hcached, [], (List.append_nil _).symm, .nil⟩
    have hevent : Observed bh cached [.by task opened.filename.str .open] _
        (submit_event task 0 (setOperation r "open" opened) cached) :=
      submit_event_observed opened hop hcached
    have hboth := hcache.trans hevent
    rw [hfilename] at hboth
    exact hboth
  · rw [if_neg hpath, if_neg hpath, if_neg hpath]
    exact submit_event_observed data_t.zero hop hnames

theorem submit_event_observed_if {n : Nat} {op : String} {data : data_t} {kind : Operation}
    {c : Prop} [Decidable c] (hdata : b.data_array.isSome)
    (hnames : Caches bh b.inode_cache names) (hop : ascii op = hookName kind) :
    Observed bh b ((if c then [kind] else []).map (.by task data.filename.str)) names
      (if c then submit_event task n (setOperation r op data) b else b) := by
  by_cases hc : c
  · rw [if_pos hc, if_pos hc]
    exact submit_event_observed data hop hnames
  · rw [if_neg hc, if_neg hc]
    exact .none hdata hnames

/-- The read and the write that the mask asks for; the write finds the name in the record that the
read has submitted. -/
theorem accesses_observed (hnames : Caches bh b.inode_cache names) (file : File) (mask : UInt32)
    (data : data_t) :
    Observed bh b ((HookCall.file_permission file mask).kinds.map (.by task data.filename.str)) names
      (let b := { b with data_array := some data }
      let b :=
        if mask &&& MAY_READ ≠ 0 then submit_event task 0 (setOperation r "read" data) b else b
      if mask &&& MAY_WRITE ≠ 0 then
        let n := if mask &&& MAY_READ ≠ 0 then 1 else 0
        submit_event task n (setOperation r "write" (b.data_array.getD data)) b
      else b) := by
  have hscratch : Observed bh b [] names { b with data_array := some data } :=
    ⟨rfl, hnames, [], (List.append_nil _).symm, .nil⟩
  have hfirst : Observed bh { b with data_array := some data }
      ((if mask &&& MAY_READ ≠ 0 then [.read] else []).map (.by task data.filename.str)) names
      (if mask &&& MAY_READ ≠ 0 then
        submit_event task 0 (setOperation r "read" data) { b with data_array := some data }
      else { b with data_array := some data }) :=
    submit_event_observed_if rfl hnames rfl
  simp only [HookCall.kinds, List.map_append]
  refine hscratch.trans (hfirst.trans ?_)
  by_cases hread : mask &&& MAY_READ ≠ 0
  · simp only [if_pos hread]
    exact submit_event_observed_if rfl hnames rfl
  · simp only [if_neg hread]
    exact submit_event_observed_if rfl hnames rfl

theorem file_permission_observed {file : File} {mask : UInt32} (hdata : b.data_array.isSome)
    (hnames : Caches bh b.inode_cache names) (hdir : is_target_dir r file.parent = true) :
    Observed bh b ((HookCall.file_permission file mask).observe names task) names
      (file_permission bh r task file mask b) := by
  obtain ⟨old, hsome⟩ := Option.isSome_iff_exists.mp hdata
  have hlookup : names.lookup file.inode.i_ino =
      (bh.bpf_map_lookup_elem b.inode_cache file.inode.i_ino).map fun data => data.filename.str :=
    hnames.lookup file.inode.i_ino
  unfold file_permission HookCall.observe HookCall.subject
  rw [if_pos hdir, hsome]
  simp only [hlookup]
  cases bh.bpf_map_lookup_elem b.inode_cache file.inode.i_ino with
  | none => exact accesses_observed hnames file mask data_t.zero
  | some cached =>
    exact accesses_observed hnames file mask { data_t.zero with filename := cached.filename }

theorem inode_rename_observed (hdoc : bh.Documented) {old_dir new_dir : Inode}
    {old_dentry new_dentry : Dentry} (hdata : b.data_array.isSome)
    (hnames : Caches bh b.inode_cache names)
    (hdir : (is_target_dir r old_dir || is_target_dir r new_dir) = true)
    (hclean : 0 ∉ old_dentry.name) :
    Observed bh b [.by task old_dentry.recorded .rename] names
      (inode_rename bh r task old_dir old_dentry new_dir new_dentry b) := by
  obtain ⟨data, hdata⟩ := Option.isSome_iff_exists.mp hdata
  have hop : ascii "rename" = hookName .rename := rfl
  have hname : (bh.bpf_probe_read_str data_t.zero.filename old_dentry.name).str =
      old_dentry.recorded := hdoc.probe_read_str hclean
  unfold inode_rename
  rw [← Bool.not_or, hdir, hdata, ← hname]
  exact submit_event_observed { data_t.zero with filename := _, new_filename := _ } hop hnames

theorem HookCall.invoke_observed (hdoc : bh.Documented) (task : Task) {call : HookCall}
    (hdata : b.data_array.isSome) (hnames : Caches bh b.inode_cache names)
    (hdir : call.dirs.any (is_target_dir r) = true) (hclean : ∀ text ∈ call.strings, 0 ∉ text)
    (hfits : ∀ path ∈ call.paths, path.length < 256) :
    Observed bh b (call.observe names task) (call.remember names) (call.invoke bh r task b) := by
  cases call
  all_goals simp only [dirs, List.any_cons, List.any_nil, Bool.or_false] at hdir
  all_goals simp only [strings, List.forall_mem_cons, List.not_mem_nil] at hclean
  case file_open file =>
    exact file_open_observed hdoc hdata hnames hdir (hfits _ List.mem_cons_self) hclean.1
  case file_permission file mask => exact file_permission_observed hdata hnames hdir
  case inode_create dir dentry => exact nameHook_observed hdoc rfl hdata hnames hdir hclean.1
  case inode_link dir dentry => exact nameHook_observed hdoc rfl hdata hnames hdir hclean.1
  case inode_unlink dir dentry => exact nameHook_observed hdoc rfl hdata hnames hdir hclean.1
  case inode_symlink dir dentry => exact nameHook_observed hdoc rfl hdata hnames hdir hclean.1
  case inode_mkdir dir dentry => exact nameHook_observed hdoc rfl hdata hnames hdir hclean.1
  case inode_rmdir dir dentry => exact nameHook_observed hdoc rfl hdata hnames hdir hclean.1
  case inode_mknod dir dentry => exact nameHook_observed hdoc rfl hdata hnames hdir hclean.1
  case inode_rename old_dir old_dentry new_dir new_dentry =>
    exact inode_rename_observed hdoc hdata hnames hdir hclean.1

end Invoke

theorem HookCall.invoke_elsewhere {r : Rodata} {task : Task} {b : Bpf M} {call : HookCall}
    (hdir : call.dirs.any (is_target_dir r) = false) : call.invoke bh r task b = b := by
  have hname : ∀ op dir dentry, is_target_dir r dir = false →
      nameHook op bh r task dir dentry b = b := by
    intro op dir dentry hdir
    unfold nameHook
    rw [hdir]
    exact if_neg Bool.false_ne_true
  cases call
  all_goals simp only [dirs, List.any_cons, List.any_nil, Bool.or_false] at hdir
  case file_open file =>
    simp only [invoke, Hooks.file_open, hdir]
    exact if_neg Bool.false_ne_true
  case file_permission file mask =>
    simp only [invoke, Hooks.file_permission, hdir]
    exact if_neg Bool.false_ne_true
  case inode_rename old_dir old_dentry new_dir new_dentry =>
    simp only [invoke, Hooks.inode_rename, ← Bool.not_or, hdir]
    exact if_pos rfl
  all_goals exact hname _ _ _ hdir

/-- No string has a NUL, and the paths fit. -/
def Passable (calls : List (Task × HookCall)) : Prop :=
  ∀ c ∈ calls, (∀ text ∈ c.2.strings, 0 ∉ text) ∧ ∀ path ∈ c.2.paths, path.length < 256

instance (calls : List (Task × HookCall)) : Decidable (Passable calls) :=
  inferInstanceAs (Decidable (∀ _ ∈ _, _ ∧ _))

/-- The events are the activity. -/
theorem invokeAll_observed (hdoc : bh.Documented) {r : Rodata} {calls : List (Task × HookCall)}
    {b : Bpf M} {names : Names} (hdata : b.data_array.isSome)
    (hnames : Caches bh b.inode_cache names) (hpassable : Passable calls) :
    ∃ es, (invokeAll bh r calls b).events = b.events ++ es ∧
      List.Forall₂ Reports es (observeAll r calls names) := by
  induction calls generalizing b names with
  | nil => exact ⟨[], (List.append_nil _).symm, .nil⟩
  | cons c calls ih =>
    obtain ⟨task, call⟩ := c
    obtain ⟨⟨hclean, hfits⟩, hrest⟩ := List.forall_mem_cons.mp hpassable
    unfold invokeAll observeAll
    cases hdir : call.dirs.any (is_target_dir r) with
    | true =>
      have hone := HookCall.invoke_observed hdoc task hdata hnames hdir hclean hfits
      obtain ⟨es, heq, hes⟩ := hone.events
      obtain ⟨es', heq', hes'⟩ := ih hone.data_array hone.names hrest
      rw [if_pos rfl]
      refine ⟨es ++ es', ?_, List.rel_append hes hes'⟩
      rw [heq', heq, List.append_assoc]
    | false =>
      rw [if_neg Bool.false_ne_true, HookCall.invoke_elsewhere hdir]
      exact ih hdata hnames hrest

/-- The name that the table has for a kind; the map does not know the hook's name for a symbolic
link. -/
def tableName (kind : Operation) : List UInt8 :=
  if kind = .syslink then ascii "unknown" else kind.key

def Activity.named (a : Activity) : Bool := !a.file.isEmpty

/-- The rows for some activity, from line `i` on. -/
def activityRows (user group : UInt32 → List UInt8) : Nat → List Activity → List Draw
  | _, [] => []
  | i, a :: as =>
    drawRow i (a.file.take 127) (a.comm.take 15) (tableName a.kind) (user a.uid) (group a.gid) ++
      activityRows user group (i + 1) as

/-- The message carries the activity. -/
structure Carries (m : Message) (a : Activity) : Prop where
  file : m.file.str = a.file.take 127
  comm : m.comm.str = a.comm.take 15
  op : operationName m.op = tableName a.kind
  uid : m.uid = a.uid
  gid : m.gid = a.gid

theorem operationName_mappedOp (kind : Operation) :
    operationName (mappedOp (hookName kind)) = tableName kind := by
  rw [mappedOp_hookName]
  unfold tableName
  by_cases hlink : kind = .syslink
  · rw [if_pos hlink, if_pos hlink]
    decide
  · rw [if_neg hlink, if_neg hlink]
    exact operationName_code kind

theorem Reports.carries {e : data_t} {a : Activity} {m : Message} (h : Reports e a)
    (hm : MessageOf e m) : Carries m a where
  file := by rw [hm.file, h.filename]
  comm := by rw [hm.comm, h.comm]
  op := by rw [hm.op, h.operation, operationName_mappedOp]
  uid := by rw [hm.uid, h.uid]
  gid := by rw [hm.gid, h.gid]

theorem Carries.named_eq {m : Message} {a : Activity} (h : Carries m a) :
    Naarad.named m = a.named := by
  unfold Naarad.named Activity.named
  rw [h.file]
  cases a.file <;> rfl

theorem rowsFrom_carried {user group : UInt32 → List UInt8} {ms : List Message}
    {as : List Activity} (h : List.Forall₂ Carries ms as) (i : Nat) :
    rowsFrom user group i (ms.takeWhile Naarad.named) =
      activityRows user group i (as.takeWhile Activity.named) := by
  induction h generalizing i with
  | nil => rfl
  | @cons m a ms as hone _ ih =>
    rw [List.takeWhile_cons, List.takeWhile_cons, hone.named_eq]
    cases a.named with
    | false => rfl
    | true =>
      simp only [if_true, rowsFrom, activityRows]
      rw [ih, hone.file, hone.comm, hone.op, hone.uid, hone.gid]

theorem carried {events : List data_t} {as : List Activity} {es : List (Env × data_t)}
    {hs : List Handled} (hreports : List.Forall₂ Reports events as)
    (hes : es.map Prod.snd = events)
    (hmsgs : List.Forall₂ (fun e h => MessageOf e.2 h.msg) es hs) :
    List.Forall₂ Carries (hs.map Handled.msg) as := by
  subst hes
  induction hmsgs generalizing as with
  | nil =>
    cases hreports
    exact .nil
  | cons hmsg _ ih =>
    cases hreports with
    | cons hone hrest => exact .cons (hone.carries hmsg) (ih hrest)

theorem showable_handled {es : List (Env × data_t)} {hs : List Handled}
    (hmsgs : List.Forall₂ (fun e h => MessageOf e.2 h.msg) es hs) :
    ∀ m ∈ hs.map Handled.msg, Showable m := by
  induction hmsgs with
  | nil => exact fun m hm => absurd hm List.not_mem_nil
  | cons hmsg _ ih =>
    rw [List.map_cons, List.forall_mem_cons]
    exact ⟨hmsg.showable, ih⟩

/-- What was done in the target directory, the table shows: one row for each access, in order, up to
the first one whose file has no recorded name. Strings have no NUL, the paths of opened files fit
their buffer, and every user and group is known. -/
theorem table_shows_activity (hdoc : bh.Documented) {r : Rodata} {calls : List (Task × HookCall)}
    {b : Bpf M} {names : Names} {es : List (Env × data_t)} {mon mon' : Monitor} {hs : List Handled}
    {getpwuid getgrgid : UInt32 → Option (List UInt8)} {user group : UInt32 → List UInt8}
    (hb : b.events = []) (hdata : b.data_array.isSome) (hnames : Caches bh b.inode_cache names)
    (hpassable : Passable calls) (hes : es.map Prod.snd = (invokeAll bh r calls b).events)
    (hmon : mon.Initialised) (halloc : ∀ e ∈ es, allocates e.1.push = true)
    (hrun : handleAll es mon = some (mon', hs))
    (hfew : (observeAll r calls names).length < MAX_ENTRIES)
    (hpw : ∀ uid, getpwuid uid = some (user uid)) (hgr : ∀ gid, getgrgid gid = some (group gid))
    (slots : Nat → Message) :
    ∃ draws, update_table getpwuid getgrgid (some slots) mon'.dq = some draws ∧
      draws.filter Draw.isCell =
        activityRows user group 0 ((observeAll r calls names).takeWhile Activity.named) := by
  have hall := handleAll_spec hmon.map_builtin hrun
  obtain ⟨events, hevents, hreports⟩ := invokeAll_observed hdoc hdata hnames hpassable
  rw [hb, List.nil_append] at hevents
  have hcarried := carried hreports (hes.trans hevents) hall.messages
  have hlength := hcarried.length_eq
  rw [List.length_map] at hlength
  obtain ⟨ns, hq⟩ := hall.display hmon halloc
  rw [Nat.sub_eq_zero_of_le (hlength ▸ Nat.le_of_lt hfew), List.drop_zero] at hq
  obtain ⟨draws, hdraws, hcells⟩ := update_table_encode hpw hgr hq.holds
    (by rw [List.length_map, hlength]; exact hfew) (showable_handled hall.messages) slots
  exact ⟨draws, hdraws, hcells.trans (rowsFrom_carried hcarried 0)⟩

/-- A file is opened, read, written and replaced, a link is made, and a file is made elsewhere. -/
theorem table_shows_activity_sample :
    let calls := sampleCalls ++ [(sampleTask, .inode_symlink sampleTarget ⟨ascii "c"⟩),
      (sampleTask, .inode_create ⟨1, 8⟩ ⟨ascii "d"⟩)]
    let row := fun i file op => drawRow i (ascii file) [] (ascii op) (ascii "root") (ascii "root")
    ∃ mon' hs draws, handleAll (handledCalls calls) (.fresh 0) = some (mon', hs) ∧
      update_table (some ∘ root) (some ∘ root) (some fun _ => Message.zero) mon'.dq = some draws ∧
      draws.filter Draw.isCell = row 0 "/t/a" "open" ++ row 1 "/t/a" "read" ++
        row 2 "/t/a" "write" ++ row 3 "b" "create" ++ row 4 "b" "rename" ++ row 5 "c" "unknown" := by
  intro calls row
  have hruns : (handleAll (handledCalls calls) (.fresh 0)).isSome := by decide +kernel
  obtain ⟨⟨mon', hs⟩, hrun⟩ := Option.isSome_iff_exists.mp hruns
  have hroot : ∀ id, (some ∘ root) id = some (root id) := fun _ => rfl
  have hnames : Caches .reference sampleBpf.inode_cache [] := ⟨fun _ => rfl, rfl⟩
  obtain ⟨draws, hdraws, hcells⟩ := table_shows_activity BpfHelpers.reference_documented rfl rfl
    hnames (by decide) (map_snd_handledCalls calls) (Monitor.fresh_initialised 0) (by decide) hrun
    (by decide) hroot hroot fun _ => Message.zero
  refine ⟨mon', hs, draws, hrun, hdraws, hcells.trans ?_⟩
  decide +kernel

end Naarad.Hooks
