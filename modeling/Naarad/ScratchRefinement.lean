import Naarad.ScratchRecord

/-!
# The hooks in memory refine the hooks

With the helpers as they are documented, an invocation that builds its event store by store in the
record of its CPU does to the cache and to the events what the hook of `Hooks` does.
-/

set_option autoImplicit false

namespace Naarad.Scratch

open CharArray Hooks
open Function (update)

variable {M : Type} {bh : BpfHelpers M} {m : Maps} {cpu : Nat}

/-- The state of `Hooks`: one record that is always found, the cache as an association list. -/
structure Refines (bh : BpfHelpers M) (m : Maps) (b : Bpf M) : Prop where
  data_array : b.data_array.isSome = true
  inode_cache : ∀ key, (m.inode_cache key).map Record.data = bh.bpf_map_lookup_elem b.inode_cache key
  events : m.events.map (fun e => e.2.data) = b.events

/-- One invocation of a task is answered by the helpers of `Hooks`. -/
structure Documented (bh : BpfHelpers M) (task : Task) (h : Helpers) : Prop where
  pid_tgid : h.pid_tgid = task.pid_tgid
  uid_gid : h.uid_gid = task.uid_gid
  ktime : h.ktime = task.ktime
  comm : ∀ n buf, h.comm n buf = task.comm
  d_path : ∀ path buf, h.d_path path buf = bh.bpf_d_path path buf
  probe_read_str : ∀ n s buf, h.probe_read_str n s buf = bh.bpf_probe_read_str buf s

/-- The update succeeds where the cache takes the key. -/
def Bounded (bh : BpfHelpers M) (b : Bpf M) (i : Invocation) : Prop :=
  ∀ key ∈ cachedKeys i.call, (i.helpers.update_elem = true ↔
    bh.Takes key b.inode_cache)

variable {b : Bpf M} {task : Task} {hs : Helpers} {data : data_t} {r : Rodata}

/-- `Refines`, with the record that the hook is filling in. -/
structure Filling (bh : BpfHelpers M) (cpu : Nat) (data : data_t) (m : Maps) (b : Bpf M) : Prop
    extends Refines bh m b where
  record : (m.data_array cpu).data = data

theorem Refines.memset (h : Refines bh m b) (cpu : Nat) : Filling bh cpu .zero (memset cpu m) b := by
  refine ⟨⟨h.data_array, h.inode_cache, h.events⟩, ?_⟩
  dsimp only [Scratch.memset, Scratch.store]
  rw [Function.update_self]
  rfl

theorem Filling.storeData (h : Filling bh cpu data m b) (f : data_t → data_t) :
    Filling bh cpu (f data) (storeData cpu f m) b := by
  refine ⟨⟨h.data_array, h.inode_cache, h.events⟩, ?_⟩
  dsimp only [Scratch.storeData, Scratch.store]
  rw [Function.update_self, h.record]

theorem Filling.update_elem (h : Filling bh cpu data m b) (hbh : bh.Documented) {hs : Helpers}
    {ino : UInt64} (htakes : hs.update_elem = true ↔ bh.Takes ino b.inode_cache) :
    Filling bh cpu data (update_elem hs cpu ino m)
      { b with inode_cache := bh.bpf_map_update_elem b.inode_cache ino data } := by
  have hother : ∀ {key}, key ≠ ino → bh.bpf_map_lookup_elem
      (bh.bpf_map_update_elem b.inode_cache ino data) key =
        bh.bpf_map_lookup_elem b.inode_cache key :=
    hbh.inode_cache.lookup_other
  unfold Scratch.update_elem
  by_cases hupdate : hs.update_elem = true
  · rw [if_pos hupdate]
    refine ⟨⟨h.data_array, ?_, h.events⟩, h.record⟩
    intro key
    dsimp only
    by_cases hkey : key = ino
    · subst hkey
      rw [Function.update_self, Option.map_some, h.record]
      exact (hbh.inode_cache.lookup_self (htakes.mp hupdate)).symm
    · rw [Function.update_of_ne hkey, h.inode_cache, hother hkey]
  · rw [if_neg hupdate]
    refine ⟨⟨h.data_array, ?_, h.events⟩, h.record⟩
    intro key
    have hrefused : ¬ bh.Takes ino b.inode_cache := fun htaken => hupdate (htakes.mpr htaken)
    rw [h.inode_cache]
    by_cases hkey : key = ino
    · subst hkey
      have hnone : bh.bpf_map_lookup_elem b.inode_cache key = none :=
        Option.not_isSome_iff_eq_none.mp fun hsome => hrefused (Or.inl hsome)
      exact hnone.trans (hbh.inode_cache.lookup_refused hrefused).symm
    · exact (hother hkey).symm

theorem Filling.copyCached (h : Filling bh cpu data m b) (ino : UInt64) :
    Filling bh cpu (match bh.bpf_map_lookup_elem b.inode_cache ino with
      | some cached => { data with filename := cached.filename }
      | none => data) (copyCached cpu ino m) b := by
  have hcache := h.inode_cache ino
  unfold Scratch.copyCached
  cases hcached : m.inode_cache ino with
  | some cached =>
    rw [hcached, Option.map_some] at hcache
    rw [← hcache]
    exact h.storeData fun data => { data with filename := cached.data.filename }
  | none =>
    rw [hcached, Option.map_none] at hcache
    rw [← hcache]
    exact h

theorem submit_event_eq (hdoc : Documented bh task hs) (n : Nat) (data : data_t) (b : Bpf M) :
    Hooks.submit_event task n data b = { b with
      data_array := some (setTask hs n data)
      events := b.events ++ [setTask hs n data] } := by
  unfold Hooks.submit_event setTask
  rw [hdoc.pid_tgid, hdoc.uid_gid, hdoc.ktime, hdoc.comm]

theorem Filling.report (h : Filling bh cpu data m b) (hdoc : Documented bh task hs) (n : Nat)
    (op : String) : Filling bh cpu (setTask hs n (setOperation r op data)) (report r hs cpu n op m)
      (Hooks.submit_event task n (setOperation r op data) b) := by
  obtain ⟨⟨_, hcache, hevents⟩, hrecord⟩ :=
    (h.storeData (setOperation r op)).storeData (setTask hs n)
  rw [submit_event_eq hdoc]
  refine ⟨⟨rfl, hcache, ?_⟩, hrecord⟩
  dsimp only [Scratch.report, submit_event, perf_event_output]
  rw [List.map_append, hevents, List.map_singleton, hrecord]

theorem Refines.guarded (h : Refines bh m b) {target : Bool} {body : Maps → Maps} {b' : Bpf M}
    (hinside : ∀ m, target = true → Filling bh cpu .zero m b →
      ∃ data, Filling bh cpu data (body m) b')
    (houtside : target = false → b' = b) : Refines bh (guarded target cpu body m) b' := by
  unfold Scratch.guarded
  cases htarget : target with
  | true =>
    obtain ⟨data, hfilling⟩ := hinside _ htarget (h.memset cpu)
    exact hfilling.toRefines
  | false =>
    rw [houtside htarget]
    exact h

theorem Refines.nameHook (h : Refines bh m b) (hdoc : Documented bh task hs) (op : String)
    (dir : Inode) (dentry : Dentry) :
    Refines bh (nameHook op r hs cpu dir dentry m) (Hooks.nameHook op bh r task dir dentry b) := by
  obtain ⟨data, hdata⟩ := Option.isSome_iff_exists.mp h.data_array
  unfold Hooks.nameHook
  apply h.guarded
  · intro m hdir hm
    rw [if_pos hdir, hdata]
    have hname := hm.storeData fun data =>
      { data with filename := hs.probe_read_str 0 dentry.name data.filename }
    rw [hdoc.probe_read_str] at hname
    exact ⟨_, hname.report hdoc 0 op⟩
  · intro hdir
    exact if_neg (Bool.eq_false_iff.mp hdir)

theorem Refines.file_open (h : Refines bh m b) (hbh : bh.Documented)
    (hdoc : Documented bh task hs) (file : File)
    (htakes : hs.update_elem = true ↔
      bh.Takes file.inode.i_ino b.inode_cache) :
    Refines bh (file_open r hs cpu file m) (Hooks.file_open bh r task file b) := by
  obtain ⟨data, hdata⟩ := Option.isSome_iff_exists.mp h.data_array
  unfold Hooks.file_open
  apply h.guarded
  · intro m hdir hm
    rw [if_pos hdir, hdata]
    dsimp only
    by_cases hpath : file.hasPath
    · rw [if_pos hpath, if_pos hpath]
      have hname := hm.storeData fun data =>
        { data with filename := hs.d_path file.path data.filename }
      rw [hdoc.d_path] at hname
      exact ⟨_, (hname.update_elem hbh htakes).report hdoc 0 "open"⟩
    · rw [if_neg hpath, if_neg hpath]
      exact ⟨_, hm.report hdoc 0 "open"⟩
  · intro hdir
    exact if_neg (Bool.eq_false_iff.mp hdir)

/-- As `Filling`, with the record in `b` too. -/
structure Filled (bh : BpfHelpers M) (cpu : Nat) (data : data_t) (m : Maps) (b : Bpf M) : Prop
    extends Filling bh cpu data m b where
  scratch : b.data_array = some data

theorem Filling.scratch (h : Filling bh cpu data m b) :
    Filled bh cpu data m { b with data_array := some data } :=
  ⟨⟨⟨rfl, h.inode_cache, h.events⟩, h.record⟩, rfl⟩

theorem Filled.report_if (h : Filled bh cpu data m b) (hdoc : Documented bh task hs) (c : Prop)
    [Decidable c] (n : Nat) (op : String) {data' : data_t} (hsame : data' = data) :
    ∃ data₁, Filled bh cpu data₁ (if c then report r hs cpu n op m else m)
      (if c then Hooks.submit_event task n (setOperation r op data') b else b) := by
  subst hsame
  by_cases hc : c
  · rw [if_pos hc, if_pos hc]
    refine ⟨_, h.toFilling.report hdoc n op, ?_⟩
    rw [submit_event_eq hdoc]
  · rw [if_neg hc, if_neg hc]
    exact ⟨_, h⟩

/-- The second report starts from the record that the first one left. -/
theorem Filled.permission (h : Filled bh cpu data m b) (hdoc : Documented bh task hs)
    (mask : UInt32) :
    ∃ data₂, Filling bh cpu data₂
      (let m := if mask &&& MAY_READ ≠ 0 then report r hs cpu 0 "read" m else m
      if mask &&& MAY_WRITE ≠ 0 then
        report r hs cpu (if mask &&& MAY_READ ≠ 0 then 1 else 0) "write" m
      else m)
      (let b := if mask &&& MAY_READ ≠ 0 then
          Hooks.submit_event task 0 (setOperation r "read" data) b else b
      if mask &&& MAY_WRITE ≠ 0 then
        Hooks.submit_event task (if mask &&& MAY_READ ≠ 0 then 1 else 0)
          (setOperation r "write" (b.data_array.getD data)) b
      else b) := by
  obtain ⟨data₁, hread⟩ := h.report_if (r := r) hdoc (mask &&& MAY_READ ≠ 0) 0 "read" rfl
  dsimp only
  generalize (if mask &&& MAY_READ ≠ 0 then
    Hooks.submit_event task 0 (setOperation r "read" data) b else b) = b₁ at hread ⊢
  have hsame : b₁.data_array.getD data = data₁ := by
    rw [hread.scratch]
    rfl
  obtain ⟨data₂, hwrite⟩ := hread.report_if (r := r) hdoc (mask &&& MAY_WRITE ≠ 0)
    (if mask &&& MAY_READ ≠ 0 then 1 else 0) "write" hsame
  exact ⟨data₂, hwrite.toFilling⟩

theorem Refines.file_permission (h : Refines bh m b) (hdoc : Documented bh task hs) (file : File)
    (mask : UInt32) :
    Refines bh (file_permission r hs cpu file mask m)
      (Hooks.file_permission bh r task file mask b) := by
  obtain ⟨data, hdata⟩ := Option.isSome_iff_exists.mp h.data_array
  unfold Hooks.file_permission
  apply h.guarded
  · intro m hdir hm
    rw [if_pos hdir, hdata]
    exact (hm.copyCached file.inode.i_ino).scratch.permission hdoc mask
  · intro hdir
    exact if_neg (Bool.eq_false_iff.mp hdir)

theorem Refines.inode_rename (h : Refines bh m b) (hdoc : Documented bh task hs) (old_dir : Inode)
    (old_dentry : Dentry) (new_dir : Inode) (new_dentry : Dentry) :
    Refines bh (inode_rename r hs cpu old_dir old_dentry new_dir new_dentry m)
      (Hooks.inode_rename bh r task old_dir old_dentry new_dir new_dentry b) := by
  obtain ⟨data, hdata⟩ := Option.isSome_iff_exists.mp h.data_array
  unfold Hooks.inode_rename
  apply h.guarded
  · intro m hdirs hm
    rw [Bool.not_eq_true'] at hdirs
    rw [if_neg (Bool.eq_false_iff.mp hdirs), hdata]
    have hold := hm.storeData fun data =>
      { data with filename := hs.probe_read_str 0 old_dentry.name data.filename }
    have hboth := hold.storeData fun data =>
      { data with new_filename := hs.probe_read_str 1 new_dentry.name data.new_filename }
    rw [hdoc.probe_read_str, hdoc.probe_read_str] at hboth
    exact ⟨_, hboth.report hdoc 0 "rename"⟩
  · intro hdirs
    exact if_pos (by simpa using hdirs)

/-- With the documented helpers, an invocation in memory is the invocation of `Hooks`. -/
theorem Refines.invoke {i : Invocation} (h : Refines bh m b) (hbh : bh.Documented)
    (hdoc : Documented bh task i.helpers) (hbounded : Bounded bh b i) :
    Refines bh (i.invoke r m) (i.call.invoke bh r task b) := by
  unfold Bounded at hbounded
  unfold Invocation.invoke
  cases hcall : i.call with
  | file_open file =>
    rw [hcall] at hbounded
    exact h.file_open hbh hdoc file (hbounded _ List.mem_cons_self)
  | file_permission file mask => exact h.file_permission hdoc file mask
  | inode_create dir dentry => exact h.nameHook hdoc "create" dir dentry
  | inode_link dir dentry => exact h.nameHook hdoc "link" dir dentry
  | inode_unlink dir dentry => exact h.nameHook hdoc "unlink" dir dentry
  | inode_symlink dir dentry => exact h.nameHook hdoc "symlink" dir dentry
  | inode_mkdir dir dentry => exact h.nameHook hdoc "mkdir" dir dentry
  | inode_rmdir dir dentry => exact h.nameHook hdoc "rmdir" dir dentry
  | inode_mknod dir dentry => exact h.nameHook hdoc "mknod" dir dentry
  | inode_rename old_dir old_dentry new_dir new_dentry =>
    exact h.inode_rename hdoc old_dir old_dentry new_dir new_dentry

/-- Invocations one after the other, each with its task and the state of `Hooks` it meets. -/
def AllDocumented (bh : BpfHelpers M) (r : Rodata) : List (Task × Invocation) → Bpf M → Prop
  | [], _ => True
  | (task, i) :: calls, b =>
    Documented bh task i.helpers ∧ Bounded bh b i ∧
      AllDocumented bh r calls (i.call.invoke bh r task b)

theorem Refines.invokeAll {calls : List (Task × Invocation)} (h : Refines bh m b)
    (hbh : bh.Documented) (hdoc : AllDocumented bh r calls b) :
    Refines bh (invokeAll r (calls.map Prod.snd) m)
      (Hooks.invokeAll bh r (calls.map fun c => (c.1, c.2.call)) b) := by
  induction calls generalizing m b with
  | nil => exact h
  | cons c calls ih =>
    obtain ⟨htask, hbounded, hrest⟩ := hdoc
    exact ih (h.invoke hbh htask hbounded) hrest

end Naarad.Scratch
