import Naarad.FileSystem
import Naarad.EndToEnd

/-!
# The names in the inode cache

`file_open` files the path of a file under its inode number and `file_permission` reads it back.
Nothing else touches the cache, so a cached name goes stale when the file is renamed or unlinked
while it is open, and when a second open stores another path under the same number.
-/

set_option autoImplicit false

namespace Naarad.Hooks

open CharArray LabelledRun

variable {M : Type} {bh : BpfHelpers M} {d_path : PathOf} {r : Rodata}

/-- What `bh.bpf_d_path` writes for a file that is open through the entry. -/
def DirEntry.filename (bh : BpfHelpers M) (d_path : PathOf) (e : DirEntry) : CharArray 256 :=
  bh.bpf_d_path (e.file d_path).path data_t.zero.filename

def cachedName (bh : BpfHelpers M) (cache : M) (ino : UInt64) : CharArray 256 :=
  match bh.bpf_map_lookup_elem cache ino with
  | some cached => cached.filename
  | none => data_t.zero.filename

/-- In the target directory, a non-empty name cached for the entry's inode number is its path. -/
def Settled (bh : BpfHelpers M) (d_path : PathOf) (r : Rodata) (cache : M) (e : DirEntry) : Prop :=
  is_target_dir r e.dir → (cachedName bh cache e.inode.i_ino).str ≠ [] →
    (cachedName bh cache e.inode.i_ino).str = (e.filename bh d_path).str

/-- Every event that the next access can submit with a non-empty name has the path that the accessed
file has then. -/
def NamesFresh (bh : BpfHelpers M) (d_path : PathOf) (r : Rodata) (s : Kernel M) : Prop :=
  ∀ task f mask s' e es, s.step bh d_path r (task, .access f mask) = some s' →
    s.fs.file f = some e → s'.bpf.events = s.bpf.events ++ es → ∀ ev ∈ es, ev.filename.str ≠ [] →
      ev.filename.str = (e.filename bh d_path).str

/-- An entry of an open file that the operation changes is settled as the operation leaves it. -/
def MovesSettled (bh : BpfHelpers M) (d_path : PathOf) (r : Rodata) (op : FsOp) (s : Kernel M) :
    Prop :=
  ∀ x ∈ s.fs.opened, op.change s.fs x.1 x.2 ≠ x.2 →
    Settled bh d_path r s.bpf.inode_cache (op.change s.fs x.1 x.2)

/-- The non-empty name that an open caches is the path of every open file with that inode number. -/
def OpenSettled (bh : BpfHelpers M) (d_path : PathOf) (r : Rodata) (e : DirEntry) (s : Kernel M) :
    Prop :=
  is_target_dir r e.dir → bh.Takes e.inode.i_ino s.bpf.inode_cache →
    (e.filename bh d_path).str ≠ [] → ∀ x ∈ s.fs.opened, is_target_dir r x.2.dir →
      x.2.inode.i_ino = e.inode.i_ino → (e.filename bh d_path).str = (x.2.filename bh d_path).str

/-- Every open file is settled; without a scratch record nothing is ever submitted. -/
def Fresh (bh : BpfHelpers M) (d_path : PathOf) (r : Rodata) (s : Kernel M) : Prop :=
  s.bpf.data_array.isSome → ∀ x ∈ s.fs.opened, Settled bh d_path r s.bpf.inode_cache x.2

/-- The operation leaves no open file with another name in the cache than its path. -/
def Keeps (bh : BpfHelpers M) (d_path : PathOf) (r : Rodata) (op : Task × FsOp) (s : Kernel M) :
    Prop :=
  s.bpf.data_array.isSome →
    match op.2 with
    | .open d => ∀ e ∈ s.fs.linkedEntry d, OpenSettled bh d_path r e s
    | op => MovesSettled bh d_path r op s

instance (cache : M) (e : DirEntry) : Decidable (Settled bh d_path r cache e) :=
  inferInstanceAs (Decidable (_ → _ → _))

instance (op : FsOp) (s : Kernel M) : Decidable (MovesSettled bh d_path r op s) :=
  inferInstanceAs (Decidable (∀ _ ∈ _, _ → _))

instance (e : DirEntry) (s : Kernel M) : Decidable (OpenSettled bh d_path r e s) :=
  inferInstanceAs (Decidable (_ → _ → _ → ∀ _ ∈ _, _ → _ → _))

instance : ∀ (op : Task × FsOp) (s : Kernel M), Decidable (Keeps bh d_path r op s)
  | (_, .open _), _ => inferInstanceAs (Decidable (_ → ∀ _ ∈ _, OpenSettled ..))
  | (_, .create ..), _ => inferInstanceAs (Decidable (_ → MovesSettled ..))
  | (_, .link ..), _ => inferInstanceAs (Decidable (_ → MovesSettled ..))
  | (_, .unlink ..), _ => inferInstanceAs (Decidable (_ → MovesSettled ..))
  | (_, .rename ..), _ => inferInstanceAs (Decidable (_ → MovesSettled ..))
  | (_, .access ..), _ => inferInstanceAs (Decidable (_ → MovesSettled ..))
  | (_, .close ..), _ => inferInstanceAs (Decidable (_ → MovesSettled ..))

theorem nameHook_inode_cache (op : String) (r : Rodata) (task : Task) (dir : Inode)
    (dentry : Dentry) (b : Bpf M) :
    (nameHook op bh r task dir dentry b).inode_cache = b.inode_cache := by
  unfold nameHook
  split
  · split <;> rfl
  · rfl

theorem file_permission_inode_cache (r : Rodata) (task : Task) (file : File) (mask : UInt32)
    (b : Bpf M) : (file_permission bh r task file mask b).inode_cache = b.inode_cache := by
  unfold file_permission
  split
  · split
    · rfl
    · simp only
      split <;> split <;> rfl
  · rfl

theorem inode_rename_inode_cache (r : Rodata) (task : Task) (old_dir : Inode) (old_dentry : Dentry)
    (new_dir : Inode) (new_dentry : Dentry) (b : Bpf M) :
    (inode_rename bh r task old_dir old_dentry new_dir new_dentry b).inode_cache =
      b.inode_cache := by
  unfold inode_rename
  split
  · rfl
  · split <;> rfl

theorem file_open_inode_cache {r : Rodata} {task : Task} {e : DirEntry} {b : Bpf M}
    (hdata : b.data_array.isSome) :
    (file_open bh r task (e.file d_path) b).inode_cache =
      if is_target_dir r e.dir then
        bh.bpf_map_update_elem b.inode_cache e.inode.i_ino
          { data_t.zero with filename := e.filename bh d_path }
      else b.inode_cache := by
  obtain ⟨d, hd⟩ := Option.isSome_iff_exists.mp hdata
  unfold file_open
  by_cases hdir : is_target_dir r (e.file d_path).parent
  · rw [if_pos hdir, if_pos (show is_target_dir r e.dir from hdir), hd]
    rfl
  · rw [if_neg hdir, if_neg (show ¬ is_target_dir r e.dir from hdir)]

theorem submit_event_eq (r : Rodata) (task : Task) (n : Nat) (op : String) (data : data_t)
    (b : Bpf M) : ∃ ev, ev.filename = data.filename ∧
      submit_event task n (setOperation r op data) b =
        { b with data_array := some ev, events := b.events ++ [ev] } := by
  refine ⟨_, ?_, rfl⟩
  rfl

theorem submit_access_filename (r : Rodata) (task : Task) (mask : UInt32) (data : data_t)
    (b : Bpf M) (b₁ : Bpf M) (hb₁ : b₁ = if mask &&& MAY_READ ≠ 0 then
        submit_event task 0 (setOperation r "read" data) { b with data_array := some data }
      else { b with data_array := some data }) (n : Nat) :
    ∃ es, (if mask &&& MAY_WRITE ≠ 0 then
        submit_event task n (setOperation r "write" (b₁.data_array.getD data)) b₁
      else b₁).events = b.events ++ es ∧ ∀ ev ∈ es, ev.filename = data.filename := by
  -- both submissions take the scratch record, and neither changes its name
  have hread : ∃ es d, b₁.events = b.events ++ es ∧ b₁.data_array = some d ∧
      d.filename = data.filename ∧ ∀ ev ∈ es, ev.filename = data.filename := by
    split at hb₁
    · obtain ⟨ev, hev, heq⟩ :=
        submit_event_eq r task 0 "read" data { b with data_array := some data }
      rw [hb₁, heq]
      exact ⟨[ev], ev, rfl, rfl, hev, by simp [hev]⟩
    · rw [hb₁]
      exact ⟨[], data, (List.append_nil _).symm, rfl, rfl, by simp⟩
  obtain ⟨es, d, hes, hd, hname, hall⟩ := hread
  split
  · obtain ⟨ev, hev, heq⟩ := submit_event_eq r task n "write" (b₁.data_array.getD data) b₁
    rw [heq]
    refine ⟨es ++ [ev], ?_, ?_⟩
    · rw [← List.append_assoc, ← hes]
    · refine List.forall_mem_append.mpr ⟨hall, List.forall_mem_singleton.mpr ?_⟩
      rw [hev, hd]
      exact hname
  · exact ⟨es, hes, hall⟩

theorem file_permission_filename (r : Rodata) (task : Task) (file : File) (mask : UInt32)
    (b : Bpf M) :
    ∃ es, (file_permission bh r task file mask b).events = b.events ++ es ∧
      ∀ ev ∈ es, ev.filename = cachedName bh b.inode_cache file.inode.i_ino := by
  have hnone : ∃ es, b.events = b.events ++ es ∧
      ∀ ev ∈ es, ev.filename = cachedName bh b.inode_cache file.inode.i_ino :=
    ⟨[], (List.append_nil _).symm, by simp⟩
  unfold file_permission
  split
  · cases hdata : b.data_array with
    | none => exact hnone
    | some d =>
      unfold cachedName
      cases bh.bpf_map_lookup_elem b.inode_cache file.inode.i_ino with
      | none => exact submit_access_filename r task mask _ b _ rfl _
      | some cached =>
        exact submit_access_filename r task mask
          { data_t.zero with filename := cached.filename } b _ rfl _
  · exact hnone

theorem submits_access {mask : UInt32} {file : File}
    (h : mask &&& MAY_READ ≠ 0 ∨ mask &&& MAY_WRITE ≠ 0) :
    (HookCall.file_permission file mask).kinds ≠ [] := by
  simp only [HookCall.kinds]
  rcases h with h | h
  · rw [if_pos h]
    exact List.cons_ne_nil _ _
  · rw [if_pos h]
    exact List.append_ne_nil_of_right_ne_nil _ (List.cons_ne_nil _ _)

/-- An access submits events in the target directory only, under the cached name. -/
theorem file_permission_reports {r : Rodata} {task : Task} {file : File} {mask : UInt32} {b : Bpf M}
    {es : List data_t} (hes : (file_permission bh r task file mask b).events = b.events ++ es) :
    (∀ ev ∈ es, ev.filename = cachedName bh b.inode_cache file.inode.i_ino) ∧
      (es ≠ [] ↔ (is_target_dir r file.parent ∧ b.data_array.isSome) ∧
        (HookCall.file_permission file mask).kinds ≠ []) := by
  obtain ⟨es', hes', hfilename⟩ := file_permission_filename r task file mask b
  obtain ⟨es'', hes'', hkinds⟩ := (file_permission_invoked r task file mask b).events
  rw [hes] at hes' hes''
  cases List.append_cancel_left hes'
  cases List.append_cancel_left hes''
  refine ⟨hfilename, ?_⟩
  split at hkinds
  · rename_i hguard
    rw [and_iff_right (Bool.and_eq_true_iff.mp hguard), ne_eq, ne_eq, not_iff_not]
    constructor
    · rintro rfl
      exact List.forall₂_nil_right_iff.mp hkinds
    · intro hnil
      rw [hnil] at hkinds
      exact List.forall₂_nil_left_iff.mp hkinds
  · rename_i hguard
    rw [List.forall₂_nil_left_iff.mp hkinds]
    exact iff_of_false (fun hne => hne rfl) fun h => hguard (Bool.and_eq_true_iff.mpr h.1)

theorem HookCall.invoke_inode_cache {call : HookCall} (h : ∀ file, call ≠ .file_open file)
    (r : Rodata) (task : Task) (b : Bpf M) :
    (call.invoke bh r task b).inode_cache = b.inode_cache := by
  cases call with
  | file_open file => exact absurd rfl (h file)
  | file_permission file mask => exact file_permission_inode_cache r task file mask b
  | inode_rename old_dir old_dentry new_dir new_dentry =>
    exact inode_rename_inode_cache r task old_dir old_dentry new_dir new_dentry b
  | _ => exact nameHook_inode_cache _ r task _ _ b

theorem FsOp.hook_ne_file_open {op : FsOp} {fs : Fs} {call : HookCall} (hop : ∀ d, op ≠ .open d)
    (h : op.hook d_path fs = some call) (file : File) : call ≠ .file_open file := by
  rintro rfl
  cases op with
  | «open» d => exact hop d rfl
  | create dir name ino => cases h
  | link d dir name => cases h
  | close f => cases h
  | unlink d =>
    obtain ⟨e, -, he⟩ := Option.map_eq_some_iff.mp h
    cases he
  | access f mask =>
    obtain ⟨e, -, he⟩ := Option.map_eq_some_iff.mp h
    cases he
  | rename d dir name =>
    rw [hook] at h
    split at h
    · cases h
    · obtain ⟨e, -, he⟩ := Option.map_eq_some_iff.mp h
      cases he

theorem step_inode_cache {op : Task × FsOp} {s s' : Kernel M} (hop : ∀ d, op.2 ≠ .open d)
    (h : s.step bh d_path r op = some s') : s'.bpf.inode_cache = s.bpf.inode_cache := by
  obtain ⟨fs, -, rfl⟩ := Option.map_eq_some_iff.mp h
  cases hhook : op.2.hook d_path s.fs with
  | none => rfl
  | some call => exact HookCall.invoke_inode_cache (FsOp.hook_ne_file_open hop hhook) r op.1 s.bpf

theorem step_data_array {op : Task × FsOp} {s s' : Kernel M} (h : s.step bh d_path r op = some s') :
    s'.bpf.data_array.isSome = s.bpf.data_array.isSome := by
  obtain ⟨fs, -, rfl⟩ := Option.map_eq_some_iff.mp h
  cases op.2.hook d_path s.fs with
  | none => rfl
  | some call => exact (call.invoke_invoked r op.1 s.bpf).data_array

theorem step_fs {op : Task × FsOp} {s s' : Kernel M} (h : s.step bh d_path r op = some s') :
    op.2.Applies s.fs s'.fs := by
  obtain ⟨fs, hfs, rfl⟩ := Option.map_eq_some_iff.mp h
  exact FsOp.applies_of_apply hfs

/-- Of the operations other than an open, those that change the entry of an open file decide. -/
theorem step_fresh_of_moves {op : Task × FsOp} {s s' : Kernel M} (hop : ∀ d, op.2 ≠ .open d)
    (hdata : s.bpf.data_array.isSome) (hfresh : Fresh bh d_path r s)
    (h : s.step bh d_path r op = some s') :
    Fresh bh d_path r s' ↔ MovesSettled bh d_path r op.2 s := by
  have hcache := step_inode_cache hop h
  constructor
  · intro hfresh' x hx hne
    rw [← hcache]
    exact hfresh' ((step_data_array h).trans hdata) _ ((step_fs h).change_mem_opened hx hne)
  · intro hmoves _ x' hx'
    obtain ⟨x, hx, rfl⟩ := (step_fs h).mem_opened hop hx'
    rw [hcache]
    by_cases hsame : op.2.change s.fs x.1 x.2 = x.2
    · rw [hsame]
      exact hfresh hdata x hx
    · exact hmoves x hx hsame

theorem cachedName_update_self (hdoc : bh.Documented) {cache : M} {ino : UInt64} {v : data_t}
    (h : bh.Takes ino cache) :
    cachedName bh (bh.bpf_map_update_elem cache ino v) ino = v.filename := by
  have hlookup : bh.bpf_map_lookup_elem (bh.bpf_map_update_elem cache ino v) ino = some v :=
    hdoc.inode_cache.lookup_self h
  rw [cachedName, hlookup]

theorem cachedName_update_refused (hdoc : bh.Documented) {cache : M} {ino : UInt64} {v : data_t}
    (h : ¬ bh.Takes ino cache) :
    cachedName bh (bh.bpf_map_update_elem cache ino v) ino = data_t.zero.filename := by
  have hlookup : bh.bpf_map_lookup_elem (bh.bpf_map_update_elem cache ino v) ino = none :=
    hdoc.inode_cache.lookup_refused h
  rw [cachedName, hlookup]

theorem cachedName_update_of_ne (hdoc : bh.Documented) {cache : M} {ino ino' : UInt64} {v : data_t}
    (hne : ino' ≠ ino) :
    cachedName bh (bh.bpf_map_update_elem cache ino v) ino' = cachedName bh cache ino' := by
  have hlookup : bh.bpf_map_lookup_elem (bh.bpf_map_update_elem cache ino v) ino' =
      bh.bpf_map_lookup_elem cache ino' := hdoc.inode_cache.lookup_other hne
  rw [cachedName, cachedName, hlookup]

theorem str_zero_filename : data_t.zero.filename.str = [] := by decide

theorem Settled.of_ne (hdoc : bh.Documented) {cache : M} {e : DirEntry} {ino : UInt64} {v : data_t}
    (hne : e.inode.i_ino ≠ ino) (h : Settled bh d_path r cache e) :
    Settled bh d_path r (bh.bpf_map_update_elem cache ino v) e := by
  unfold Settled
  rw [cachedName_update_of_ne hdoc hne]
  exact h

theorem Settled.of_refused (hdoc : bh.Documented) {cache : M} {e : DirEntry} {v : data_t}
    (h : ¬ bh.Takes e.inode.i_ino cache) :
    Settled bh d_path r (bh.bpf_map_update_elem cache e.inode.i_ino v) e := by
  intro _ hne
  rw [cachedName_update_refused hdoc h] at hne
  exact absurd str_zero_filename hne

theorem settled_update_iff (hdoc : bh.Documented) {cache : M} {e : DirEntry} {v : data_t}
    (h : bh.Takes e.inode.i_ino cache) :
    Settled bh d_path r (bh.bpf_map_update_elem cache e.inode.i_ino v) e ↔
      (is_target_dir r e.dir → v.filename.str ≠ [] →
        v.filename.str = (e.filename bh d_path).str) := by
  unfold Settled
  rw [cachedName_update_self hdoc h]

theorem step_open {task : Task} {d : Nat} {s s' : Kernel M}
    (h : s.step bh d_path r (task, .open d) = some s') :
    ∃ hd : d < s.fs.entries.length, s.fs.linkedEntry d = some s.fs.entries[d] ∧
      s' = ⟨s.fs.addFile d hd, file_open bh r task (s.fs.entries[d].file d_path) s.bpf⟩ := by
  obtain ⟨fs, hfs, rfl⟩ := Option.map_eq_some_iff.mp h
  cases FsOp.applies_of_apply hfs with
  | «open» hd hentry =>
    refine ⟨hd, hentry, ?_⟩
    rw [FsOp.hook, hentry]
    rfl

theorem settled_after_open (hdoc : bh.Documented) {e : DirEntry} {s : Kernel M}
    {x : Nat × DirEntry} {v : data_t} (hv : v.filename = e.filename bh d_path)
    (hdir : is_target_dir r e.dir) (hopen : OpenSettled bh d_path r e s) (hx : x ∈ s.fs.opened)
    (hsettled : Settled bh d_path r s.bpf.inode_cache x.2) :
    Settled bh d_path r (bh.bpf_map_update_elem s.bpf.inode_cache e.inode.i_ino v) x.2 := by
  by_cases hino : x.2.inode.i_ino = e.inode.i_ino
  · rw [← hino]
    by_cases htakes : bh.Takes x.2.inode.i_ino s.bpf.inode_cache
    · apply (settled_update_iff hdoc htakes).mpr
      intro hxdir hne
      rw [hv] at hne ⊢
      exact hopen hdir (hino ▸ htakes) hne x hx hxdir hino
    · exact Settled.of_refused hdoc htakes
  · exact hsettled.of_ne hdoc hino

theorem step_fresh_of_open (hdoc : bh.Documented) {task : Task} {d : Nat} {s s' : Kernel M}
    (hdata : s.bpf.data_array.isSome) (hfresh : Fresh bh d_path r s)
    (h : s.step bh d_path r (task, .open d) = some s') :
    Fresh bh d_path r s' ↔ ∀ e ∈ s.fs.linkedEntry d, OpenSettled bh d_path r e s := by
  have hdata' := (step_data_array h).trans hdata
  obtain ⟨hd, hentry, heq⟩ := step_open h
  have hcache : s'.bpf.inode_cache = if is_target_dir r s.fs.entries[d].dir then
      bh.bpf_map_update_elem s.bpf.inode_cache s.fs.entries[d].inode.i_ino
        { data_t.zero with filename := s.fs.entries[d].filename bh d_path }
      else s.bpf.inode_cache := by
    rw [heq]
    exact file_open_inode_cache hdata
  have hopened : ∀ x, x ∈ s'.fs.opened ↔ x ∈ s.fs.opened ∨ x = (d, s.fs.entries[d]) := by
    intro x
    rw [heq]
    exact Fs.mem_opened_addFile
  constructor
  · intro hfresh' e he hdir htakes hne x hx hxdir hino
    cases hentry.symm.trans he
    have hsettled := hfresh' hdata' x ((hopened x).mpr (.inl hx))
    rw [hcache, if_pos hdir, ← hino] at hsettled
    rw [← hino] at htakes
    exact (settled_update_iff hdoc htakes).mp hsettled hxdir hne
  · intro hopen _ x hx
    rw [hcache]
    by_cases hdir : is_target_dir r s.fs.entries[d].dir
    · rw [if_pos hdir]
      rcases (hopened x).mp hx with hx | rfl
      · exact settled_after_open hdoc rfl hdir (hopen _ hentry) hx (hfresh hdata x hx)
      · by_cases htakes : bh.Takes s.fs.entries[d].inode.i_ino s.bpf.inode_cache
        · exact (settled_update_iff hdoc htakes).mpr fun _ _ => rfl
        · exact Settled.of_refused hdoc htakes
    · rw [if_neg hdir]
      rcases (hopened x).mp hx with hx | rfl
      · exact hfresh hdata x hx
      · exact fun h => absurd h hdir

theorem step_fresh (hdoc : bh.Documented) {op : Task × FsOp} {s s' : Kernel M}
    (hfresh : Fresh bh d_path r s) (h : s.step bh d_path r op = some s') :
    Fresh bh d_path r s' ↔ Keeps bh d_path r op s := by
  by_cases hdata : s.bpf.data_array.isSome
  · have hmoves := fun hop => step_fresh_of_moves hop hdata hfresh h
    obtain ⟨task, op⟩ := op
    rw [Keeps, imp_iff_right hdata]
    cases op with
    | «open» d => exact step_fresh_of_open hdoc hdata hfresh h
    | _ => exact hmoves nofun
  · constructor
    · exact fun _ hsome => absurd hsome hdata
    · exact fun _ hsome => absurd ((step_data_array h).symm.trans hsome) hdata

theorem step_access {task : Task} {f : Nat} {mask : UInt32} {s : Kernel M} {e : DirEntry}
    (he : s.fs.file f = some e) : s.step bh d_path r (task, .access f mask) =
      some ⟨s.fs, file_permission bh r task (e.file d_path) mask s.bpf⟩ := by
  rw [Kernel.step, FsOp.apply, FsOp.hook, he]
  rfl

theorem namesFresh_iff {s : Kernel M} : NamesFresh bh d_path r s ↔ Fresh bh d_path r s := by
  constructor
  · intro hnames hdata x hx hdir hne
    obtain ⟨f, hf⟩ := Fs.exists_file hx
    obtain ⟨es, hes, _⟩ := file_permission_filename r sampleTask (x.2.file d_path) MAY_READ s.bpf
    obtain ⟨hfilename, hreported⟩ := file_permission_reports hes
    -- a read submits one event at least
    have hsome : es ≠ [] := hreported.mpr ⟨⟨hdir, hdata⟩, submits_access (Or.inl (by decide))⟩
    obtain ⟨ev, hev⟩ := List.exists_mem_of_ne_nil es hsome
    have hname := hnames sampleTask f MAY_READ _ x.2 _ (step_access hf) hf hes ev hev
    rw [hfilename ev hev] at hname
    exact hname hne
  · intro hfresh task f mask s' e es hstep he hes ev hev hne
    rw [step_access he] at hstep
    cases hstep
    obtain ⟨hfilename, hreported⟩ := file_permission_reports hes
    obtain ⟨⟨hdir, hdata⟩, _⟩ := hreported.mp (List.ne_nil_of_mem hev)
    obtain ⟨d, hd⟩ := Fs.file_mem_opened he
    rw [hfilename ev hev] at hne ⊢
    exact hfresh hdata (d, e) hd hdir hne

/-- From an empty cache, in every state of a run each access that submits a non-empty name submits
the path of the accessed file, exactly when every operation of the run keeps the cached names. -/
theorem cached_names_fresh (hdoc : bh.Documented) {ops : List (Task × FsOp)} {s₀ s : Kernel M}
    (hcache : ∀ ino, bh.bpf_map_lookup_elem s₀.bpf.inode_cache ino = none)
    (hrun : exec (Kernel.step bh d_path r) ops s₀ = some s) :
    (∀ pre post t, ops = pre ++ post → exec (Kernel.step bh d_path r) pre s₀ = some t →
      NamesFresh bh d_path r t) ↔ Along (Kernel.step bh d_path r) (Keeps bh d_path r) ops s₀ := by
  have hfresh : Fresh bh d_path r s₀ := by
    intro _ x _ _ hne
    rw [cachedName, hcache] at hne
    exact absurd str_zero_filename hne
  simp only [namesFresh_iff]
  exact (along_iff_reached (fun op s s' hs h => step_fresh hdoc hs h) hfresh hrun).symm

def samplePath : PathOf := fun dir name linked =>
  (if dir = sampleTarget then ascii "/t/" else ascii "/") ++ name ++
    if linked then [] else ascii " (deleted)"

/-- A file `a` in the target directory, not open, under inode number 8. -/
def sampleKernel : Kernel (List (UInt64 × data_t)) where
  fs := ⟨[⟨sampleTarget, ascii "a", ⟨1, 8⟩, true⟩], [], by simp⟩
  bpf := sampleBpf

/-- The file is closed and unlinked, and its number is reused by a file of another name. -/
def sampleReuse : List (Task × FsOp) :=
  [.open 0, .access 0 MAY_READ, .close 0, .unlink 0, .create sampleTarget (ascii "b") 8, .open 1,
    .access 1 MAY_WRITE].map (sampleTask, ·)

theorem cached_names_fresh_sample :
    ∃ s, exec (Kernel.step .reference samplePath sampleRodata) sampleReuse sampleKernel = some s ∧
      ∀ pre post t, sampleReuse = pre ++ post →
        exec (Kernel.step .reference samplePath sampleRodata) pre sampleKernel = some t →
        NamesFresh .reference samplePath sampleRodata t := by
  have hruns : (exec (Kernel.step .reference samplePath sampleRodata) sampleReuse
      sampleKernel).isSome := by
    decide +kernel
  obtain ⟨s, hrun⟩ := Option.isSome_iff_exists.mp hruns
  have hfresh := cached_names_fresh BpfHelpers.reference_documented (fun _ => rfl) hrun
  exact ⟨s, hrun, hfresh.mpr (by decide +kernel)⟩

/-- The file is renamed to `b` while it is open, and then read: the event has the name `/t/a`. -/
theorem stale_name : ∃ s s' e ev, sampleKernel.bpf.inode_cache = [] ∧
    exec (Kernel.step .reference samplePath sampleRodata)
      [(sampleTask, .open 0), (sampleTask, .rename 0 sampleTarget (ascii "b"))] sampleKernel =
        some s ∧
    s.step .reference samplePath sampleRodata (sampleTask, .access 0 MAY_READ) = some s' ∧
    s.fs.file 0 = some e ∧ (e.filename .reference samplePath).str = ascii "/t/b" ∧
    s'.bpf.events = s.bpf.events ++ [ev] ∧ ev.filename.str = ascii "/t/a" ∧
    ¬ NamesFresh .reference samplePath sampleRodata s := by
  refine ⟨_, _, _, _, rfl, rfl, rfl, rfl, ?_, rfl, ?_, ?_⟩
  · decide +kernel
  · decide +kernel
  · intro h
    have hname := h sampleTask 0 MAY_READ _ _ [_] rfl rfl rfl _ List.mem_cons_self
    revert hname
    decide +kernel

end Naarad.Hooks
