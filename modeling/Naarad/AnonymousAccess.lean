import Naarad.CachedNames

/-!
# Accesses without a name

A file opened in the target directory is reported under a name for as long as its inode number has a
non-empty path in the cache and its entry stays in that directory. The cache takes a number that
it does not hold only while it has room, and is never pruned.
-/

set_option autoImplicit false

namespace Naarad.Hooks

open CharArray LabelledRun

/-- The kernel, and the descriptors of the files that were opened in the target directory during
the run. -/
structure Watch (M : Type) where
  kernel : Kernel M
  watched : List Nat

variable {M : Type} {bh : BpfHelpers M} {d_path : PathOf} {r : Rodata}

def FsOp.watches (r : Rodata) (fs : Fs) : FsOp → List Nat
  | .open d =>
    if (fs.linkedEntry d).any fun e => is_target_dir r e.dir then [fs.files.length] else []
  | _ => []

def Watch.step (bh : BpfHelpers M) (d_path : PathOf) (r : Rodata) (op : Task × FsOp)
    (w : Watch M) : Option (Watch M) :=
  (w.kernel.step bh d_path r op).map fun k => ⟨k, w.watched ++ op.2.watches r w.kernel.fs⟩

/-- A read or a write of a watched file that is still open submits events, all with a name. -/
def NoAnonymous (bh : BpfHelpers M) (d_path : PathOf) (r : Rodata) (w : Watch M) : Prop :=
  ∀ task f mask s', f ∈ w.watched → mask &&& MAY_READ ≠ 0 ∨ mask &&& MAY_WRITE ≠ 0 →
    w.kernel.step bh d_path r (task, .access f mask) = some s' →
    ∃ es, s'.bpf.events = w.kernel.bpf.events ++ es ∧ es ≠ [] ∧ ∀ ev ∈ es, ev.filename.str ≠ []

structure Named (bh : BpfHelpers M) (r : Rodata) (b : Bpf M) (e : DirEntry) : Prop where
  data_array : b.data_array.isSome
  dir : is_target_dir r e.dir
  cached : (cachedName bh b.inode_cache e.inode.i_ino).str ≠ []

def AllNamed (bh : BpfHelpers M) (r : Rodata) (w : Watch M) : Prop :=
  ∀ f ∈ w.watched, ∀ d e, w.kernel.fs.openAt f d e → Named bh r w.kernel.bpf e

/-- An open in the target directory finds the scratch record, a cache that takes the inode number
and a path that `bpf_d_path` writes something for. -/
structure Recorded (bh : BpfHelpers M) (d_path : PathOf) (r : Rodata) (b : Bpf M) (e : DirEntry) :
    Prop where
  data_array : b.data_array.isSome
  takes : bh.Takes e.inode.i_ino b.inode_cache
  path : (e.filename bh d_path).str ≠ []

/-- What every operation of a run has to respect for the watched files to keep their names. -/
def Remembers (bh : BpfHelpers M) (d_path : PathOf) (r : Rodata) (op : Task × FsOp) (w : Watch M) :
    Prop :=
  match op.2 with
  | .open d => ∀ e ∈ w.kernel.fs.linkedEntry d, is_target_dir r e.dir →
      Recorded bh d_path r w.kernel.bpf e
  | op => ∀ f ∈ w.watched, ∀ d e, w.kernel.fs.openAt f d e →
      is_target_dir r (op.change w.kernel.fs d e).dir

instance (b : Bpf M) (e : DirEntry) : Decidable (Recorded bh d_path r b e) :=
  decidable_of_iff (b.data_array.isSome ∧ bh.Takes e.inode.i_ino b.inode_cache ∧
    (e.filename bh d_path).str ≠ []) ⟨fun h => ⟨h.1, h.2.1, h.2.2⟩, fun h => ⟨h.1, h.2, h.3⟩⟩

instance (fs : Fs) (watched : List Nat) (op : FsOp) : Decidable (∀ f ∈ watched, ∀ d e,
    fs.openAt f d e → is_target_dir r (op.change fs d e).dir) :=
  decidable_of_iff (∀ f ∈ watched, ∀ d ∈ (fs.files[f]?).join, ∀ e ∈ fs.entries[d]?,
    is_target_dir r (op.change fs d e).dir)
    ⟨fun h f hf d e he => h f hf d (Option.join_eq_some_iff.mpr he.1) e he.2,
      fun h f hf d hd e he => h f hf d e ⟨Option.join_eq_some_iff.mp hd, he⟩⟩

instance : ∀ (op : Task × FsOp) (w : Watch M), Decidable (Remembers bh d_path r op w)
  | (_, .open _), _ => inferInstanceAs (Decidable (∀ _ ∈ _, _ → Recorded ..))
  | (_, .create ..), w => inferInstanceAs (Decidable (∀ _ ∈ w.watched, _))
  | (_, .link ..), w => inferInstanceAs (Decidable (∀ _ ∈ w.watched, _))
  | (_, .unlink ..), w => inferInstanceAs (Decidable (∀ _ ∈ w.watched, _))
  | (_, .rename ..), w => inferInstanceAs (Decidable (∀ _ ∈ w.watched, _))
  | (_, .access ..), w => inferInstanceAs (Decidable (∀ _ ∈ w.watched, _))
  | (_, .close ..), w => inferInstanceAs (Decidable (∀ _ ∈ w.watched, _))

theorem noAnonymous_iff {w : Watch M} : NoAnonymous bh d_path r w ↔ AllNamed bh r w := by
  constructor
  · intro hall f hf d e he
    have hfile := Fs.file_eq_some.mpr ⟨d, he⟩
    obtain ⟨es, hes, hne, hnames⟩ := hall sampleTask f MAY_READ _ hf (Or.inl (by decide))
      (step_access hfile)
    obtain ⟨hfilename, hreported⟩ := file_permission_reports hes
    obtain ⟨⟨hdir, hdata⟩, _⟩ := hreported.mp hne
    refine ⟨hdata, hdir, ?_⟩
    obtain ⟨ev, hev⟩ := List.exists_mem_of_ne_nil es hne
    have hname := hnames ev hev
    rwa [hfilename ev hev] at hname
  · intro hall task f mask s' hf hmask hstep
    obtain ⟨e, hfile⟩ : ∃ e, w.kernel.fs.file f = some e := by
      obtain ⟨fs, hfs, _⟩ := Option.map_eq_some_iff.mp hstep
      cases FsOp.applies_of_apply hfs with
      | access hfile => exact ⟨_, hfile⟩
    obtain ⟨d, he⟩ := Fs.file_eq_some.mp hfile
    obtain ⟨hdata, hdir, hcached⟩ := hall f hf d e he
    rw [step_access hfile] at hstep
    cases hstep
    obtain ⟨es, hes, _⟩ := file_permission_filename r task (e.file d_path) mask w.kernel.bpf
    obtain ⟨hfilename, hreported⟩ := file_permission_reports hes
    refine ⟨es, hes, hreported.mpr ⟨⟨hdir, hdata⟩, submits_access hmask⟩, ?_⟩
    intro ev hev
    rw [hfilename ev hev]
    exact hcached

theorem step_allNamed_of_other {op : Task × FsOp} {s s' : Kernel M} {watched : List Nat}
    (hop : ∀ d, op.2 ≠ .open d) (hall : AllNamed bh r ⟨s, watched⟩)
    (h : s.step bh d_path r op = some s') :
    AllNamed bh r ⟨s', watched⟩ ↔ ∀ f ∈ watched, ∀ d e, s.fs.openAt f d e →
      is_target_dir r (op.2.change s.fs d e).dir := by
  constructor
  · intro hall' f hf d e he
    by_cases hsame : op.2.change s.fs d e = e
    · rw [hsame]
      exact (hall f hf d e he).dir
    · exact (hall' f hf d _ ((step_fs h).change_openAt he hsame)).dir
  · intro hdirs f hf d e' he'
    obtain ⟨e, he, rfl⟩ := (step_fs h).openAt hop he'
    have hnamed := hall f hf d e he
    refine ⟨(step_data_array h).trans hnamed.data_array, hdirs f hf d e he, ?_⟩
    rw [step_inode_cache hop h, FsOp.change_inode]
    exact hnamed.cached

theorem file_open_other {task : Task} {e : DirEntry} {b : Bpf M} (hdir : ¬ is_target_dir r e.dir) :
    file_open bh r task (e.file d_path) b = b := by
  unfold file_open
  exact if_neg hdir

theorem Named.after_open (hdoc : bh.Documented) {task : Task} {e e' : DirEntry} {b : Bpf M}
    (h : Named bh r b e) (hopen : is_target_dir r e'.dir → Recorded bh d_path r b e') :
    Named bh r (file_open bh r task (e'.file d_path) b) e := by
  by_cases hdir : is_target_dir r e'.dir
  · obtain ⟨hdata, htakes, hpath⟩ := hopen hdir
    refine ⟨(file_open_invoked r task _ b).data_array.trans hdata, h.dir, ?_⟩
    rw [file_open_inode_cache hdata, if_pos hdir]
    by_cases hino : e.inode.i_ino = e'.inode.i_ino
    · rw [hino, cachedName_update_self hdoc htakes]
      exact hpath
    · rw [cachedName_update_of_ne hdoc hino]
      exact h.cached
  · rw [file_open_other hdir]
    exact h

theorem named_opened_iff (hdoc : bh.Documented) (task : Task) {e : DirEntry} {b : Bpf M}
    (hdir : is_target_dir r e.dir) :
    Named bh r (file_open bh r task (e.file d_path) b) e ↔ Recorded bh d_path r b e := by
  have hsome : (file_open bh r task (e.file d_path) b).data_array.isSome = b.data_array.isSome :=
    (file_open_invoked r task _ b).data_array
  constructor
  · rintro ⟨hdata, _, hcached⟩
    have hdata : b.data_array.isSome := hsome.symm.trans hdata
    rw [file_open_inode_cache hdata, if_pos hdir] at hcached
    by_cases htakes : bh.Takes e.inode.i_ino b.inode_cache
    · rw [cachedName_update_self hdoc htakes] at hcached
      exact ⟨hdata, htakes, hcached⟩
    · rw [cachedName_update_refused hdoc htakes] at hcached
      exact absurd str_zero_filename hcached
  · rintro ⟨hdata, htakes, hpath⟩
    refine ⟨hsome.trans hdata, hdir, ?_⟩
    rw [file_open_inode_cache hdata, if_pos hdir, cachedName_update_self hdoc htakes]
    exact hpath

/-- The descriptors are those of files that the file system has given out. -/
def Watch.Valid (w : Watch M) : Prop := ∀ f ∈ w.watched, f < w.kernel.fs.files.length

theorem step_allNamed_of_open (hdoc : bh.Documented) {task : Task} {d : Nat} {s s' : Kernel M}
    {watched : List Nat} (hvalid : Watch.Valid ⟨s, watched⟩) (hall : AllNamed bh r ⟨s, watched⟩)
    (h : s.step bh d_path r (task, .open d) = some s') :
    AllNamed bh r ⟨s', watched ++ (FsOp.open d).watches r s.fs⟩ ↔
      ∀ e ∈ s.fs.linkedEntry d, is_target_dir r e.dir → Recorded bh d_path r s.bpf e := by
  obtain ⟨hd, hentry, rfl⟩ := step_open h
  have hwatches : (FsOp.open d).watches r s.fs =
      if is_target_dir r s.fs.entries[d].dir then [s.fs.files.length] else [] := by
    rw [FsOp.watches, hentry, Option.any_some]
  rw [hwatches]
  constructor
  · intro hall' e he hdir
    obtain rfl := Option.some.inj (hentry.symm.trans he)
    apply (named_opened_iff hdoc task hdir).mp
    apply hall' s.fs.files.length _ d
    · exact (Fs.openAt_addFile hd).mpr (Or.inr ⟨rfl, rfl, rfl⟩)
    · rw [if_pos hdir]
      exact List.mem_append_right _ List.mem_cons_self
  · intro hopen f hf d' e he
    have hopen := hopen _ hentry
    have hopened := (Fs.openAt_addFile hd).mp he
    rcases List.mem_append.mp hf with hf | hf
    · rcases hopened with he | ⟨rfl, _⟩
      · exact (hall f hf d' e he).after_open hdoc hopen
      · exact absurd (hvalid _ hf) (Nat.lt_irrefl _)
    · split at hf
      · rename_i hdir
        obtain rfl := List.mem_singleton.mp hf
        rcases hopened with he | ⟨_, _, heq⟩
        · exact absurd (Fs.lt_of_openAt he) (Nat.lt_irrefl _)
        · rw [heq]
          exact (named_opened_iff hdoc task hdir).mpr (hopen hdir)
      · cases hf

theorem Watch.Valid.step {op : Task × FsOp} {w w' : Watch M} (hvalid : w.Valid)
    (h : w.step bh d_path r op = some w') : w'.Valid := by
  obtain ⟨s', hs', rfl⟩ := Option.map_eq_some_iff.mp h
  obtain ⟨task, op⟩ := op
  have hlength := (step_fs hs').files_length
  intro f hf
  rcases List.mem_append.mp hf with hold | hnew
  · exact Nat.lt_of_lt_of_le (hvalid f hold) hlength
  · cases op with
    | «open» d =>
      obtain ⟨hd, _, rfl⟩ := step_open hs'
      simp only [FsOp.watches] at hnew
      split at hnew
      · obtain rfl := List.mem_singleton.mp hnew
        simp only [Fs.addFile, List.length_append, List.length_singleton]
        omega
      · cases hnew
    | _ => cases hnew

theorem step_allNamed (hdoc : bh.Documented) {op : Task × FsOp} {w w' : Watch M}
    (hvalid : w.Valid) (hall : AllNamed bh r w) (h : w.step bh d_path r op = some w') :
    AllNamed bh r w' ↔ Remembers bh d_path r op w := by
  obtain ⟨s', hs', rfl⟩ := Option.map_eq_some_iff.mp h
  have hother := fun hop => step_allNamed_of_other hop hall hs'
  obtain ⟨task, op⟩ := op
  unfold Remembers
  cases op with
  | «open» d => exact step_allNamed_of_open hdoc hvalid hall hs'
  | _ =>
    simp only [FsOp.watches, List.append_nil]
    exact hother nofun

/-- Files that were opened in the target directory, one after the other, from an empty cache. -/
structure OpenedAll (bh : BpfHelpers M) (es : List DirEntry) (k : Nat) (w : Watch M) : Prop where
  entries : w.kernel.fs.entries = es
  files : w.kernel.fs.files = (List.range k).map some
  data_array : w.kernel.bpf.data_array.isSome
  size : bh.entries w.kernel.bpf.inode_cache = min k INODE_CACHE_ENTRIES
  others : ∀ (i : Nat) (hi : i < es.length), min k INODE_CACHE_ENTRIES ≤ i →
    bh.bpf_map_lookup_elem w.kernel.bpf.inode_cache es[i].inode.i_ino = none
  watched : w.watched = List.range k

def Fs.unopened (es : List DirEntry) : Fs := ⟨es, [], by simp⟩

theorem openedAll_start (es : List DirEntry) (b : Bpf M) (hdata : b.data_array.isSome)
    (hsize : bh.entries b.inode_cache = 0)
    (hcache : ∀ ino, bh.bpf_map_lookup_elem b.inode_cache ino = none) :
    OpenedAll bh es 0 ⟨⟨.unopened es, b⟩, []⟩ where
  entries := rfl
  files := rfl
  data_array := hdata
  size := hsize.trans (Nat.zero_min _).symm
  others _ _ _ := hcache _
  watched := rfl

/-- The cache takes the next file as long as there is room. -/
theorem update_opened (hdoc : bh.Documented) {es : List DirEntry} {k : Nat} {cache : M} {v : data_t}
    (hnodup : (es.map fun e => e.inode.i_ino).Nodup) (hk : k < es.length)
    (hsize : bh.entries cache = min k INODE_CACHE_ENTRIES)
    (hothers : ∀ (i : Nat) (hi : i < es.length), min k INODE_CACHE_ENTRIES ≤ i →
      bh.bpf_map_lookup_elem cache es[i].inode.i_ino = none) :
    bh.entries (bh.bpf_map_update_elem cache es[k].inode.i_ino v) =
      min (k + 1) INODE_CACHE_ENTRIES ∧
    ∀ (i : Nat) (hi : i < es.length), min (k + 1) INODE_CACHE_ENTRIES ≤ i →
      bh.bpf_map_lookup_elem (bh.bpf_map_update_elem cache es[k].inode.i_ino v)
        es[i].inode.i_ino = none := by
  have hnew := hothers k hk (Nat.min_le_left ..)
  have hgrown : bh.entries (bh.bpf_map_update_elem cache es[k].inode.i_ino v) =
      if bh.entries cache < INODE_CACHE_ENTRIES then bh.entries cache + 1 else bh.entries cache :=
    hdoc.inode_cache.size_new hnew
  have htakes : bh.Takes es[k].inode.i_ino cache ↔ bh.entries cache < INODE_CACHE_ENTRIES :=
    BoundedMap.Ops.takes_of_lookup_eq_none hnew
  constructor
  · rw [hgrown, hsize]
    split <;> omega
  · intro i hi hle
    by_cases hik : i = k
    · subst hik
      have hfull : ¬ bh.Takes es[i].inode.i_ino cache := by
        rw [htakes, hsize]
        omega
      exact hdoc.inode_cache.lookup_refused hfull
    · have hne : es[i].inode.i_ino ≠ es[k].inode.i_ino := by
        intro heq
        have hsame : es[i] = es[k] :=
          List.inj_on_of_nodup_map hnodup (List.getElem_mem _) (List.getElem_mem _) heq
        exact hik ((List.Nodup.of_map _ hnodup).getElem_inj_iff.mp hsame)
      have hother : bh.bpf_map_lookup_elem (bh.bpf_map_update_elem cache es[k].inode.i_ino v)
          es[i].inode.i_ino = bh.bpf_map_lookup_elem cache es[i].inode.i_ino :=
        hdoc.inode_cache.lookup_other hne
      rw [hother]
      exact hothers i hi (by omega)

theorem OpenedAll.step (hdoc : bh.Documented) {es : List DirEntry} {k : Nat} {w : Watch M}
    (h : OpenedAll bh es k w)
    (hes : ∀ e ∈ es, e.linked ∧ is_target_dir r e.dir)
    (hnodup : (es.map fun e => e.inode.i_ino).Nodup) (hk : k < es.length) (task : Task) :
    ∃ w', w.step bh d_path r (task, .open k) = some w' ∧ OpenedAll bh es (k + 1) w' := by
  obtain ⟨⟨fs, bpf⟩, watched⟩ := w
  obtain ⟨entries, files, files_lt⟩ := fs
  obtain ⟨rfl, rfl, hdata, hsize, hothers, rfl⟩ := h
  obtain ⟨hlinked, hdir⟩ := hes _ (List.getElem_mem hk)
  have hentry : Fs.linkedEntry ⟨entries, (List.range k).map some, files_lt⟩ k =
      some entries[k] := by
    rw [Fs.linkedEntry, List.getElem?_eq_getElem hk, Option.filter_some, if_pos hlinked]
  have hstep : ∃ s', Kernel.step bh d_path r (task, .open k)
      ⟨⟨entries, (List.range k).map some, files_lt⟩, bpf⟩ = some s' := by
    rw [Kernel.step, FsOp.apply, dif_pos (by rw [hentry]; rfl)]
    exact ⟨_, rfl⟩
  obtain ⟨s', hs'⟩ := hstep
  have hdata' := step_data_array hs'
  obtain ⟨hd, _, rfl⟩ := step_open hs'
  have hcache : (file_open bh r task (entries[k].file d_path) bpf).inode_cache =
      bh.bpf_map_update_elem bpf.inode_cache entries[k].inode.i_ino
        { data_t.zero with filename := entries[k].filename bh d_path } := by
    rw [file_open_inode_cache hdata, if_pos hdir]
  have hupdated := update_opened hdoc hnodup hk hsize hothers
    (v := { data_t.zero with filename := entries[k].filename bh d_path })
  rw [← hcache] at hupdated
  refine ⟨_, Option.map_eq_some_iff.mpr ⟨_, hs', rfl⟩, rfl, ?_, hdata'.trans hdata, hupdated.1,
    hupdated.2, ?_⟩
  · rw [List.range_succ, List.map_append]
    rfl
  · have hwatches : (FsOp.open k).watches r ⟨entries, (List.range k).map some, files_lt⟩ = [k] := by
      rw [FsOp.watches, hentry, Option.any_some, if_pos hdir, List.length_map, List.length_range]
    rw [List.range_succ, ← hwatches]

theorem exec_openedAll (hdoc : bh.Documented) {es : List DirEntry} {w₀ : Watch M}
    (h : OpenedAll bh es 0 w₀)
    (hes : ∀ e ∈ es, e.linked ∧ is_target_dir r e.dir)
    (hnodup : (es.map fun e => e.inode.i_ino).Nodup) (task : Task) {k : Nat} (hk : k ≤ es.length) :
    ∃ w, exec (Watch.step bh d_path r) ((List.range k).map fun d => (task, .open d)) w₀ = some w ∧
      OpenedAll bh es k w := by
  induction k with
  | zero => exact ⟨w₀, rfl, h⟩
  | succ k ih =>
    obtain ⟨w, hrun, hw⟩ := ih (Nat.le_of_succ_le hk)
    obtain ⟨w', hstep, hw'⟩ := hw.step hdoc hes hnodup hk task
    refine ⟨w', ?_, hw'⟩
    rw [List.range_succ, List.map_append, exec_append, hrun, Option.bind_some]
    exact exec_cons.mpr ⟨w', hstep, rfl⟩

/-- However many distinct files are opened in the target directory, those behind the first 1024 are
accessed without a name. -/
theorem OpenedAll.anonymous {es : List DirEntry} {k : Nat} {w : Watch M} (h : OpenedAll bh es k w)
    (hk : INODE_CACHE_ENTRIES < k) (hle : k ≤ es.length) : ¬ NoAnonymous bh d_path r w := by
  obtain ⟨n, hn⟩ : ∃ n, n = INODE_CACHE_ENTRIES := ⟨_, rfl⟩
  rw [noAnonymous_iff]
  intro hall
  have hlt : n < es.length := by omega
  have hopen : w.kernel.fs.openAt n n es[n] := by
    unfold Fs.openAt
    rw [h.files, h.entries, List.getElem?_map, List.getElem?_range (by omega)]
    exact ⟨rfl, List.getElem?_eq_getElem hlt⟩
  have hwatched : n ∈ w.watched := by
    rw [h.watched, List.mem_range]
    omega
  apply (hall n hwatched n es[n] hopen).cached
  rw [cachedName, h.others n hlt (by omega)]
  exact str_zero_filename

/-- In every state of a run, accesses through the files opened in the target directory are reported
with a name, exactly when every operation of the run remembers the names. -/
theorem no_anonymous_access (hdoc : bh.Documented) {ops : List (Task × FsOp)} {s₀ : Kernel M}
    {w : Watch M}
    (hrun : exec (Watch.step bh d_path r) ops ⟨s₀, []⟩ = some w) :
    (∀ pre post t, ops = pre ++ post → exec (Watch.step bh d_path r) pre ⟨s₀, []⟩ = some t →
      NoAnonymous bh d_path r t) ↔
        Along (Watch.step bh d_path r) (Remembers bh d_path r) ops ⟨s₀, []⟩ := by
  have hvalid : Watch.Valid ⟨s₀, []⟩ := by
    intro f hf
    cases hf
  have hall : AllNamed bh r ⟨s₀, []⟩ := by
    intro f hf
    cases hf
  have hstep : ∀ op w w', w.Valid ∧ AllNamed bh r w → w.step bh d_path r op = some w' →
      (w'.Valid ∧ AllNamed bh r w' ↔ Remembers bh d_path r op w) := by
    rintro op w w' ⟨hvalid, hall⟩ h
    rw [← step_allNamed hdoc hvalid hall h]
    exact and_iff_right (hvalid.step h)
  rw [along_iff_reached hstep ⟨hvalid, hall⟩ hrun]
  simp only [noAnonymous_iff]
  constructor
  · intro hall pre post t hsplit hpre
    exact ⟨exec_invariant (fun _ _ _ hw h => hw.step h) hvalid hpre, hall pre post t hsplit hpre⟩
  · intro hall pre post t hsplit hpre
    exact (hall pre post t hsplit hpre).2

theorem no_anonymous_access_sample :
    ∃ w, exec (Watch.step .reference samplePath sampleRodata) sampleReuse ⟨sampleKernel, []⟩ =
        some w ∧
      ∀ pre post t, sampleReuse = pre ++ post →
        exec (Watch.step .reference samplePath sampleRodata) pre ⟨sampleKernel, []⟩ = some t →
        NoAnonymous .reference samplePath sampleRodata t := by
  have hruns : (exec (Watch.step .reference samplePath sampleRodata) sampleReuse
      ⟨sampleKernel, []⟩).isSome := by
    decide +kernel
  obtain ⟨w, hrun⟩ := Option.isSome_iff_exists.mp hruns
  have hnamed := no_anonymous_access BpfHelpers.reference_documented hrun
  exact ⟨w, hrun, hnamed.mpr (by decide +kernel)⟩

/-- 1025 files of the target directory, with names of two letters and distinct inode numbers. -/
def crowd : List DirEntry :=
  (List.range (INODE_CACHE_ENTRIES + 1)).map fun i =>
    ⟨sampleTarget, [UInt8.ofNat (i / 64 + 1), UInt8.ofNat (i % 64 + 1)],
      ⟨1, UInt64.ofNat (100 + i)⟩, true⟩

theorem nodup_crowd : (crowd.map fun e => e.inode.i_ino).Nodup := by
  rw [crowd, List.map_map]
  apply List.Nodup.map_on _ List.nodup_range
  intro i hi j hj heq
  rw [List.mem_range] at hi hj
  have hmod : (100 + i) % 2 ^ 64 = (100 + j) % 2 ^ 64 := by
    simpa using congrArg UInt64.toNat heq
  have hcap : INODE_CACHE_ENTRIES = 1024 := rfl
  omega

/-- With all of them open, a read of the last one is reported without a name. -/
theorem no_anonymous_access_fails : ∃ w,
    exec (Watch.step .reference samplePath sampleRodata)
      ((List.range (INODE_CACHE_ENTRIES + 1)).map fun d => (sampleTask, .open d))
      ⟨⟨.unopened crowd, sampleBpf⟩, []⟩ = some w ∧
    ¬ NoAnonymous .reference samplePath sampleRodata w := by
  have hlength : crowd.length = INODE_CACHE_ENTRIES + 1 := by
    rw [crowd, List.length_map, List.length_range]
  have hes : ∀ e ∈ crowd, e.linked ∧ is_target_dir sampleRodata e.dir := by
    intro e he
    obtain ⟨i, _, rfl⟩ := List.mem_map.mp he
    exact ⟨rfl, rfl⟩
  obtain ⟨w, hrun, hw⟩ := exec_openedAll BpfHelpers.reference_documented
    (openedAll_start crowd sampleBpf rfl rfl fun _ => rfl) hes nodup_crowd sampleTask
    (Nat.le_of_eq hlength.symm)
  exact ⟨w, hrun, hw.anonymous (Nat.lt_succ_self _) (Nat.le_of_eq hlength.symm)⟩

end Naarad.Hooks
