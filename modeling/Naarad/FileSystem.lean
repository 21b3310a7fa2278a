import Naarad.Hooks
import Naarad.Lib.LabelledRun

/-!
# File operations under the hooks

Directory entries, open files and the operations on them, each of which calls its hook before it
takes effect. An open file keeps the entry that it was opened through, also when that is renamed or
its name is removed; the path of an entry is given by a function of the entry.
-/

set_option autoImplicit false

namespace Naarad.Hooks

/-- `linked` is false once the name has been removed from the directory. -/
structure DirEntry where
  dir : Inode
  name : List UInt8
  inode : Inode
  linked : Bool
  deriving DecidableEq

/-- `files` has the open files by descriptor, each as the number of its entry. -/
structure Fs where
  entries : List DirEntry
  files : List (Option Nat)
  files_lt : ∀ d, some d ∈ files → d < entries.length

/-- The path of a directory's entry of some name, and whether it is still linked. -/
abbrev PathOf : Type := Inode → List UInt8 → Bool → List UInt8

def DirEntry.file (d_path : PathOf) (e : DirEntry) : File where
  parent := e.dir
  inode := e.inode
  hasPath := true
  path := d_path e.dir e.name e.linked

def DirEntry.isAt (e : DirEntry) (dir : Inode) (name : List UInt8) : Bool :=
  e.linked && e.dir = dir && e.name = name

namespace Fs

def linkedEntry (fs : Fs) (d : Nat) : Option DirEntry := (fs.entries[d]?).filter (·.linked)

def file (fs : Fs) (f : Nat) : Option DirEntry :=
  (fs.files[f]?).join.bind fun d => fs.entries[d]?

def opened (fs : Fs) : List (Nat × DirEntry) :=
  fs.files.filterMap fun o => o.bind fun d => (fs.entries[d]?).map (d, ·)

def nameFree (fs : Fs) (dir : Inode) (name : List UInt8) : Bool :=
  !fs.entries.any (·.isAt dir name)

/-- An inode is live, and its number taken, while it has a name or is open. -/
def live (fs : Fs) (i : Inode) : Bool :=
  fs.entries.any (fun e => e.linked && e.inode = i) || fs.opened.any fun x => x.2.inode = i

/-- The name already names the inode of entry `d`. -/
def sameFile (fs : Fs) (d : Nat) (dir : Inode) (name : List UInt8) : Bool :=
  fs.entries.any fun e => e.isAt dir name && (fs.entries[d]?).any (·.inode = e.inode)

def addEntry (fs : Fs) (e : DirEntry) : Fs where
  entries := fs.entries ++ [e]
  files := fs.files
  files_lt := by
    intro d hd
    have := fs.files_lt d hd
    rw [List.length_append]
    omega

def mapEntries (fs : Fs) (change : Nat → DirEntry → DirEntry) : Fs where
  entries := fs.entries.mapIdx change
  files := fs.files
  files_lt := by
    rw [List.length_mapIdx]
    exact fs.files_lt

theorem lt_of_linkedEntry {fs : Fs} {d : Nat} (h : (fs.linkedEntry d).isSome) :
    d < fs.entries.length := by
  by_contra hge
  rw [linkedEntry, List.getElem?_eq_none (Nat.le_of_not_lt hge)] at h
  cases h

def addFile (fs : Fs) (d : Nat) (hd : d < fs.entries.length) : Fs where
  entries := fs.entries
  files := fs.files ++ [some d]
  files_lt := by
    intro d' hd'
    rcases List.mem_append.mp hd' with hd' | hd'
    · exact fs.files_lt d' hd'
    · cases List.mem_singleton.mp hd'
      exact hd

def closeFile (fs : Fs) (f : Nat) : Fs where
  entries := fs.entries
  files := fs.files.set f none
  files_lt := by
    intro d hd
    rcases List.mem_or_eq_of_mem_set hd with hd | hd
    · exact fs.files_lt d hd
    · cases hd

theorem mem_opened {fs : Fs} {x : Nat × DirEntry} :
    x ∈ fs.opened ↔ some x.1 ∈ fs.files ∧ fs.entries[x.1]? = some x.2 := by
  unfold opened
  rw [List.mem_filterMap]
  constructor
  · rintro ⟨o, ho, hx⟩
    obtain ⟨d, rfl, hd⟩ := Option.bind_eq_some_iff.mp hx
    obtain ⟨e, he, rfl⟩ := Option.map_eq_some_iff.mp hd
    exact ⟨ho, he⟩
  · rintro ⟨hfile, hentry⟩
    refine ⟨some x.1, hfile, ?_⟩
    rw [Option.bind_some, hentry]
    rfl

theorem file_mem_opened {fs : Fs} {f : Nat} {e : DirEntry} (h : fs.file f = some e) :
    ∃ d, (d, e) ∈ fs.opened := by
  obtain ⟨d, hd, he⟩ := Option.bind_eq_some_iff.mp h
  exact ⟨d, mem_opened.mpr ⟨List.mem_of_getElem? (Option.join_eq_some_iff.mp hd), he⟩⟩

theorem exists_file {fs : Fs} {x : Nat × DirEntry} (h : x ∈ fs.opened) :
    ∃ f, fs.file f = some x.2 := by
  obtain ⟨hfile, hentry⟩ := mem_opened.mp h
  obtain ⟨f, hf⟩ := List.mem_iff_getElem?.mp hfile
  refine ⟨f, ?_⟩
  rw [file, hf]
  exact hentry

theorem mem_opened_addEntry {fs : Fs} {e : DirEntry} {x : Nat × DirEntry} :
    x ∈ (fs.addEntry e).opened ↔ x ∈ fs.opened := by
  rw [mem_opened, mem_opened]
  apply and_congr_right
  intro hfile
  rw [addEntry, List.getElem?_append_left (fs.files_lt x.1 hfile)]

theorem mem_opened_mapEntries {fs : Fs} {change : Nat → DirEntry → DirEntry} {x' : Nat × DirEntry} :
    x' ∈ (fs.mapEntries change).opened ↔ ∃ x ∈ fs.opened, x' = (x.1, change x.1 x.2) := by
  rw [mem_opened, mapEntries, List.getElem?_mapIdx]
  constructor
  · rintro ⟨hfile, hentry⟩
    obtain ⟨e, he, hchange⟩ := Option.map_eq_some_iff.mp hentry
    exact ⟨(x'.1, e), mem_opened.mpr ⟨hfile, he⟩, Prod.ext rfl hchange.symm⟩
  · rintro ⟨x, hx, rfl⟩
    obtain ⟨hfile, hentry⟩ := mem_opened.mp hx
    refine ⟨hfile, ?_⟩
    rw [hentry]
    rfl

theorem mem_opened_addFile {fs : Fs} {d : Nat} {hd : d < fs.entries.length} {x : Nat × DirEntry} :
    x ∈ (fs.addFile d hd).opened ↔ x ∈ fs.opened ∨ x = (d, fs.entries[d]) := by
  rw [mem_opened, mem_opened, addFile, List.mem_append, List.mem_singleton, or_and_right]
  apply or_congr_right
  constructor
  · rintro ⟨heq, hentry⟩
    cases heq
    rw [List.getElem?_eq_getElem hd] at hentry
    exact Prod.ext rfl (Option.some.inj hentry).symm
  · rintro rfl
    exact ⟨rfl, List.getElem?_eq_getElem hd⟩

theorem mem_opened_of_closeFile {fs : Fs} {f : Nat} {x : Nat × DirEntry}
    (h : x ∈ (fs.closeFile f).opened) : x ∈ fs.opened := by
  obtain ⟨hfile, hentry⟩ := mem_opened.mp h
  rcases List.mem_or_eq_of_mem_set hfile with hfile | hfile
  · exact mem_opened.mpr ⟨hfile, hentry⟩
  · cases hfile

/-- Descriptor `f` is open through entry number `d`, which reads `e`. -/
def openAt (fs : Fs) (f d : Nat) (e : DirEntry) : Prop :=
  fs.files[f]? = some (some d) ∧ fs.entries[d]? = some e

theorem file_eq_some {fs : Fs} {f : Nat} {e : DirEntry} :
    fs.file f = some e ↔ ∃ d, fs.openAt f d e := by
  unfold file openAt
  rw [Option.bind_eq_some_iff]
  simp only [Option.join_eq_some_iff]

theorem openAt_addEntry {fs : Fs} {e e' : DirEntry} {f d : Nat} :
    (fs.addEntry e).openAt f d e' ↔ fs.openAt f d e' := by
  apply and_congr_right
  intro hfile
  rw [addEntry, List.getElem?_append_left (fs.files_lt d (List.mem_of_getElem? hfile))]

theorem openAt_mapEntries {fs : Fs} {change : Nat → DirEntry → DirEntry} {f d : Nat}
    {e' : DirEntry} :
    (fs.mapEntries change).openAt f d e' ↔ ∃ e, fs.openAt f d e ∧ change d e = e' := by
  unfold openAt mapEntries
  rw [List.getElem?_mapIdx, Option.map_eq_some_iff]
  constructor
  · rintro ⟨hfile, e, hentry, heq⟩
    exact ⟨e, ⟨hfile, hentry⟩, heq⟩
  · rintro ⟨e, ⟨hfile, hentry⟩, heq⟩
    exact ⟨hfile, e, hentry, heq⟩

theorem openAt_addFile {fs : Fs} {d d' f : Nat} {e : DirEntry} (hd : d < fs.entries.length) :
    (fs.addFile d hd).openAt f d' e ↔
      fs.openAt f d' e ∨ f = fs.files.length ∧ d' = d ∧ e = fs.entries[d] := by
  unfold openAt addFile
  constructor
  · rintro ⟨hfile, hentry⟩
    rcases Nat.lt_or_ge f fs.files.length with hf | hf
    · rw [List.getElem?_append_left hf] at hfile
      exact Or.inl ⟨hfile, hentry⟩
    · rw [List.getElem?_append_right hf, List.getElem?_singleton] at hfile
      obtain ⟨hzero, hsome⟩ := Option.ite_none_right_eq_some.mp hfile
      obtain rfl := Option.some.inj (Option.some.inj hsome)
      rw [List.getElem?_eq_getElem hd] at hentry
      exact Or.inr ⟨by omega, rfl, (Option.some.inj hentry).symm⟩
  · rintro (⟨hfile, hentry⟩ | ⟨rfl, rfl, rfl⟩)
    · obtain ⟨hf, _⟩ := List.getElem?_eq_some_iff.mp hfile
      exact ⟨by rw [List.getElem?_append_left hf, hfile], hentry⟩
    · exact ⟨List.getElem?_concat_length, List.getElem?_eq_getElem hd⟩

theorem openAt_of_closeFile {fs : Fs} {f f' d : Nat} {e : DirEntry}
    (h : (fs.closeFile f).openAt f' d e) : fs.openAt f' d e := by
  obtain ⟨hfile, hentry⟩ := h
  rw [closeFile, List.getElem?_set] at hfile
  split at hfile
  · split at hfile
    · cases hfile
    · cases hfile
  · exact ⟨hfile, hentry⟩

theorem lt_of_openAt {fs : Fs} {f d : Nat} {e : DirEntry} (h : fs.openAt f d e) :
    f < fs.files.length := (List.getElem?_eq_some_iff.mp h.1).1

end Fs

/-- The operations; entries are given by number, open files by descriptor. -/
inductive FsOp where
  | create (dir : Inode) (name : List UInt8) (ino : UInt64)
  | link (d : Nat) (dir : Inode) (name : List UInt8)
  | unlink (d : Nat)
  | rename (d : Nat) (dir : Inode) (name : List UInt8)
  | open (d : Nat)
  | access (f : Nat) (mask : UInt32)
  | close (f : Nat)
  deriving DecidableEq

namespace FsOp

def change (fs : Fs) : FsOp → Nat → DirEntry → DirEntry
  | .unlink d => fun i e => if i = d then { e with linked := false } else e
  | .rename d dir name => fun i e =>
    -- nothing when both names are links to one file; else what the new name named is unlinked
    if fs.sameFile d dir name then e
    else if i = d then { e with dir := dir, name := name }
    else if e.isAt dir name then { e with linked := false }
    else e
  | _ => fun _ e => e

/-- A new inode may take any number that no live inode of its device has; links and renames stay on
one device. -/
def apply (fs : Fs) : FsOp → Option Fs
  | .create dir name ino =>
    if fs.nameFree dir name && !fs.live ⟨dir.dev, ino⟩ then
      some (fs.addEntry ⟨dir, name, ⟨dir.dev, ino⟩, true⟩)
    else none
  | .link d dir name =>
    match fs.linkedEntry d with
    | some e =>
      if dir.dev = e.inode.dev ∧ fs.nameFree dir name then
        some (fs.addEntry ⟨dir, name, e.inode, true⟩)
      else none
    | none => none
  | .unlink d =>
    match fs.linkedEntry d with
    | some _ => some (fs.mapEntries ((FsOp.unlink d).change fs))
    | none => none
  | .rename d dir name =>
    match fs.linkedEntry d with
    | some e =>
      if dir.dev = e.inode.dev then some (fs.mapEntries ((FsOp.rename d dir name).change fs))
      else none
    | none => none
  | .open d =>
    if h : (fs.linkedEntry d).isSome then some (fs.addFile d (Fs.lt_of_linkedEntry h)) else none
  | .access f _ => if (fs.file f).isSome then some fs else none
  | .close f => if (fs.file f).isSome then some (fs.closeFile f) else none

def hook (d_path : PathOf) (fs : Fs) : FsOp → Option HookCall
  | .create dir name _ => some (.inode_create dir ⟨name⟩)
  | .link _ dir name => some (.inode_link dir ⟨name⟩)
  | .unlink d => (fs.linkedEntry d).map fun e => .inode_unlink e.dir ⟨e.name⟩
  | .rename d dir name =>
    if fs.sameFile d dir name then none
    else (fs.linkedEntry d).map fun e => .inode_rename e.dir ⟨e.name⟩ dir ⟨name⟩
  | .open d => (fs.linkedEntry d).map fun e => .file_open (e.file d_path)
  | .access f mask => (fs.file f).map fun e => .file_permission (e.file d_path) mask
  | .close _ => none

/-- What an operation can do, with the guards that it has passed. -/
inductive Applies (fs : Fs) : FsOp → Fs → Prop where
  | create {dir : Inode} {name : List UInt8} {ino : UInt64} (hname : fs.nameFree dir name)
      (hino : !fs.live ⟨dir.dev, ino⟩) :
      Applies fs (.create dir name ino) (fs.addEntry ⟨dir, name, ⟨dir.dev, ino⟩, true⟩)
  | link {d : Nat} {dir : Inode} {name : List UInt8} {e : DirEntry}
      (hentry : fs.linkedEntry d = some e) (hdev : dir.dev = e.inode.dev)
      (hname : fs.nameFree dir name) :
      Applies fs (.link d dir name) (fs.addEntry ⟨dir, name, e.inode, true⟩)
  | unlink {d : Nat} {e : DirEntry} (hentry : fs.linkedEntry d = some e) :
      Applies fs (.unlink d) (fs.mapEntries ((FsOp.unlink d).change fs))
  | rename {d : Nat} {dir : Inode} {name : List UInt8} {e : DirEntry}
      (hentry : fs.linkedEntry d = some e) (hdev : dir.dev = e.inode.dev) :
      Applies fs (.rename d dir name) (fs.mapEntries ((FsOp.rename d dir name).change fs))
  | open {d : Nat} (hd : d < fs.entries.length)
      (hentry : fs.linkedEntry d = some fs.entries[d]) : Applies fs (.open d) (fs.addFile d hd)
  | access {f : Nat} {mask : UInt32} {e : DirEntry} (hfile : fs.file f = some e) :
      Applies fs (.access f mask) fs
  | close {f : Nat} {e : DirEntry} (hfile : fs.file f = some e) :
      Applies fs (.close f) (fs.closeFile f)

theorem applies_of_apply {op : FsOp} {fs fs' : Fs} (h : op.apply fs = some fs') :
    op.Applies fs fs' := by
  cases op with
  | create dir name ino =>
    obtain ⟨hguard, ⟨⟩⟩ := Option.ite_none_right_eq_some.mp h
    obtain ⟨hname, hino⟩ := Bool.and_eq_true_iff.mp hguard
    exact .create hname hino
  | link d dir name =>
    rw [apply] at h
    split at h
    · rename_i e hentry
      obtain ⟨⟨hdev, hname⟩, ⟨⟩⟩ := Option.ite_none_right_eq_some.mp h
      exact .link hentry hdev hname
    · cases h
  | unlink d =>
    rw [apply] at h
    split at h
    · rename_i e hentry
      cases h
      exact .unlink hentry
    · cases h
  | rename d dir name =>
    rw [apply] at h
    split at h
    · rename_i e hentry
      obtain ⟨hdev, ⟨⟩⟩ := Option.ite_none_right_eq_some.mp h
      exact .rename hentry hdev
    · cases h
  | «open» d =>
    rw [apply] at h
    split at h
    · rename_i hsome
      cases h
      have hd := Fs.lt_of_linkedEntry hsome
      obtain ⟨e, hentry⟩ := Option.isSome_iff_exists.mp hsome
      have hget := (Option.filter_eq_some_iff.mp hentry).1
      rw [List.getElem?_eq_getElem hd] at hget
      cases hget
      exact .open hd hentry
    · cases h
  | access f mask =>
    obtain ⟨hsome, ⟨⟩⟩ := Option.ite_none_right_eq_some.mp h
    obtain ⟨e, hfile⟩ := Option.isSome_iff_exists.mp hsome
    exact .access hfile
  | close f =>
    obtain ⟨hsome, ⟨⟩⟩ := Option.ite_none_right_eq_some.mp h
    obtain ⟨e, hfile⟩ := Option.isSome_iff_exists.mp hsome
    exact .close hfile

/-- An operation other than an open leaves the open files, or fewer, with what it makes of their
entries. -/
theorem Applies.mem_opened {op : FsOp} {fs fs' : Fs} (h : op.Applies fs fs')
    (hop : ∀ d, op ≠ .open d) {x' : Nat × DirEntry} (hx' : x' ∈ fs'.opened) :
    ∃ x ∈ fs.opened, x' = (x.1, op.change fs x.1 x.2) := by
  cases h with
  | «open» hd _ => exact absurd rfl (hop _)
  | create _ _ => exact ⟨x', Fs.mem_opened_addEntry.mp hx', rfl⟩
  | link _ _ _ => exact ⟨x', Fs.mem_opened_addEntry.mp hx', rfl⟩
  | unlink _ => exact Fs.mem_opened_mapEntries.mp hx'
  | rename _ _ => exact Fs.mem_opened_mapEntries.mp hx'
  | access _ => exact ⟨x', hx', rfl⟩
  | close _ => exact ⟨x', Fs.mem_opened_of_closeFile hx', rfl⟩

/-- A file whose entry the operation changes stays open. -/
theorem Applies.change_mem_opened {op : FsOp} {fs fs' : Fs} (h : op.Applies fs fs')
    {x : Nat × DirEntry} (hx : x ∈ fs.opened) (hne : op.change fs x.1 x.2 ≠ x.2) :
    (x.1, op.change fs x.1 x.2) ∈ fs'.opened := by
  cases h with
  | unlink _ => exact Fs.mem_opened_mapEntries.mpr ⟨x, hx, rfl⟩
  | rename _ _ => exact Fs.mem_opened_mapEntries.mpr ⟨x, hx, rfl⟩
  | _ => exact absurd rfl hne

theorem Applies.openAt {op : FsOp} {fs fs' : Fs} (h : op.Applies fs fs')
    (hop : ∀ d, op ≠ .open d) {f d : Nat} {e' : DirEntry} (he' : fs'.openAt f d e') :
    ∃ e, fs.openAt f d e ∧ op.change fs d e = e' := by
  cases h with
  | «open» hd _ => exact absurd rfl (hop _)
  | create _ _ => exact ⟨e', Fs.openAt_addEntry.mp he', rfl⟩
  | link _ _ _ => exact ⟨e', Fs.openAt_addEntry.mp he', rfl⟩
  | unlink _ => exact Fs.openAt_mapEntries.mp he'
  | rename _ _ => exact Fs.openAt_mapEntries.mp he'
  | access _ => exact ⟨e', he', rfl⟩
  | close _ => exact ⟨e', Fs.openAt_of_closeFile he', rfl⟩

theorem Applies.change_openAt {op : FsOp} {fs fs' : Fs} (h : op.Applies fs fs') {f d : Nat}
    {e : DirEntry} (he : fs.openAt f d e) (hne : op.change fs d e ≠ e) :
    fs'.openAt f d (op.change fs d e) := by
  cases h with
  | unlink _ => exact Fs.openAt_mapEntries.mpr ⟨e, he, rfl⟩
  | rename _ _ => exact Fs.openAt_mapEntries.mpr ⟨e, he, rfl⟩
  | _ => exact absurd rfl hne

/-- Descriptors are not given out twice. -/
theorem Applies.files_length {op : FsOp} {fs fs' : Fs} (h : op.Applies fs fs') :
    fs.files.length ≤ fs'.files.length := by
  cases h with
  | «open» hd _ =>
    rw [Fs.addFile, List.length_append]
    omega
  | close _ =>
    rw [Fs.closeFile, List.length_set]
  | _ => exact Nat.le_refl _

theorem change_inode (op : FsOp) (fs : Fs) (d : Nat) (e : DirEntry) :
    (op.change fs d e).inode = e.inode := by
  cases op with
  | unlink d' =>
    simp only [change]
    split <;> rfl
  | rename d' dir name =>
    simp only [change]
    repeat' split
    all_goals rfl
  | _ => rfl

end FsOp

structure Kernel (M : Type) where
  fs : Fs
  bpf : Bpf M

/-- A task makes an operation: the hook first, then the effect. -/
def Kernel.step {M : Type} (bh : BpfHelpers M) (d_path : PathOf) (r : Rodata) (op : Task × FsOp)
    (s : Kernel M) : Option (Kernel M) :=
  (op.2.apply s.fs).map fun fs =>
    ⟨fs, match op.2.hook d_path s.fs with
      | some call => call.invoke bh r op.1 s.bpf
      | none => s.bpf⟩

end Naarad.Hooks
