import Naarad.Pipes.Processes

/-!
# Which process holds which end

`Good P M H todo` walks through what process `P` still does before its loop: from the pipes `M` made
so far and the ends `H` held, no statement closes anything but an end of its own slot, each child
is forked with what it needs, and `P` enters its loop with the ends it is to own and no others.
-/

set_option autoImplicit false

namespace Naarad.Pipes

open LabelledRun

variable {G N : Nat}

/-- `M` with the two ends of another pipe. -/
abbrev addPipe (p : Nat × Nat) (wire : Wire) (M : Set Slot) : Set Slot :=
  {⟨p, wire, .read⟩, ⟨p, wire, .write⟩} ∪ M

theorem mem_addPipe {p : Nat × Nat} {wire : Wire} {M : Set Slot} {s : Slot} :
    s ∈ addPipe p wire M ↔ s = ⟨p, wire, .read⟩ ∨ s = ⟨p, wire, .write⟩ ∨ s ∈ M := by
  simp [or_assoc]

inductive Good (G N : Nat) : ProcId → Set Slot → Set Slot → List Instr → Prop where
  | nil {P : ProcId} {M H : Set Slot} (howns : ∀ s, s ∈ H ↔ s ∈ final G N P) : Good G N P M H []
  | pipe {P : ProcId} {M H : Set Slot} {p : Nat × Nat} {wire : Wire} {todo : List Instr}
      (hheld : ∀ s ∈ M, s ∈ H) (hread : ⟨p, wire, .read⟩ ∉ M) (hwrite : ⟨p, wire, .write⟩ ∉ M)
      (h : Good G N P (addPipe p wire M) (addPipe p wire H) todo) :
      Good G N P M H (.pipe p wire :: todo)
  | fork {P child : ProcId} {M H : Set Slot} {todo : List Instr} (hchild : child ∈ children G N)
      (hstart : Good G N child M H (startup G N child)) (h : Good G N P M H todo) :
      Good G N P M H (.fork child :: todo)
  | close {P : ProcId} {M H : Set Slot} {s : Slot} {todo : List Instr} (hs : s ∈ M)
      (h : Good G N P M (H \ {s}) todo) : Good G N P M H (.close s :: todo)

theorem Good.closes {P : ProcId} {M H : Set Slot} {todo : List Instr} (l : List Slot)
    (H' : Set Slot) (hM : ∀ s ∈ l, s ∈ M) (hH' : ∀ s, s ∈ H' ↔ s ∈ H ∧ s ∉ l)
    (h : Good G N P M H' todo) :
    Good G N P M H (l.map .close ++ todo) := by
  induction l generalizing H with
  | nil =>
    obtain rfl : H' = H := Set.ext fun s => by simp [hH']
    exact h
  | cons a l ih =>
    apply Good.close (hM a List.mem_cons_self)
    apply ih
    · exact fun s hs => hM s (List.mem_cons_of_mem a hs)
    · intro s
      rw [hH', List.mem_cons, not_or, Set.mem_sdiff, Set.mem_singleton_iff, and_assoc]

def slotsOf (ps : List (Nat × Nat)) : Set Slot := {s | s.pair ∈ ps}

theorem good_pipes {P : ProcId} {todo : List Instr} (ps : List (Nat × Nat))
    (done : List (Nat × Nat)) (hnodup : (done ++ ps).Nodup)
    (h : Good G N P (slotsOf (done ++ ps)) (slotsOf (done ++ ps)) todo) :
    Good G N P (slotsOf done) (slotsOf done) ((ps.flatMap fun p =>
      [.pipe p .dispatcher_to_consumer, .pipe p .consumer_to_dispatcher]) ++ todo) := by
  induction ps generalizing done with
  | nil =>
    rw [List.append_nil] at h
    exact h
  | cons p ps ih =>
    have hp : p ∉ done := fun hmem =>
      (List.nodup_append.mp hnodup).2.2 p hmem p List.mem_cons_self rfl
    rw [List.append_cons] at hnodup h
    have hrest := ih (done ++ [p]) hnodup h
    apply Good.pipe (fun s hs => hs) hp hp
    apply Good.pipe (fun s hs => hs)
    · simpa [slotsOf] using hp
    · simpa [slotsOf] using hp
    have hmade : addPipe p .consumer_to_dispatcher (addPipe p .dispatcher_to_consumer
        (slotsOf done)) = slotsOf (done ++ [p]) := by
      ext s
      obtain ⟨q, wire, side⟩ := s
      cases wire <;> cases side <;> simp [slotsOf, or_comm]
    rw [hmade]
    exact hrest

/-- The ends that `main` holds when the consumers of the pairs `done` are forked. -/
def afterForks (ps done : List (Nat × Nat)) : Set Slot :=
  {s | s.pair ∈ ps ∧ (s.pair ∈ done → (s.wire = .dispatcher_to_consumer ↔ s.side = .write))}

theorem good_consumer {p : Nat × Nat} {done : List (Nat × Nat)} (hp : p ∈ pairs G N)
    (hdone : p ∉ done) : Good G N (.consumer p) (slotsOf (pairs G N)) (afterForks (pairs G N) done)
      (startup G N (.consumer p)) := by
  rw [← List.append_nil (startup G N (.consumer p))]
  have hstartup : startup G N (.consumer p) =
      (⟨p, .dispatcher_to_consumer, .write⟩ :: ⟨p, .consumer_to_dispatcher, .read⟩ ::
        ((pairs G N).filter (· ≠ p)).flatMap ends).map Instr.close := rfl
  have hmem : ∀ s : Slot, s ∈ ((pairs G N).filter (· ≠ p)).flatMap ends ↔
      s.pair ∈ pairs G N ∧ s.pair ≠ p := by
    intro s
    rw [mem_flatMap_ends, List.mem_filter, decide_eq_true_eq]
  rw [hstartup]
  apply Good.closes _ {s | s ∈ final G N (.consumer p)} _ _ (.nil fun s => Iff.rfl)
  · intro s hs
    simp only [List.mem_cons, hmem] at hs
    rcases hs with rfl | rfl | ⟨hs, _⟩
    · exact hp
    · exact hp
    · exact hs
  · intro s
    simp only [List.mem_cons, hmem]
    obtain ⟨q, wire, side⟩ := s
    by_cases hq : q = p
    · subst hq
      cases wire <;> cases side <;> simp [final, afterForks, hp, hdone]
    · cases wire <;> cases side <;> simp [final, afterForks, hq]
      all_goals exact fun h _ => h

theorem good_forks {todo : List Instr} (ps done : List (Nat × Nat))
    (hpairs : done ++ ps = pairs G N)
    (h : Good G N .main (slotsOf (pairs G N)) (afterForks (pairs G N) (pairs G N)) todo) :
    Good G N .main (slotsOf (pairs G N)) (afterForks (pairs G N) done) ((ps.flatMap fun p =>
      [.fork (.consumer p), .close ⟨p, .dispatcher_to_consumer, .read⟩,
        .close ⟨p, .consumer_to_dispatcher, .write⟩]) ++ todo) := by
  induction ps generalizing done with
  | nil =>
    rw [List.append_nil] at hpairs
    rw [hpairs]
    exact h
  | cons p ps ih =>
    have hp : p ∈ pairs G N := by simp [← hpairs]
    have hnodup := nodup_pairs G N
    rw [← hpairs] at hnodup
    have hdone : p ∉ done := fun hmem =>
      (List.nodup_append.mp hnodup).2.2 p hmem p List.mem_cons_self rfl
    have hrest := ih (done ++ [p]) (by rw [← hpairs, ← List.append_cons])
    apply Good.fork (by simp [children, hp]) (good_consumer hp hdone)
    apply Good.closes [⟨p, .dispatcher_to_consumer, .read⟩, ⟨p, .consumer_to_dispatcher, .write⟩]
      (afterForks (pairs G N) (done ++ [p])) _ _ hrest
    · intro s hs
      simp only [List.mem_cons, List.not_mem_nil, or_false] at hs
      rcases hs with rfl | rfl <;> exact hp
    · intro s
      obtain ⟨q, wire, side⟩ := s
      by_cases hq : q = p
      · subst hq
        cases wire <;> cases side <;> simp [afterForks, hp, hdone]
      · cases wire <;> cases side <;> simp [afterForks, hq]

theorem good_startup (G N : Nat) : Good G N .main ∅ ∅ (startup G N .main) := by
  have hempty : (∅ : Set Slot) = slotsOf [] := by simp [slotsOf]
  have hstart : slotsOf (pairs G N) = afterForks (pairs G N) [] := by simp [slotsOf, afterForks]
  rw [hempty]
  apply good_pipes (pairs G N) [] (nodup_pairs G N)
  rw [List.nil_append]
  nth_rewrite 2 [hstart]
  apply good_forks (pairs G N) [] rfl
  apply Good.fork List.mem_cons_self
  · apply Good.nil
    intro s
    obtain ⟨q, wire, side⟩ := s
    cases wire <;> cases side <;> simp [final, afterForks]
  · rw [← List.append_nil (closeAll _)]
    apply Good.closes _ ∅ _ _ (.nil fun s => by simp [final])
    · intro s hs
      exact mem_flatMap_ends.mp hs
    · intro s
      rw [mem_flatMap_ends]
      simp only [afterForks, Set.mem_empty_iff_false, Set.mem_ofPred_eq, false_iff]
      exact fun h => h.2 h.1.1

/-- The table of a process, when it holds the ends `H` of the pipes `M`. -/
structure Tidy (M H : Set Slot) (pr : Proc) : Prop where
  ends : ∀ fd s, pr.table fd = some (.pipe_end s) ↔ s ∈ H ∧ pr.fds s = fd
  sub : ∀ s ∈ H, s ∈ M
  inj : ∀ s ∈ M, ∀ s' ∈ M, pr.fds s = pr.fds s' → s = s'

/-- Nothing else has been opened under the number of a slot. -/
def Unassigned (M : Set Slot) (pr : Proc) : Prop := ∀ s ∈ M, pr.table (pr.fds s) ≠ some .other

theorem Tidy.own {M H : Set Slot} {pr : Proc} {s : Slot} (h : Tidy M H pr)
    (hother : Unassigned M pr) (hs : s ∈ M) :
    pr.table (pr.fds s) = none ∨ pr.table (pr.fds s) = some (.pipe_end s) := by
  cases hd : pr.table (pr.fds s) with
  | none => exact Or.inl rfl
  | some d =>
    cases d with
    | other => exact absurd hd (hother s hs)
    | pipe_end s' =>
      obtain ⟨hs', hfd⟩ := (h.ends _ _).mp hd
      rw [h.inj s' (h.sub s' hs') s hs hfd]
      exact Or.inr rfl

theorem Tidy.enter {M H : Set Slot} {pr : Proc} (h : Tidy M H pr) (phase : Phase) :
    Tidy M H (pr.enter phase) := ⟨h.ends, h.sub, h.inj⟩

theorem Tidy.close {M H : Set Slot} {pr : Proc} {s : Slot} (h : Tidy M H pr) (hs : s ∈ M)
    (phase : Phase) : Tidy M (H \ {s}) (pr.close s phase) where
  ends := by
    intro fd s'
    rw [Set.mem_sdiff, Set.mem_singleton_iff]
    by_cases hfd : fd = pr.fds s
    · subst hfd
      simp only [Proc.close, Function.update_self]
      constructor
      · intro hnone
        cases hnone
      · rintro ⟨⟨hs', hne⟩, heq⟩
        exact absurd (h.inj s' (h.sub s' hs') s hs heq) hne
    · simp only [Proc.close, Function.update_of_ne hfd, h.ends]
      constructor
      · rintro ⟨hs', rfl⟩
        exact ⟨⟨hs', fun heq => hfd (heq ▸ rfl)⟩, rfl⟩
      · rintro ⟨⟨hs', _⟩, heq⟩
        exact ⟨hs', heq⟩
  sub := fun s' hs' => h.sub s' hs'.1
  inj := h.inj

theorem Unassigned.close {M : Set Slot} {pr : Proc} (h : Unassigned M pr) (s : Slot)
    (phase : Phase) : Unassigned M (pr.close s phase) := by
  intro s' hs'
  by_cases hfd : pr.fds s' = pr.fds s
  · simp [Proc.close, hfd]
  · simp only [Proc.close, Function.update_of_ne hfd]
    exact h s' hs'

section Pipe
variable {M H : Set Slot} {pr : Proc} {p : Nat × Nat} {wire : Wire} {c : Choice}

/-- The new descriptors are not those of an end that is held. -/
theorem Tidy.fresh (h : Tidy M H pr) (hread : pr.table c.read = none)
    (hwrite : pr.table c.write = none) {s : Slot} (hs : s ∈ H) :
    pr.fds s ≠ c.read ∧ pr.fds s ≠ c.write := by
  have hheld := (h.ends _ s).mpr ⟨hs, rfl⟩
  constructor
  · rintro heq
    rw [heq, hread] at hheld
    cases hheld
  · rintro heq
    rw [heq, hwrite] at hheld
    cases hheld

theorem pipe_table (phase : Phase) (fd : Nat) : (pr.pipe p wire c phase).table fd =
    if fd = c.write then some (.pipe_end ⟨p, wire, .write⟩)
    else if fd = c.read then some (.pipe_end ⟨p, wire, .read⟩) else pr.table fd := by
  simp [Proc.pipe, Function.update_apply]

theorem pipe_fds (phase : Phase) (s : Slot) : (pr.pipe p wire c phase).fds s =
    if s = ⟨p, wire, .write⟩ then c.write else if s = ⟨p, wire, .read⟩ then c.read
    else pr.fds s := by
  simp [Proc.pipe, Function.update_apply]

theorem Tidy.pipe_ends (h : Tidy M H pr) (hr : ⟨p, wire, .read⟩ ∉ M) (hw : ⟨p, wire, .write⟩ ∉ M)
    (hread : pr.table c.read = none) (hwrite : pr.table c.write = none) (hne : c.read ≠ c.write)
    (phase : Phase) (fd : Nat) (s : Slot) :
    (pr.pipe p wire c phase).table fd = some (.pipe_end s) ↔
      s ∈ addPipe p wire H ∧
        (pr.pipe p wire c phase).fds s = fd := by
  have hsides : (⟨p, wire, .read⟩ : Slot) ≠ ⟨p, wire, .write⟩ := by simp
  have hold : ∀ s', pr.table fd = some (.pipe_end s') → s' ∈ M := fun s' hs' =>
    h.sub s' ((h.ends fd s').mp hs').1
  rw [pipe_table, pipe_fds, mem_addPipe]
  by_cases hsr : s = ⟨p, wire, .read⟩
  · subst hsr
    rw [if_neg hsides, if_pos rfl, eq_self, true_or, true_and]
    split
    · rename_i heq
      simp [heq, hne]
    · split
      · rename_i heq
        simp [heq]
      · rename_i heq
        exact iff_of_false (fun hend => hr (hold _ hend)) fun h => heq h.symm
  · by_cases hsw : s = ⟨p, wire, .write⟩
    · subst hsw
      rw [if_pos rfl, eq_self, true_or, or_true, true_and]
      split
      · rename_i heq
        simp [heq]
      · rename_i hfd
        split
        · rename_i heq
          simp [heq, hne.symm]
        · exact iff_of_false (fun hend => hw (hold _ hend)) fun h => hfd h.symm
    · rw [if_neg hsw, if_neg hsr, or_iff_right hsr, or_iff_right hsw]
      split
      · rename_i heq
        subst heq
        simp only [Option.some.injEq, Desc.pipe_end.injEq]
        exact iff_of_false (Ne.symm hsw) fun hs => (h.fresh hread hwrite hs.1).2 hs.2
      · split
        · rename_i heq
          subst heq
          simp only [Option.some.injEq, Desc.pipe_end.injEq]
          exact iff_of_false (Ne.symm hsr) fun hs => (h.fresh hread hwrite hs.1).1 hs.2
        · exact h.ends fd s

theorem Tidy.pipe (h : Tidy M H pr) (hheld : ∀ s ∈ M, s ∈ H) (hr : ⟨p, wire, .read⟩ ∉ M)
    (hw : ⟨p, wire, .write⟩ ∉ M) (hread : pr.table c.read = none)
    (hwrite : pr.table c.write = none) (hne : c.read ≠ c.write) (phase : Phase) :
    Tidy (addPipe p wire M)
      (addPipe p wire H) (pr.pipe p wire c phase) where
  ends := h.pipe_ends hr hw hread hwrite hne phase
  sub := by
    intro s hs
    rw [mem_addPipe] at hs ⊢
    exact hs.imp_right (Or.imp_right (h.sub s))
  inj := by
    have hall : ∀ s ∈ addPipe p wire M,
        (pr.pipe p wire c phase).table ((pr.pipe p wire c phase).fds s) = some (.pipe_end s) := by
      intro s hs
      apply (h.pipe_ends hr hw hread hwrite hne phase _ s).mpr ⟨_, rfl⟩
      rw [mem_addPipe] at hs ⊢
      exact hs.imp_right (Or.imp_right (hheld s))
    intro s hs s' hs' heq
    have hend := hall s hs
    rw [heq, hall s' hs'] at hend
    simpa using hend.symm

theorem Unassigned.pipe (h : Tidy M H pr) (hheld : ∀ s ∈ M, s ∈ H)
    (hr : ⟨p, wire, .read⟩ ∉ M) (hw : ⟨p, wire, .write⟩ ∉ M) (hread : pr.table c.read = none)
    (hwrite : pr.table c.write = none) (hne : c.read ≠ c.write) (phase : Phase) :
    Unassigned (addPipe p wire M) (pr.pipe p wire c phase) := by
  intro s hs
  have hend := (h.pipe_ends hr hw hread hwrite hne phase _ s).mpr ⟨?_, rfl⟩
  · rw [hend]
    simp
  · rw [mem_addPipe] at hs ⊢
    exact hs.imp_right (Or.imp_right (hheld s))

end Pipe

end Naarad.Pipes
