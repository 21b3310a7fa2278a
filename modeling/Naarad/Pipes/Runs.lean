import Naarad.Pipes.Ownership

/-!
# Ownership in every run

The processes of a run, interleaved in any order: each of them keeps to its own part of `Good`, so
whoever has reached its loop holds the ends that are its own.
-/

set_option autoImplicit false

namespace Naarad.Pipes

open LabelledRun

variable {G N : Nat}

def ProcInv (G N : Nat) (P : ProcId) (pr : Proc) : Prop :=
  match pr.phase with
  | .running todo => ∃ M H, Tidy M H pr ∧ (todo ≠ [] → Unassigned M pr) ∧ Good G N P M H todo
  | .closing todo => todo.Nodup ∧ (∀ s ∈ todo, s ∈ final G N P) ∧ ∃ M, Tidy M {s | s ∈ todo} pr
  | .exited => ∀ fd, pr.table fd = none

structure Inv (G N : Nat) (s : System) : Prop where
  procs : ∀ P pr, s P = some pr → ProcInv G N P pr
  known : ∀ P, (s P).isSome → P = .main ∨ P ∈ children G N
  forked : ∀ pr todo, s .main = some pr → pr.phase = .running todo →
    ∀ P ∈ children G N, (s P).isSome ∨ .fork P ∈ todo

theorem nodup_final (G N : Nat) (P : ProcId) : (final G N P).Nodup := by
  cases P with
  | main => exact List.nodup_nil
  | consumer p => simp [final]
  | dispatcher =>
    apply List.nodup_flatMap.mpr
    constructor
    · simp
    · apply (nodup_pairs G N).imp
      intro p q hne s hs hs'
      simp only [List.mem_cons, List.not_mem_nil, or_false] at hs hs'
      rcases hs with rfl | rfl <;> rcases hs' with hs' | hs' <;> simp_all

theorem main_notMem_children (G N : Nat) : .main ∉ children G N := by
  simp [children]

theorem procInv_exit (P : ProcId) (pr : Proc) : ProcInv G N P pr.exit := fun _ => rfl

/-- A step that changes one process, and leaves it no fewer children to fork. -/
theorem Inv.set {s : System} {P : ProcId} {pr pr' : Proc} (h : Inv G N s) (hP : s P = some pr)
    (hpr' : ProcInv G N P pr') (hforks : ∀ todo', pr'.phase = .running todo' →
      ∃ todo, pr.phase = .running todo ∧ ∀ Q, .fork Q ∈ todo → .fork Q ∈ todo') :
    Inv G N (s.set P pr') := by
  have hsome : ∀ Q, (s.set P pr' Q).isSome = (s Q).isSome := by
    intro Q
    by_cases hQ : Q = P
    · subst hQ
      simp [System.set, hP]
    · simp [System.set, Function.update_of_ne hQ]
  constructor
  · intro Q pr₁ hQ
    by_cases hQP : Q = P
    · subst hQP
      rw [System.set, Function.update_self] at hQ
      exact Option.some.inj hQ ▸ hpr'
    · rw [System.set, Function.update_of_ne hQP] at hQ
      exact h.procs Q pr₁ hQ
  · intro Q hQ
    rw [hsome] at hQ
    exact h.known Q hQ
  · intro pr₁ todo' hmain hphase Q hQ
    rw [hsome]
    by_cases hMP : ProcId.main = P
    · subst hMP
      rw [System.set, Function.update_self] at hmain
      obtain rfl := Option.some.inj hmain
      obtain ⟨todo, htodo, hsub⟩ := hforks todo' hphase
      exact (h.forked pr todo hP htodo Q hQ).imp_right (hsub Q)
    · rw [System.set, Function.update_of_ne hMP] at hmain
      exact h.forked pr₁ todo' hmain hphase Q hQ

theorem Inv.fork {s : System} {P child : ProcId} {pr pr₁ pr₂ : Proc} {todo : List Instr}
    (h : Inv G N s) (hP : s P = some pr) (hphase : pr.phase = .running (.fork child :: todo))
    (hchild : child ∈ children G N) (hpr₁ : ProcInv G N P pr₁) (hpr₁' : pr₁.phase = .running todo)
    (hpr₂ : ProcInv G N child pr₂) : Inv G N ((s.set P pr₁).set child pr₂) := by
  have hsome : ∀ Q, (s Q).isSome ∨ Q = child → ((s.set P pr₁).set child pr₂ Q).isSome := by
    intro Q hQ
    by_cases hQc : Q = child
    · subst hQc
      simp [System.set]
    · by_cases hQP : Q = P
      · subst hQP
        simp [System.set, Function.update_of_ne hQc]
      · simpa [System.set, Function.update_of_ne hQc, Function.update_of_ne hQP, hQc] using hQ
  have hmc : ProcId.main ≠ child := fun heq => main_notMem_children G N (heq ▸ hchild)
  constructor
  · intro Q pr' hQ
    by_cases hQc : Q = child
    · subst hQc
      rw [System.set, Function.update_self] at hQ
      exact Option.some.inj hQ ▸ hpr₂
    · rw [System.set, Function.update_of_ne hQc] at hQ
      by_cases hQP : Q = P
      · subst hQP
        rw [System.set, Function.update_self] at hQ
        exact Option.some.inj hQ ▸ hpr₁
      · rw [System.set, Function.update_of_ne hQP] at hQ
        exact h.procs Q pr' hQ
  · intro Q hQ
    by_cases hQc : Q = child
    · exact Or.inr (hQc ▸ hchild)
    · rw [System.set, Function.update_of_ne hQc] at hQ
      by_cases hQP : Q = P
      · exact h.known Q (by rw [hQP, hP]; rfl)
      · rw [System.set, Function.update_of_ne hQP] at hQ
        exact h.known Q hQ
  · intro pr' todo' hmain hrunning Q hQ
    rw [System.set, Function.update_of_ne hmc] at hmain
    by_cases hMP : ProcId.main = P
    · subst hMP
      rw [System.set, Function.update_self] at hmain
      obtain rfl := Option.some.inj hmain
      cases hpr₁'.symm.trans hrunning
      rcases h.forked pr _ hP hphase Q hQ with hQ | hQ
      · exact Or.inl (hsome Q (Or.inl hQ))
      · rcases List.mem_cons.mp hQ with heq | hQ
        · exact Or.inl (hsome Q (Or.inr (Instr.fork.inj heq)))
        · exact Or.inr hQ
    · rw [System.set, Function.update_of_ne hMP] at hmain
      exact (h.forked pr' todo' hmain hrunning Q hQ).imp_left fun hQ => hsome Q (Or.inl hQ)

theorem Inv.runProc {s s' : System} {P : ProcId} {pr : Proc} {c : Choice} (h : Inv G N s)
    (hP : s P = some pr) (hstep : runProc G N s P pr c = some s') : Inv G N s' := by
  have hpr := h.procs P pr hP
  have hexit : Inv G N (s.set P pr.exit) := h.set hP (procInv_exit P pr) nofun
  unfold Pipes.runProc at hstep
  unfold ProcInv at hpr
  split at hstep
  · cases hstep
  · rename_i p wire todo hphase
    rw [hphase] at hpr
    obtain ⟨M, H, htidy, _, hgood⟩ := hpr
    cases hgood with
    | pipe hheld hr hw hgood =>
      split at hstep
      · cases hstep
        exact hexit
      · split at hstep
        · rename_i hfree
          obtain ⟨hread, hwrite, hne⟩ := hfree
          cases hstep
          apply h.set hP
          · exact ⟨_, _, htidy.pipe hheld hr hw hread hwrite hne _,
              fun _ => .pipe htidy hheld hr hw hread hwrite hne _, hgood⟩
          · rintro todo' ⟨⟩
            refine ⟨_, hphase, fun Q hQ => ?_⟩
            rcases List.mem_cons.mp hQ with heq | hQ
            · cases heq
            · exact hQ
        · cases hstep
  · rename_i child todo hphase
    rw [hphase] at hpr
    obtain ⟨M, H, htidy, hother, hgood⟩ := hpr
    have hother := hother (List.cons_ne_nil _ _)
    cases hgood with
    | fork hchild hstart hgood =>
      split at hstep
      · cases hstep
        exact hexit
      · cases hstep
        apply h.fork hP hphase hchild _ rfl
        · exact ⟨M, H, htidy.enter _, fun _ => hother, hstart⟩
        · exact ⟨M, H, htidy.enter _, fun _ => hother, hgood⟩
  · rename_i slot todo hphase
    rw [hphase] at hpr
    obtain ⟨M, H, htidy, hother, hgood⟩ := hpr
    have hother := hother (List.cons_ne_nil _ _)
    cases hgood with
    | close hs hgood =>
      cases hstep
      apply h.set hP
      · exact ⟨M, _, htidy.close hs _, fun _ => hother.close slot _, hgood⟩
      · rintro todo' ⟨⟩
        refine ⟨_, hphase, fun Q hQ => ?_⟩
        rcases List.mem_cons.mp hQ with heq | hQ
        · cases heq
        · exact hQ
  · cases hstep
    exact hexit
  · rename_i slot todo hphase
    rw [hphase] at hpr
    obtain ⟨hnodup, hfinal, M, htidy⟩ := hpr
    obtain ⟨hslot, hnodup⟩ := List.nodup_cons.mp hnodup
    cases hstep
    apply h.set hP _ (fun todo' heq => by cases heq)
    refine ⟨hnodup, fun s hs => hfinal s (List.mem_cons_of_mem _ hs), M, ?_⟩
    have hrest : {s | s ∈ todo} = {s | s ∈ slot :: todo} \ {slot} := by
      ext s
      simp only [Set.mem_sdiff, Set.mem_singleton_iff, Set.mem_ofPred_eq, List.mem_cons]
      constructor
      · exact fun hs => ⟨Or.inr hs, ne_of_mem_of_not_mem hs hslot⟩
      · exact fun hs => hs.1.resolve_left hs.2
    rw [hrest]
    exact htidy.close (htidy.sub slot List.mem_cons_self) _
  · cases hstep

theorem isLooping_eq_true {pr : Proc} : pr.isLooping = true ↔ pr.phase = .running [] := by
  unfold Proc.isLooping
  split
  · rename_i hphase
    exact iff_of_true rfl hphase
  · rename_i hphase
    exact iff_of_false (by simp) hphase

theorem Inv.open_other {s : System} {P : ProcId} {pr : Proc} {fd : Nat} (h : Inv G N s)
    (hP : s P = some pr) (hphase : pr.phase = .running []) (hfree : pr.table fd = none) :
    Inv G N (s.set P { pr with table := Function.update pr.table fd (some .other) }) := by
  have hpr := h.procs P pr hP
  unfold ProcInv at hpr
  rw [hphase] at hpr
  obtain ⟨M, H, htidy, _, hgood⟩ := hpr
  apply h.set hP
  · unfold ProcInv
    dsimp only
    rw [hphase]
    refine ⟨M, H, ⟨?_, htidy.sub, htidy.inj⟩, fun hne => absurd rfl hne, hgood⟩
    intro fd' slot
    dsimp only
    by_cases hfd : fd' = fd
    · subst hfd
      rw [Function.update_self, ← htidy.ends, hfree]
      simp
    · rw [Function.update_of_ne hfd]
      exact htidy.ends fd' slot
  · intro todo' htodo'
    exact ⟨todo', htodo', fun _ hQ => hQ⟩

theorem Inv.finish {s : System} {P : ProcId} {pr : Proc} (h : Inv G N s)
    (hP : s P = some pr) (hphase : pr.phase = .running []) :
    Inv G N (s.set P (pr.enter (.closing (final G N P)))) := by
  have hpr := h.procs P pr hP
  unfold ProcInv at hpr
  rw [hphase] at hpr
  obtain ⟨M, H, htidy, _, hgood⟩ := hpr
  cases hgood with
  | nil howns =>
    obtain rfl : H = {s | s ∈ final G N P} := Set.ext howns
    exact h.set hP ⟨nodup_final G N P, fun _ hs => hs, M, htidy.enter _⟩ nofun

theorem Inv.step {l : Label} {s s' : System} (h : Inv G N s)
    (hstep : System.step G N l s = some s') : Inv G N s' := by
  cases l with
  | run P c =>
    obtain ⟨pr, hP, hstep⟩ := Option.bind_eq_some_iff.mp hstep
    exact h.runProc hP hstep
  | open_other P fd =>
    obtain ⟨pr, hP, hstep⟩ := Option.bind_eq_some_iff.mp hstep
    obtain ⟨⟨hloop, hfree⟩, ⟨⟩⟩ := Option.ite_none_right_eq_some.mp hstep
    exact h.open_other hP (isLooping_eq_true.mp hloop) hfree
  | finish P =>
    obtain ⟨pr, hP, hstep⟩ := Option.bind_eq_some_iff.mp hstep
    obtain ⟨hloop, ⟨⟩⟩ := Option.ite_none_right_eq_some.mp hstep
    exact h.finish hP (isLooping_eq_true.mp hloop)

theorem start_inv (G N : Nat) (opened : Nat → Bool) : Inv G N (.start G N opened) := by
  have hmain : System.start G N opened .main =
      some ⟨fun fd => if opened fd then some .other else none, fun _ => 0,
        .running (startup G N .main)⟩ := by
    rw [System.start, System.set, Function.update_self]
  have hnone : ∀ P, P ≠ .main → System.start G N opened P = none := by
    intro P hP
    rw [System.start, System.set, Function.update_of_ne hP]
  constructor
  · intro P pr hP
    by_cases hPm : P = .main
    · subst hPm
      obtain rfl := Option.some.inj (hmain.symm.trans hP)
      refine ⟨∅, ∅, ⟨?_, fun _ hs => hs, fun _ hs => hs.elim⟩, fun _ _ hs => hs.elim,
        good_startup G N⟩
      intro fd s
      dsimp only
      split <;> simp
    · rw [hnone P hPm] at hP
      cases hP
  · intro P hP
    by_contra hne
    rw [hnone P (fun hPm => hne (Or.inl hPm))] at hP
    cases hP
  · intro pr todo hpr hphase P hP
    obtain rfl := Option.some.inj (hmain.symm.trans hpr)
    cases hphase
    right
    rcases List.mem_cons.mp hP with rfl | hP
    · simp [startup, init_dispatcher]
    · obtain ⟨p, hp, rfl⟩ := List.mem_map.mp hP
      simp [startup, init_consumer, hp]

def System.holds (s : System) (P : ProcId) (slot : Slot) : Prop :=
  ∃ pr fd, s P = some pr ∧ pr.table fd = some (.pipe_end slot)

def System.inLoop (s : System) (P : ProcId) : Prop := ∃ pr, s P = some pr ∧ pr.phase = .running []

/-- The process has made all the closes of its start. -/
def System.started (s : System) (P : ProcId) : Prop :=
  ∃ pr, s P = some pr ∧ ∀ instr todo, pr.phase ≠ .running (instr :: todo)

/-- The next thing that the process does is to close the descriptor in the slot. -/
def Proc.closes (pr : Proc) (slot : Slot) : Prop :=
  (∃ todo, pr.phase = .running (.close slot :: todo)) ∨ ∃ todo, pr.phase = .closing (slot :: todo)

theorem Inv.holds_inLoop {s : System} {P : ProcId} {slot : Slot} (h : Inv G N s)
    (hloop : s.inLoop P) : s.holds P slot ↔ slot ∈ final G N P := by
  obtain ⟨pr, hP, hphase⟩ := hloop
  have hpr := h.procs P pr hP
  unfold ProcInv at hpr
  rw [hphase] at hpr
  obtain ⟨M, H, htidy, _, hgood⟩ := hpr
  cases hgood with
  | nil howns =>
    rw [← howns]
    constructor
    · rintro ⟨pr', fd, hP', hend⟩
      obtain rfl := Option.some.inj (hP.symm.trans hP')
      exact ((htidy.ends fd slot).mp hend).1
    · intro hslot
      exact ⟨pr, pr.fds slot, hP, (htidy.ends _ _).mpr ⟨hslot, rfl⟩⟩

theorem Inv.final_of_holds {s : System} {P : ProcId} {slot : Slot} (h : Inv G N s)
    (hstarted : s.started P) (hholds : s.holds P slot) : slot ∈ final G N P := by
  obtain ⟨pr, hP, hphase⟩ := hstarted
  obtain ⟨pr', fd, hP', hend⟩ := hholds
  obtain rfl := Option.some.inj (hP.symm.trans hP')
  have hpr := h.procs P pr hP
  unfold ProcInv at hpr
  split at hpr
  · rename_i todo hrunning
    cases todo with
    | cons instr todo => exact absurd hrunning (hphase instr todo)
    | nil => exact (h.holds_inLoop ⟨pr, hP, hrunning⟩).mp ⟨pr, fd, hP, hend⟩
  · obtain ⟨_, hfinal, M, htidy⟩ := hpr
    exact hfinal slot ((htidy.ends fd slot).mp hend).1
  · rw [hpr fd] at hend
    cases hend

theorem Inv.closes_own {s : System} {P : ProcId} {pr : Proc} {slot : Slot} (h : Inv G N s)
    (hP : s P = some pr) (hcloses : pr.closes slot) :
    pr.table (pr.fds slot) = none ∨ pr.table (pr.fds slot) = some (.pipe_end slot) := by
  have hpr := h.procs P pr hP
  unfold ProcInv at hpr
  rcases hcloses with ⟨todo, hphase⟩ | ⟨todo, hphase⟩
  · rw [hphase] at hpr
    obtain ⟨M, H, htidy, hother, hgood⟩ := hpr
    cases hgood with
    | close hs hgood => exact htidy.own (hother (List.cons_ne_nil _ _)) hs
  · rw [hphase] at hpr
    obtain ⟨_, _, M, htidy⟩ := hpr
    exact Or.inr ((htidy.ends _ _).mpr ⟨List.mem_cons_self, rfl⟩)

/-- The ends of a pair are open where they are used and nowhere else. -/
structure OwnedBy (s : System) (p : Nat × Nat) (P : ProcId) : Prop where
  to_consumer_write : s.holds P ⟨p, .dispatcher_to_consumer, .write⟩ ↔ P = .dispatcher
  to_dispatcher_read : s.holds P ⟨p, .consumer_to_dispatcher, .read⟩ ↔ P = .dispatcher
  to_consumer_read : s.holds P ⟨p, .dispatcher_to_consumer, .read⟩ ↔ P = .consumer p
  to_dispatcher_write : s.holds P ⟨p, .consumer_to_dispatcher, .write⟩ ↔ P = .consumer p

structure PipesOwned (G N : Nat) (s : System) : Prop where
  forked : s.inLoop .main → ∀ P ∈ children G N, (s P).isSome
  owned : s.inLoop .main → (∀ P ∈ children G N, s.inLoop P) → ∀ p ∈ pairs G N, ∀ P, OwnedBy s p P
  closes_own : ∀ P pr slot, s P = some pr → pr.closes slot →
    pr.table (pr.fds slot) = none ∨ pr.table (pr.fds slot) = some (.pipe_end slot)
  apart : ∀ q, s.started (.consumer q) → ∀ slot, slot.pair ≠ q → ¬ s.holds (.consumer q) slot
  /-- When `main` has exited and the dispatcher was never forked, no consumer waits for ever. -/
  end_of_file : (∃ pr, s .main = some pr ∧ pr.phase = .exited) → s .dispatcher = none →
    (∀ q, (s (.consumer q)).isSome → s.started (.consumer q)) →
    ∀ p P, ¬ s.holds P ⟨p, .dispatcher_to_consumer, .write⟩

theorem pair_of_mem_final {q : Nat × Nat} {slot : Slot} (h : slot ∈ final G N (.consumer q)) :
    slot.pair = q := by
  simp only [final, List.mem_cons, List.not_mem_nil, or_false] at h
  rcases h with rfl | rfl <;> rfl

theorem not_holds_of_none {s : System} {P : ProcId} {slot : Slot} (h : s P = none) :
    ¬ s.holds P slot := by
  rintro ⟨pr, fd, hP, _⟩
  rw [h] at hP
  cases hP

theorem consumer_mem_children {p : Nat × Nat} (hp : p ∈ pairs G N) :
    .consumer p ∈ children G N := by
  simp [children, hp]

theorem Inv.ownedBy {s : System} {p : Nat × Nat} (h : Inv G N s) (hmain : s.inLoop .main)
    (hchildren : ∀ P ∈ children G N, s.inLoop P) (hp : p ∈ pairs G N) (P : ProcId) :
    OwnedBy s p P := by
  have hholds : ∀ slot, s.holds P slot ↔ (s P).isSome ∧ slot ∈ final G N P := by
    intro slot
    cases hP : s P with
    | none => simp [not_holds_of_none hP]
    | some pr =>
      have hloop : s.inLoop P := by
        rcases h.known P (by rw [hP]; rfl) with rfl | hchild
        · exact hmain
        · exact hchildren P hchild
      simpa using h.holds_inLoop hloop
  have hdispatcher : (s .dispatcher).isSome := by
    obtain ⟨pr, hpr, _⟩ := hchildren .dispatcher List.mem_cons_self
    rw [hpr]
    rfl
  have hconsumer : (s (.consumer p)).isSome := by
    obtain ⟨pr, hpr, _⟩ := hchildren (.consumer p) (consumer_mem_children hp)
    rw [hpr]
    rfl
  cases P with
  | main => constructor <;> simp [hholds, final]
  | dispatcher => constructor <;> simp [hholds, final, hdispatcher, hp]
  | consumer q =>
    by_cases hq : q = p
    · subst hq
      constructor <;> simp [hholds, final, hconsumer]
    · constructor <;> simp [hholds, final, hq, Ne.symm hq]

theorem Inv.no_writer {s : System} (h : Inv G N s) {pr : Proc} (hmain : s .main = some pr)
    (hexited : pr.phase = .exited) (hdispatcher : s .dispatcher = none)
    (hconsumers : ∀ q, (s (.consumer q)).isSome → s.started (.consumer q)) (p : Nat × Nat)
    (P : ProcId) : ¬ s.holds P ⟨p, .dispatcher_to_consumer, .write⟩ := by
  intro hholds
  cases P with
  | main =>
    obtain ⟨pr', fd, hpr', hend⟩ := hholds
    obtain rfl := Option.some.inj (hmain.symm.trans hpr')
    have hpr := h.procs .main pr hmain
    unfold ProcInv at hpr
    rw [hexited] at hpr
    rw [hpr fd] at hend
    cases hend
  | dispatcher => exact not_holds_of_none hdispatcher hholds
  | consumer q =>
    obtain ⟨pr', _, hpr', _⟩ := id hholds
    have hfinal := h.final_of_holds (hconsumers q (by rw [hpr']; rfl)) hholds
    simp [final] at hfinal

theorem inv_run {opened : Nat → Bool} {ls : List Label} {s : System}
    (hrun : exec (System.step G N) ls (.start G N opened) = some s) : Inv G N s :=
  exec_invariant (fun _ _ _ h hstep => h.step hstep) (start_inv G N opened) hrun

theorem pipes_owned {opened : Nat → Bool} {ls : List Label} {s : System}
    (hrun : exec (System.step G N) ls (.start G N opened) = some s) : PipesOwned G N s := by
  have h := inv_run hrun
  constructor
  · rintro ⟨pr, hmain, hphase⟩ P hP
    exact (h.forked pr [] hmain hphase P hP).resolve_right (List.not_mem_nil)
  · exact fun hmain hchildren p hp P => h.ownedBy hmain hchildren hp P
  · exact fun P pr slot hP hcloses => h.closes_own hP hcloses
  · exact fun q hstarted slot hne hholds =>
      hne (pair_of_mem_final (h.final_of_holds hstarted hholds))
  · rintro ⟨pr, hmain, hexited⟩ hdispatcher hconsumers p P
    exact h.no_writer hmain hexited hdispatcher hconsumers p P

/-- Two groups of two consumers: each consumer starts closing while `main` goes on forking. -/
def sampleStart : List Label :=
  let steps := fun P n => List.replicate n (Label.run P ⟨true, 0, 0⟩)
  (List.range 8).map (fun n => .run .main ⟨true, 3 + 2 * n, 4 + 2 * n⟩) ++
    (pairs 2 2).flatMap (fun p => steps .main 3 ++ steps (.consumer p) 5) ++ steps .main 9 ++
    (pairs 2 2).flatMap (fun p => steps (.consumer p) 9) ++ steps .main 8

theorem pipes_owned_sample : ∃ s, exec (System.step 2 2) sampleStart (.start 2 2 (· < 3)) = some s ∧
    s.inLoop .main ∧ (∀ P ∈ children 2 2, s.inLoop P) ∧ PipesOwned 2 2 s := by
  have hloops : (exec (System.step 2 2) sampleStart (.start 2 2 (· < 3))).map (fun s =>
      (.main :: children 2 2).all fun P => (s P).any Proc.isLooping) = some true := by
    decide +kernel
  obtain ⟨s, hrun, hall⟩ := Option.map_eq_some_iff.mp hloops
  have hloop : ∀ P ∈ .main :: children 2 2, s.inLoop P := by
    intro P hP
    obtain ⟨pr, hpr, hlooping⟩ := (Option.any_eq_true _ _).mp (List.all_eq_true.mp hall P hP)
    refine ⟨pr, hpr, ?_⟩
    unfold Proc.isLooping at hlooping
    split at hlooping
    · assumption
    · cases hlooping
  exact ⟨s, hrun, hloop _ List.mem_cons_self, fun P hP => hloop P (List.mem_cons_of_mem _ hP),
    pipes_owned hrun⟩

end Naarad.Pipes
