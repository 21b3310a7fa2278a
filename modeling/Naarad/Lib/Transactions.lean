import Naarad.Lib.LabelledRun

/-!
# Transactions that meet in one action

Processes with a state of their own each, and one state in common. A transaction is a list of actions
of which at most one touches the common state. However the actions of the processes interleave, the
transactions take effect one after the other: each at its action on the common state, or on entry
when it has none.
-/

set_option autoImplicit false

namespace Transactions

open LabelledRun
open Function (update)

universe u v w x
variable {ι : Type u} {κ : Type v} {S : Type w} {P : Type x}

inductive Action (S : Type w) (P : Type x) where
  | own (f : P → P)
  | shared (f : S → P → S × P)

def Action.isShared : Action S P → Bool
  | .own _ => false
  | .shared _ => true

def Action.run : Action S P → S × P → S × P
  | .own f, (s, p) => (s, f p)
  | .shared f, (s, p) => f s p

def runAll (as : List (Action S P)) (sp : S × P) : S × P := as.foldl (fun sp a => a.run sp) sp

structure Transaction (S : Type w) (P : Type x) where
  actions : List (Action S P)
  one_shared : actions.countP Action.isShared ≤ 1

def Private (as : List (Action S P)) : Prop := ∀ a ∈ as, a.isShared = false

/-- What private actions make of the state of their process; the shared ones are passed over. -/
def runOwn : List (Action S P) → P → P
  | [], p => p
  | .own f :: as, p => runOwn as (f p)
  | .shared _ :: as, p => runOwn as p

theorem runAll_append (as bs : List (Action S P)) (sp : S × P) :
    runAll (as ++ bs) sp = runAll bs (runAll as sp) := List.foldl_append

theorem runOwn_append (as bs : List (Action S P)) (p : P) :
    runOwn (as ++ bs) p = runOwn bs (runOwn as p) := by
  induction as generalizing p with
  | nil => rfl
  | cons a as ih =>
    cases a with
    | own f => exact ih (f p)
    | shared f => exact ih p

theorem Private.runAll {as : List (Action S P)} (h : Private as) (s : S) (p : P) :
    runAll as (s, p) = (s, runOwn as p) := by
  induction as generalizing p with
  | nil => rfl
  | cons a as ih =>
    obtain ⟨ha, has⟩ := List.forall_mem_cons.mp h
    cases a with
    | own f => exact ih has (f p)
    | shared f => cases ha

theorem private_iff_countP {as : List (Action S P)} : Private as ↔ as.countP Action.isShared = 0 := by
  simp only [Private, List.countP_eq_zero, Bool.not_eq_true]

/-- Behind the shared action of a transaction there is no other. -/
theorem Transaction.private_of_shared (t : Transaction S P) {done rest : List (Action S P)}
    {f : S → P → S × P} (h : t.actions = done ++ .shared f :: rest) : Private rest := by
  have hone := t.one_shared
  rw [h, List.countP_append, List.countP_cons] at hone
  rw [private_iff_countP]
  have hshared : (Action.shared f).isShared = true := rfl
  rw [if_pos hshared] at hone
  omega

structure Sys (ι : Type u) (κ : Type v) (S : Type w) (P : Type x) where
  common : S
  own : ι → P
  current : ι → Option κ
  rest : ι → List (Action S P)

inductive Label (ι : Type u) (κ : Type v) where
  | enter (k : κ)
  | act (i : ι)

/-- The transactions that are entered in a run. -/
def entered (ls : List (Label ι κ)) : List κ :=
  ls.filterMap fun l =>
    match l with
    | .enter k => some k
    | .act _ => none

variable [DecidableEq ι] (site : κ → ι) (body : κ → Transaction S P)

def step : Label ι κ → Sys ι κ S P → Option (Sys ι κ S P)
  | .enter k, s =>
    match s.rest (site k) with
    | [] => some { s with
        current := update s.current (site k) (some k)
        rest := update s.rest (site k) (body k).actions }
    | _ :: _ => none
  | .act i, s =>
    match s.rest i with
    | [] => none
    | a :: as =>
      let sp := a.run (s.common, s.own i)
      some { s with common := sp.1, own := update s.own i sp.2, rest := update s.rest i as }

/-- The transaction that takes effect in a step, if one does. -/
def effects : Label ι κ → Sys ι κ S P → List κ
  | .enter k, _ => if (body k).actions.any Action.isShared then [] else [k]
  | .act i, s =>
    match s.rest i with
    | .shared _ :: _ => (s.current i).toList
    | _ => []

/-- Whole transactions, one after the other. -/
def serial (ks : List κ) (start : S × (ι → P)) : S × (ι → P) :=
  ks.foldl (fun sp k =>
    let y := runAll (body k).actions (sp.1, sp.2 (site k))
    (y.1, update sp.2 (site k) y.2)) start

/-- Where a process stands, over the state `Q` that the transactions in `order` have left it. -/
inductive Progress (Q : ι → P) (ks order : List κ) (s : Sys ι κ S P) (i : ι) : Prop where
  | after (hprivate : Private (s.rest i)) (hown : runOwn (s.rest i) (s.own i) = Q i)
      (hentered : ks.filter (site · = i) = order.filter (site · = i))
  | before (k : κ) (done : List (Action S P)) (hcurrent : s.current i = some k) (hsite : site k = i)
      (hbody : (body k).actions = done ++ s.rest i) (hdone : Private done)
      (hrest : ¬ Private (s.rest i)) (hown : s.own i = runOwn done (Q i))
      (hentered : ks.filter (site · = i) = order.filter (site · = i) ++ [k])

structure Serialized (start : S × (ι → P)) (ks order : List κ) (s : Sys ι κ S P) : Prop where
  common : s.common = (serial site body order start).1
  progress : ∀ i, Progress site body (serial site body order start).2 ks order s i

theorem serial_concat (order : List κ) (k : κ) (start : S × (ι → P)) :
    serial site body (order ++ [k]) start =
      ((runAll (body k).actions ((serial site body order start).1,
          (serial site body order start).2 (site k))).1,
        update (serial site body order start).2 (site k)
          (runAll (body k).actions ((serial site body order start).1,
            (serial site body order start).2 (site k))).2) := by
  rw [serial, List.foldl_append]
  rfl

variable {site body} {start : S × (ι → P)} {Q Q' : ι → P} {ks ks' order order' : List κ}
  {s t : Sys ι κ S P} {i j : ι} {k : κ}

theorem step_enter (hrest : s.rest (site k) = []) : step site body (.enter k) s =
    some { s with
      current := update s.current (site k) (some k)
      rest := update s.rest (site k) (body k).actions } := by
  simp only [step, hrest]

theorem step_act {a : Action S P} {as : List (Action S P)} (hrest : s.rest i = a :: as) :
    step site body (.act i) s =
      some { s with
        common := (a.run (s.common, s.own i)).1
        own := update s.own i (a.run (s.common, s.own i)).2
        rest := update s.rest i as } := by
  simp only [step, hrest]

/-- Only process `i` takes a step. -/
structure Moves (i : ι) (s t : Sys ι κ S P) : Prop where
  own : ∀ j, j ≠ i → t.own j = s.own j
  current : ∀ j, j ≠ i → t.current j = s.current j
  rest : ∀ j, j ≠ i → t.rest j = s.rest j

/-- What another process does leaves this one where it stands. -/
theorem Progress.frame (h : Progress site body Q ks order s i) (hmoves : Moves j s t) (hi : i ≠ j)
    (hQ : Q' i = Q i) (hks : ks'.filter (site · = i) = ks.filter (site · = i))
    (horder : order'.filter (site · = i) = order.filter (site · = i)) :
    Progress site body Q' ks' order' t i := by
  have hrest := hmoves.rest i hi
  cases h with
  | after hprivate hown hentered =>
    refine .after (hrest ▸ hprivate) ?_ ?_
    · rw [hrest, hmoves.own i hi, hQ, hown]
    · rw [hks, horder, hentered]
  | before k done hcurrent hsite hbody hdone hshared hown hentered =>
    refine .before k done ((hmoves.current i hi).trans hcurrent) hsite (hrest ▸ hbody) hdone
      (hrest ▸ hshared) ?_ ?_
    · rw [hmoves.own i hi, hQ, hown]
    · rw [hks, horder, hentered]

theorem filter_concat_self (ks : List κ) (hsite : site k = i) :
    (ks ++ [k]).filter (site · = i) = ks.filter (site · = i) ++ [k] := by
  rw [List.filter_append, List.filter_cons_of_pos (by simpa using hsite), List.filter_nil]

theorem filter_concat_of_ne (ks : List κ) (hsite : site k ≠ i) :
    (ks ++ [k]).filter (site · = i) = ks.filter (site · = i) := by
  rw [List.filter_append, List.filter_cons_of_neg (by simpa using hsite), List.filter_nil,
    List.append_nil]

/-- Between transactions a process has what the whole ones have left it. -/
theorem Progress.idle (h : Progress site body Q ks order s i) (hrest : s.rest i = []) :
    s.own i = Q i ∧ ks.filter (site · = i) = order.filter (site · = i) := by
  cases h with
  | after hprivate hown hentered =>
    rw [hrest] at hown
    exact ⟨hown, hentered⟩
  | before k done hcurrent hsite hbody hdone hshared hown hentered =>
    rw [hrest] at hshared
    exact absurd (fun a ha => absurd ha List.not_mem_nil) hshared

theorem private_of_any {as : List (Action S P)} (h : ¬ as.any Action.isShared = true) :
    Private as := by
  rw [Bool.not_eq_true, List.any_eq_false] at h
  exact fun a ha => Bool.eq_false_iff.mpr (h a ha)

theorem not_private_of_any {as : List (Action S P)} (h : as.any Action.isShared = true) :
    ¬ Private as := by
  obtain ⟨a, ha, hshared⟩ := List.any_eq_true.mp h
  exact fun hprivate => Bool.eq_false_iff.mp (hprivate a ha) hshared

/-- A step of process `i` in which no transaction takes effect. -/
theorem Serialized.keep (h : Serialized site body start ks order s) (hmoves : Moves i s t)
    (hcommon : t.common = s.common)
    (hks : ∀ j, j ≠ i → ks'.filter (site · = j) = ks.filter (site · = j))
    (hi : Progress site body (serial site body order start).2 ks' order t i) :
    Serialized site body start ks' order t := by
  refine ⟨hcommon.trans h.common, ?_⟩
  intro j
  by_cases hj : j = i
  · subst hj
    exact hi
  · exact (h.progress j).frame hmoves hj rfl (hks j hj) rfl

/-- A step in which `k` takes effect. -/
theorem Serialized.commit (h : Serialized site body start ks order s) (hmoves : Moves (site k) s t)
    {s' : S} {p : P} (hrun : runAll (body k).actions ((serial site body order start).1,
      (serial site body order start).2 (site k)) = (s', p)) (hcommon : t.common = s')
    (hks : ∀ j, j ≠ site k → ks'.filter (site · = j) = ks.filter (site · = j))
    (hprivate : Private (t.rest (site k))) (hown : runOwn (t.rest (site k)) (t.own (site k)) = p)
    (hentered : ks'.filter (site · = site k) = order.filter (site · = site k) ++ [k]) :
    Serialized site body start ks' (order ++ [k]) t := by
  have hserial := serial_concat site body order k start
  rw [hrun] at hserial
  refine ⟨?_, ?_⟩
  · rw [hserial, hcommon]
  · intro j
    rw [hserial]
    by_cases hj : j = site k
    · subst hj
      refine .after hprivate ?_ ?_
      · dsimp only
        rw [Function.update_self, hown]
      · rw [filter_concat_self order rfl, hentered]
    · exact (h.progress j).frame hmoves hj (Function.update_of_ne hj ..) (hks j hj)
        (filter_concat_of_ne order (Ne.symm hj))

theorem Serialized.enter (h : Serialized site body start ks order s) (k : κ)
    (hidle : s.rest (site k) = []) :
    Serialized site body start (ks ++ [k]) (order ++ effects body (.enter k) s)
      { s with
        current := update s.current (site k) (some k)
        rest := update s.rest (site k) (body k).actions } := by
  obtain ⟨hown, hentered⟩ := (h.progress (site k)).idle hidle
  have hmoves : Moves (site k) s { s with
      current := update s.current (site k) (some k)
      rest := update s.rest (site k) (body k).actions } :=
    ⟨fun _ _ => rfl, fun _ hj => Function.update_of_ne hj .., fun _ hj => Function.update_of_ne hj ..⟩
  have hks (j : ι) (hj : j ≠ site k) : (ks ++ [k]).filter (site · = j) = ks.filter (site · = j) :=
    filter_concat_of_ne ks (Ne.symm hj)
  have hlast : (ks ++ [k]).filter (site · = site k) = order.filter (site · = site k) ++ [k] := by
    rw [filter_concat_self ks rfl, hentered]
  unfold effects
  dsimp only
  by_cases hshared : (body k).actions.any Action.isShared
  · rw [if_pos hshared, List.append_nil]
    refine h.keep hmoves rfl hks ?_
    refine .before k [] (Function.update_self ..) rfl ?_ (fun a ha => absurd ha List.not_mem_nil) ?_
      hown hlast
    · dsimp only
      rw [Function.update_self]
      rfl
    · dsimp only
      rw [Function.update_self]
      exact not_private_of_any hshared
  · have hprivate := private_of_any hshared
    rw [if_neg hshared]
    refine h.commit hmoves (hprivate.runAll _ _) h.common hks ?_ ?_ hlast
    · dsimp only
      rw [Function.update_self]
      exact hprivate
    · dsimp only
      rw [Function.update_self, hown]

theorem moves_act (s : Sys ι κ S P) (i : ι) (common : S) (p : P) (as : List (Action S P)) :
    Moves i s { s with
      common := common, own := update s.own i p, rest := update s.rest i as } :=
  ⟨fun _ hj => Function.update_of_ne hj .., fun _ _ => rfl, fun _ hj => Function.update_of_ne hj ..⟩

theorem Serialized.own (h : Serialized site body start ks order s) {f : P → P}
    {as : List (Action S P)} (hrest : s.rest i = .own f :: as) :
    Serialized site body start ks order
      { s with own := update s.own i (f (s.own i)), rest := update s.rest i as } := by
  refine h.keep (moves_act s i s.common _ as) rfl (fun _ _ => rfl) ?_
  cases h.progress i with
  | after hprivate hown hentered =>
    rw [hrest] at hprivate hown
    refine .after ?_ ?_ hentered
    · dsimp only
      rw [Function.update_self]
      exact (List.forall_mem_cons.mp hprivate).2
    · dsimp only
      rw [Function.update_self, Function.update_self]
      exact hown
  | before k done hcurrent hsite hbody hdone hshared hown hentered =>
    rw [hrest] at hbody hshared
    refine .before k (done ++ [.own f]) hcurrent hsite ?_ ?_ ?_ ?_ hentered
    · dsimp only
      rw [Function.update_self, hbody, List.append_assoc]
      rfl
    · intro a ha
      rcases List.mem_append.mp ha with ha | ha
      · exact hdone a ha
      · rw [List.mem_singleton.mp ha]
        rfl
    · dsimp only
      rw [Function.update_self]
      exact fun hprivate => hshared (List.forall_mem_cons.mpr ⟨rfl, hprivate⟩)
    · dsimp only
      rw [Function.update_self, runOwn_append, hown]
      rfl

omit [DecidableEq ι] in
theorem effects_own {f : P → P} {as : List (Action S P)} (hrest : s.rest i = .own f :: as) :
    effects body (.act i) s = [] := by
  simp only [effects, hrest]

omit [DecidableEq ι] in
theorem effects_shared {f : S → P → S × P} {as : List (Action S P)}
    (hrest : s.rest i = .shared f :: as) : effects body (.act i) s = (s.current i).toList := by
  simp only [effects, hrest]

/-- At its shared action the whole transaction takes effect: what it did before it has kept to
itself, and what it will still do is settled. -/
theorem Serialized.shared (h : Serialized site body start ks order s) {f : S → P → S × P}
    {as : List (Action S P)} (hrest : s.rest i = .shared f :: as) :
    Serialized site body start ks (order ++ effects body (.act i) s)
      { s with
        common := (f s.common (s.own i)).1
        own := update s.own i (f s.common (s.own i)).2
        rest := update s.rest i as } := by
  cases h.progress i with
  | after hprivate hown hentered =>
    rw [hrest] at hprivate
    cases hprivate _ List.mem_cons_self
  | before k done hcurrent hsite hbody hdone hshared hown hentered =>
    subst hsite
    rw [hrest] at hbody
    have heffects : effects body (.act (site k)) s = [k] := by
      rw [effects_shared hrest, hcurrent]
      rfl
    have hprivate := (body k).private_of_shared hbody
    have hrun : runAll (body k).actions ((serial site body order start).1,
        (serial site body order start).2 (site k)) =
          ((f s.common (s.own (site k))).1, runOwn as (f s.common (s.own (site k))).2) := by
      rw [hbody, runAll_append, hdone.runAll, ← hown, ← h.common]
      exact hprivate.runAll _ _
    rw [heffects]
    refine h.commit (moves_act ..) hrun rfl (fun _ _ => rfl) ?_ ?_ hentered
    · dsimp only
      rw [Function.update_self]
      exact hprivate
    · dsimp only
      rw [Function.update_self, Function.update_self]

theorem Serialized.step {l : Label ι κ} (h : Serialized site body start ks order s)
    (hstep : step site body l s = some t) :
    Serialized site body start (ks ++ entered [l]) (order ++ effects body l s) t := by
  cases l with
  | enter k =>
    cases hrest : s.rest (site k) with
    | nil =>
      rw [step_enter hrest] at hstep
      cases hstep
      exact h.enter k hrest
    | cons a as => simp [Transactions.step, hrest] at hstep
  | act i =>
    have hks : ks ++ entered [(.act i : Label ι κ)] = ks := List.append_nil ks
    rw [hks]
    cases hrest : s.rest i with
    | nil => simp [Transactions.step, hrest] at hstep
    | cons a as =>
      rw [step_act hrest] at hstep
      cases hstep
      cases a with
      | own f =>
        rw [effects_own hrest, List.append_nil]
        exact h.own hrest
      | shared f => exact h.shared hrest

/-- However the actions interleave, at every moment the common state is the one that whole
transactions have left, in the order in which they took effect; a process between transactions has
the state of that order too. -/
theorem serializable {ls : List (Label ι κ)} {s₀ s : Sys ι κ S P} (hidle : ∀ i, s₀.rest i = [])
    (hrun : exec (step site body) ls s₀ = some s) :
    Serialized site body (s₀.common, s₀.own) (entered ls)
      (outputs (step site body) (effects body) ls s₀) s := by
  apply exec_history (P := fun ls s => Serialized site body (s₀.common, s₀.own) (entered ls)
    (outputs (step site body) (effects body) ls s₀) s) _ _ hrun
  · refine ⟨rfl, ?_⟩
    intro i
    refine .after ?_ ?_ rfl
    · rw [hidle]
      exact fun a ha => absurd ha List.not_mem_nil
    · rw [hidle]
      rfl
  · intro ks l s t hks hserial hstep
    rw [outputs_concat hks, entered, List.filterMap_append]
    exact hserial.step hstep

end Transactions
