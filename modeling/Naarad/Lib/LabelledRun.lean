import Mathlib.Algebra.GroupWithZero.Nat
import Mathlib.Logic.Function.Basic

/-!
# Runs of a partial labelled step function

`step l s` is the state after the step labelled `l`, or nothing when that step is not possible in
`s`. A run is a list of labels; `Along` states a condition on every step that a run takes.
-/

set_option autoImplicit false

namespace LabelledRun

universe u v
variable {ι : Type u} {σ : Type v} {step : ι → σ → Option σ}

def exec (step : ι → σ → Option σ) : List ι → σ → Option σ
  | [], s => some s
  | l :: ls, s => (step l s).bind (exec step ls)

@[simp] theorem exec_nil (s : σ) : exec step [] s = some s := rfl

theorem exec_cons {l : ι} {ls : List ι} {s s' : σ} :
    exec step (l :: ls) s = some s' ↔ ∃ t, step l s = some t ∧ exec step ls t = some s' :=
  Option.bind_eq_some_iff

theorem exec_append (ks ls : List ι) (s : σ) :
    exec step (ks ++ ls) s = (exec step ks s).bind (exec step ls) := by
  induction ks generalizing s with
  | nil => rfl
  | cons k ks ih =>
    simp only [List.cons_append, exec, Option.bind_assoc]
    exact congrArg _ (funext ih)

theorem exec_append_some {ks ls : List ι} {s s' : σ} :
    exec step (ks ++ ls) s = some s' ↔
      ∃ t, exec step ks s = some t ∧ exec step ls t = some s' := by
  rw [exec_append, Option.bind_eq_some_iff]

/-- `ok l s` holds at every step `l` of the run, in the state `s` before that step. -/
def Along (step : ι → σ → Option σ) (ok : ι → σ → Prop) : List ι → σ → Prop
  | [], _ => True
  | l :: ls, s => ok l s ∧ match step l s with
    | some t => Along step ok ls t
    | none => True

instance decidableAlong {ok : ι → σ → Prop} [∀ l s, Decidable (ok l s)] :
    ∀ ls s, Decidable (Along step ok ls s)
  | [], _ => .isTrue trivial
  | l :: ls, s =>
    have : Decidable (match step l s with
        | some t => Along step ok ls t
        | none => True) :=
      match step l s with
      | some t => decidableAlong ls t
      | none => .isTrue trivial
    inferInstanceAs (Decidable (_ ∧ _))

theorem Along.tail {ok : ι → σ → Prop} {l : ι} {ls : List ι} {s t : σ}
    (h : Along step ok (l :: ls) s) (ht : step l s = some t) : Along step ok ls t := by
  have hrest := h.2
  rw [ht] at hrest
  exact hrest

/-- The induction over a run: what every permitted step keeps, the whole run keeps. -/
theorem exec_induct {ok : ι → σ → Prop} {P : σ → Prop}
    (hstep : ∀ l s t, P s → ok l s → step l s = some t → P t)
    {ls : List ι} {s s' : σ} (hs : P s) (hok : Along step ok ls s)
    (hrun : exec step ls s = some s') : P s' := by
  induction ls generalizing s with
  | nil => exact Option.some.inj hrun ▸ hs
  | cons l ls ih =>
    obtain ⟨t, ht, hrest⟩ := exec_cons.mp hrun
    exact ih (hstep l s t hs hok.1 ht) (hok.tail ht) hrest

/-- `P` is the invariant behind `Q`: a permitted step keeps it, and any other step breaks `Q`. Then
every state that the run reaches has `Q` if and only if every step of it is permitted. -/
theorem along_iff_reached_of_inv {ok : ι → σ → Prop} {P Q : σ → Prop}
    (hkeep : ∀ l s t, P s → ok l s → step l s = some t → P t)
    (hbreak : ∀ l s t, P s → ¬ ok l s → step l s = some t → ¬ Q t) (hQ : ∀ s, P s → Q s)
    {ls : List ι} {s s' : σ} (hs : P s) (hrun : exec step ls s = some s') :
    Along step ok ls s ↔ ∀ ks ms t, ls = ks ++ ms → exec step ks s = some t → Q t := by
  induction ls generalizing s with
  | nil =>
    refine ⟨?_, fun _ => trivial⟩
    rintro - ks ms t hsplit hks
    obtain ⟨rfl, -⟩ := List.append_eq_nil_iff.mp hsplit.symm
    exact hQ t (Option.some.inj hks ▸ hs)
  | cons l ls ih =>
    obtain ⟨t, ht, hrest⟩ := exec_cons.mp hrun
    constructor
    · intro hok ks ms t' hsplit hks
      cases ks with
      | nil => exact hQ t' (Option.some.inj hks ▸ hs)
      | cons k ks =>
        obtain ⟨rfl, htail⟩ := List.cons.inj hsplit
        obtain ⟨t₁, ht₁, hks⟩ := exec_cons.mp hks
        cases ht.symm.trans ht₁
        have hPt := hkeep l s t hs hok.1 ht
        exact (ih hPt hrest).mp (hok.tail ht) ks ms t' htail hks
    · intro hall
      have hok : ok l s := by
        by_contra hok
        exact hbreak l s t hs hok ht (hall [l] ls t rfl (exec_cons.mpr ⟨t, ht, rfl⟩))
      refine ⟨hok, ?_⟩
      rw [ht]
      refine (ih (hkeep l s t hs hok ht) hrest).mpr ?_
      intro ks ms t' hsplit hks
      exact hall (l :: ks) ms t' (congrArg _ hsplit) (exec_cons.mpr ⟨t, ht, hks⟩)

/-- As above, where `ok` says exactly when a step keeps `P`. -/
theorem along_iff_reached {ok : ι → σ → Prop} {P : σ → Prop}
    (hstep : ∀ l s t, P s → step l s = some t → (P t ↔ ok l s))
    {ls : List ι} {s s' : σ} (hs : P s) (hrun : exec step ls s = some s') :
    Along step ok ls s ↔ ∀ ks ms t, ls = ks ++ ms → exec step ks s = some t → P t :=
  along_iff_reached_of_inv (fun l s t hP hok ht => (hstep l s t hP ht).mpr hok)
    (fun l s t hP hok ht hPt => hok ((hstep l s t hP ht).mp hPt)) (fun _ hP => hP) hs hrun

theorem along_of_forall {ok : ι → σ → Prop} {ls : List ι} (h : ∀ l ∈ ls, ∀ s, ok l s) (s : σ) :
    Along step ok ls s := by
  induction ls generalizing s with
  | nil => trivial
  | cons l ls ih =>
    refine ⟨h l List.mem_cons_self s, ?_⟩
    split
    · exact ih (fun k hk => h k (List.mem_cons_of_mem _ hk)) _
    · trivial

theorem along_true (ls : List ι) (s : σ) : Along step (fun _ _ => True) ls s :=
  along_of_forall (fun _ _ _ => trivial) s

theorem exec_invariant {P : σ → Prop} (hstep : ∀ l s t, P s → step l s = some t → P t)
    {ls : List ι} {s s' : σ} (hs : P s) (hrun : exec step ls s = some s') : P s' :=
  exec_induct (fun l s t h _ => hstep l s t h) hs (along_true ls s) hrun

/-- The induction over a run where the invariant speaks of the steps so far. -/
theorem exec_history {P : List ι → σ → Prop} {s₀ : σ} (hstart : P [] s₀)
    (hstep : ∀ ks l s t, exec step ks s₀ = some s → P ks s → step l s = some t → P (ks ++ [l]) t)
    {ls : List ι} {s' : σ} (hrun : exec step ls s₀ = some s') : P ls s' := by
  suffices hfrom : ∀ ks s, exec step ks s₀ = some s → P ks s → exec step ls s = some s' →
      P (ks ++ ls) s' from hfrom [] s₀ rfl hstart hrun
  clear hrun
  induction ls with
  | nil =>
    intro ks s _ hs hrun
    cases Option.some.inj hrun
    rw [List.append_nil]
    exact hs
  | cons l ls ih =>
    intro ks s hks hs hrun
    obtain ⟨t, ht, hrest⟩ := exec_cons.mp hrun
    have hks' : exec step (ks ++ [l]) s₀ = some t :=
      exec_append_some.mpr ⟨s, hks, exec_cons.mpr ⟨t, ht, rfl⟩⟩
    rw [List.append_cons]
    exact ih (ks ++ [l]) t hks' (hstep ks l s t hks hs ht) hrest

/-- A relation that every step keeps, up to several steps of the other side, relates whole runs. -/
theorem exec_simulated {κ : Type*} {τ : Type*} {step' : κ → τ → Option τ} {R : σ → τ → Prop}
    (hstep : ∀ l s s' t, R s t → step l s = some s' →
      ∃ ks t', exec step' ks t = some t' ∧ R s' t')
    {ls : List ι} {s s' : σ} {t : τ} (hR : R s t) (hrun : exec step ls s = some s') :
    ∃ ks t', exec step' ks t = some t' ∧ R s' t' := by
  induction ls generalizing s t with
  | nil => exact ⟨[], t, rfl, Option.some.inj hrun ▸ hR⟩
  | cons l ls ih =>
    obtain ⟨s₁, hs₁, hrest⟩ := exec_cons.mp hrun
    obtain ⟨ks, t₁, hks, hR₁⟩ := hstep l s s₁ t hR hs₁
    obtain ⟨ms, t', hms, hR'⟩ := ih hR₁ hrest
    exact ⟨ks ++ ms, t', exec_append_some.mpr ⟨t₁, hks, hms⟩, hR'⟩

section Lockstep
variable {κ : Type*} {τ : Type*} {μ : Type*} {step' : κ → τ → Option τ}

/-- The labels of another system, over a memory of what has been read so far. -/
def relabel (toLabel : μ → ι → κ) (next : μ → ι → μ) : μ → List ι → List κ
  | _, [] => []
  | m, l :: ls => toLabel m l :: relabel toLabel next (next m l) ls

theorem relabel_cons (toLabel : μ → ι → κ) (next : μ → ι → μ) (m : μ) (l : ι) (ls : List ι) :
    relabel toLabel next m (l :: ls) = toLabel m l :: relabel toLabel next (next m l) ls := rfl

theorem relabel_same (next : μ → ι → μ) (m : μ) (ls : List ι) :
    relabel (fun _ l => l) next m ls = ls := by
  induction ls generalizing m with
  | nil => rfl
  | cons l ls ih => rw [relabel_cons, ih]

theorem rel_map {α β γ δ : Type*} {R : α → β → Prop} {R' : γ → δ → Prop} {x : Option α}
    {y : Option β} {f : α → γ} {g : β → δ} (h : Option.Rel R x y)
    (hR : ∀ a b, R a b → R' (f a) (g b)) : Option.Rel R' (x.map f) (y.map g) := by
  cases h with
  | some hab => exact .some (hR _ _ hab)
  | none => exact .none

theorem exists_of_rel {α β : Type*} {R : α → β → Prop} {x : Option α} {b : β}
    (h : Option.Rel R x (some b)) : ∃ a, x = some a ∧ R a b := by
  cases h with
  | some hab => exact ⟨_, rfl, hab⟩

/-- Where each step is possible in both systems or in neither, and keeps them related, so is each
run. -/
theorem exec_lockstep {R : μ → σ → τ → Prop} {toLabel : μ → ι → κ} {next : μ → ι → μ}
    (hstep : ∀ m l s t, R m s t → Option.Rel (R (next m l)) (step l s) (step' (toLabel m l) t))
    (ls : List ι) {m : μ} {s : σ} {t : τ} (hR : R m s t) :
    Option.Rel (R (ls.foldl next m)) (exec step ls s)
      (exec step' (relabel toLabel next m ls) t) := by
  induction ls generalizing m s t with
  | nil => exact .some hR
  | cons l ls ih =>
    have hrel := hstep m l s t hR
    rw [relabel_cons]
    unfold exec
    generalize step l s = s₁ at hrel
    generalize step' (toLabel m l) t = t₁ at hrel
    cases hrel with
    | some hR₁ => exact ih hR₁
    | none => exact .none

end Lockstep

section Outputs
variable {α : Type*} {out : ι → σ → List α}

/-- What the steps of a run put out. -/
def outputs (step : ι → σ → Option σ) (out : ι → σ → List α) : List ι → σ → List α
  | [], _ => []
  | l :: ls, s => out l s ++ match step l s with
    | some t => outputs step out ls t
    | none => []

theorem outputs_cons {l : ι} {s t : σ} (ht : step l s = some t) (ls : List ι) :
    outputs step out (l :: ls) s = out l s ++ outputs step out ls t := by
  rw [outputs, ht]

theorem outputs_append {ks : List ι} {s t : σ} (hrun : exec step ks s = some t) (ls : List ι) :
    outputs step out (ks ++ ls) s = outputs step out ks s ++ outputs step out ls t := by
  induction ks generalizing s with
  | nil =>
    cases Option.some.inj hrun
    rfl
  | cons k ks ih =>
    obtain ⟨u, hu, hrest⟩ := exec_cons.mp hrun
    rw [List.cons_append, outputs_cons hu, outputs_cons hu, ih hrest, List.append_assoc]

theorem outputs_concat {ks : List ι} {s t : σ} (hrun : exec step ks s = some t) (l : ι) :
    outputs step out (ks ++ [l]) s = outputs step out ks s ++ out l t := by
  rw [outputs_append hrun, outputs]
  cases step l t <;> exact congrArg _ (List.append_nil _)

/-- A relation that every permitted step keeps, with the same outputs on both sides. -/
theorem outputs_simulated {κ τ : Type*} {step' : κ → τ → Option τ} {out' : κ → τ → List α}
    {toLabel : ι → κ} {ok : ι → σ → Prop} {R : σ → τ → Prop}
    (hstep : ∀ l s s' t, R s t → ok l s → step l s = some s' →
      ∃ t', step' (toLabel l) t = some t' ∧ R s' t' ∧ out l s = out' (toLabel l) t)
    {ls : List ι} {s s' : σ} {t : τ} (hR : R s t) (hok : Along step ok ls s)
    (hrun : exec step ls s = some s') :
    ∃ t', exec step' (ls.map toLabel) t = some t' ∧ R s' t' ∧
      outputs step out ls s = outputs step' out' (ls.map toLabel) t := by
  induction ls generalizing s t with
  | nil => exact ⟨t, rfl, Option.some.inj hrun ▸ hR, rfl⟩
  | cons l ls ih =>
    obtain ⟨s₁, hs₁, hrest⟩ := exec_cons.mp hrun
    obtain ⟨t₁, ht₁, hR₁, hout⟩ := hstep l s s₁ t hR hok.1 hs₁
    obtain ⟨t', ht', hR', houts⟩ := ih hR₁ (hok.tail hs₁) hrest
    refine ⟨t', exec_cons.mpr ⟨t₁, ht₁, ht'⟩, hR', ?_⟩
    rw [outputs_cons hs₁, List.map_cons, outputs_cons ht₁, hout, houts]

end Outputs

/-- Where the potential `μ` pays for every step that its label does not pay for itself, it and the
labels pay for the whole run. -/
theorem exec_amortised {ok : ι → σ → Prop} {P : σ → Prop} {μ : σ → Nat} {cost : ι → Nat}
    (hkeep : ∀ l s t, P s → ok l s → step l s = some t → P t)
    (hpay : ∀ l s t, P s → ok l s → step l s = some t → μ t + 1 ≤ μ s + cost l)
    {ls : List ι} {s s' : σ} (hs : P s) (hok : Along step ok ls s)
    (hrun : exec step ls s = some s') : ls.length + μ s' ≤ μ s + (ls.map cost).sum := by
  induction ls generalizing s with
  | nil =>
    cases Option.some.inj hrun
    exact Nat.le_of_eq (Nat.zero_add _)
  | cons l ls ih =>
    obtain ⟨t, ht, hrest⟩ := exec_cons.mp hrun
    have hstep := hpay l s t hs hok.1 ht
    have htail := ih (hkeep l s t hs hok.1 ht) (hok.tail ht) hrest
    rw [List.length_cons, List.map_cons, List.sum_cons]
    omega

/-- What every permitted step lowers bounds the length of a run. -/
theorem exec_length_le {ok : ι → σ → Prop} {μ : σ → Nat}
    (hlower : ∀ l s t, ok l s → step l s = some t → μ t < μ s)
    {ls : List ι} {s s' : σ} (hok : Along step ok ls s) (hrun : exec step ls s = some s') :
    ls.length + μ s' ≤ μ s := by
  have hpaid : ls.length + μ s' ≤ μ s + (ls.map fun _ => 0).sum :=
    exec_amortised (P := fun _ => True) (fun _ _ _ _ _ _ => trivial)
      (fun l s t _ hl ht => hlower l s t hl ht) trivial hok hrun
  rwa [List.map_const', List.sum_replicate_nat, Nat.mul_zero, Nat.add_zero] at hpaid

theorem along_cons {ok : ι → σ → Prop} {l : ι} {ls : List ι} {s t : σ} (hl : ok l s)
    (ht : step l s = some t) (hrest : Along step ok ls t) : Along step ok (l :: ls) s := by
  refine ⟨hl, ?_⟩
  rw [ht]
  exact hrest

/-- Permitted steps that lower a measure, and are possible as long as `Q` fails, lead to `Q`. -/
theorem exec_settles {ok : ι → σ → Prop} {P Q : σ → Prop} {μ : σ → Nat}
    (hlower : ∀ l s t, ok l s → step l s = some t → μ t < μ s)
    (hkeep : ∀ l s t, P s → ok l s → step l s = some t → P t)
    (hmoves : ∀ s, P s → Q s ∨ ∃ l t, ok l s ∧ step l s = some t) {s : σ} (hs : P s) :
    ∃ ls t, exec step ls s = some t ∧ Along step ok ls s ∧ Q t := by
  induction hm : μ s using Nat.strongRecOn generalizing s with
  | ind m ih =>
    rcases hmoves s hs with hQ | ⟨l, t, hl, ht⟩
    · exact ⟨[], s, rfl, trivial, hQ⟩
    · obtain ⟨ls, u, hrun, hok, hu⟩ := ih (μ t) (hm ▸ hlower l s t hl ht) (hkeep l s t hs hl ht) rfl
      exact ⟨l :: ls, u, exec_cons.mpr ⟨t, ht, hrun⟩, along_cons hl ht hok, hu⟩

end LabelledRun
