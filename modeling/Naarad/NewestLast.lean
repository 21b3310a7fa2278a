import Naarad.HandleEvent
import Naarad.Queue.Display

/-!
# The order of the displayed entries

Events are stamped and stored on the CPU that submits them; `perf_buffer__poll` takes the records
of one CPU's buffer at a time and hands them to `handle_event`. Within one CPU everything keeps the
order of the stamps, so only the order in which the buffers are drained decides about the entries.
-/

set_option autoImplicit false

namespace Naarad

open Queue LabelledRun BoundedFifo

/-- A message in the display queue, with its event and the CPU that submitted it. -/
structure Pushed where
  cpu : Nat
  event : data_t
  msg : Message

/-- `hand` are the records of the buffer of `cpu` that the current poll still has to handle, `stamp`
is the time of the newest event of each CPU, and `pushed` the history of the display queue. -/
structure Polling where
  buffers : Nat → List data_t
  stamp : Nat → UInt64
  cpu : Nat
  hand : List data_t
  mon : Monitor
  pushed : List Pushed

def Polling.start (mon : Monitor) : Polling := ⟨fun _ => [], fun _ => 0, 0, [], mon, []⟩

inductive PollStep where
  | submit (cpu : Nat) (e : data_t)
  | drain (cpu : Nat)
  | handle (env : Env)

/-- The clock of a CPU does not go back. A poll drains a buffer once it is done with the one
before. -/
def Polling.step : PollStep → Polling → Option Polling
  | .submit cpu e, s =>
    if s.stamp cpu ≤ e.timestamp then
      some { s with
        buffers := Function.update s.buffers cpu (s.buffers cpu ++ [e])
        stamp := Function.update s.stamp cpu e.timestamp }
    else none
  | .drain cpu, s =>
    match s.hand with
    | [] => some { s with
        buffers := Function.update s.buffers cpu []
        cpu := cpu
        hand := s.buffers cpu }
    | _ :: _ => none
  | .handle env, s =>
    match s.hand with
    | [] => none
    | e :: rest => (handle_event env e s.mon).map fun r => { s with
        hand := rest
        mon := r.1
        pushed := s.pushed ++ if r.2.pushed = .pushed true then [⟨s.cpu, e, r.2.msg⟩] else [] }

inductive Polling.Moves (s : Polling) : PollStep → Polling → Prop where
  | submit {cpu e} : s.stamp cpu ≤ e.timestamp → Moves s (.submit cpu e) { s with
      buffers := Function.update s.buffers cpu (s.buffers cpu ++ [e])
      stamp := Function.update s.stamp cpu e.timestamp }
  | drain {cpu} : s.hand = [] → Moves s (.drain cpu) { s with
      buffers := Function.update s.buffers cpu []
      cpu := cpu
      hand := s.buffers cpu }
  | handle {env e rest mon h} : s.hand = e :: rest → handle_event env e s.mon = some (mon, h) →
    Moves s (.handle env) { s with
      hand := rest
      mon := mon
      pushed := s.pushed ++ if h.pushed = .pushed true then [⟨s.cpu, e, h.msg⟩] else [] }

theorem Polling.moves_of_step {l : PollStep} {s s' : Polling} (hstep : s.step l = some s') :
    s.Moves l s' := by
  cases l with
  | submit cpu e =>
    obtain ⟨hclock, ⟨⟩⟩ := Option.ite_none_right_eq_some.mp hstep
    exact .submit hclock
  | drain cpu =>
    simp only [Polling.step] at hstep
    split at hstep
    · rename_i hhand
      cases hstep
      exact .drain hhand
    · cases hstep
  | handle env =>
    simp only [Polling.step] at hstep
    split at hstep
    · cases hstep
    · rename_i e rest hhand
      obtain ⟨⟨mon, h⟩, hrun, rfl⟩ := Option.map_eq_some_iff.mp hstep
      exact .handle hhand hrun

def Pushed.le (a b : Pushed) : Prop := a.event.timestamp ≤ b.event.timestamp

/-- The entries are those of the last events pushed, the newest last, and no event that was evicted
is newer than one that is shown. -/
structure NewestLast (s : Polling) : Prop where
  entries : ∀ slots, displayEntries (some slots) s.mon.dq =
    some (encode slots ((kept MAX_ENTRIES s.pushed).map Pushed.msg))
  order : KeepsNewest Pushed.le MAX_ENTRIES s.pushed

/-- What the polls have to respect: a push is not behind the push before it, if that came from
another CPU. -/
def InTurn (l : PollStep) (s : Polling) : Prop :=
  match l with
  | .handle env => ∀ e ∈ s.hand.head?, allocates env.push → ∀ p ∈ s.pushed.getLast?,
      p.cpu ≠ s.cpu → p.event.timestamp ≤ e.timestamp
  | _ => True

instance : ∀ l s, Decidable (InTurn l s)
  | .submit .., _ => inferInstanceAs (Decidable True)
  | .drain _, _ => inferInstanceAs (Decidable True)
  | .handle _, s => inferInstanceAs (Decidable (∀ _ ∈ s.hand.head?, _ → ∀ _ ∈ s.pushed.getLast?,
      _ → _ ≤ _))

def Polling.pending (s : Polling) (cpu : Nat) : List data_t :=
  (if s.cpu = cpu then s.hand else []) ++ s.buffers cpu

/-- All events of a CPU that are or will be in the display queue. -/
def Polling.line (s : Polling) (cpu : Nat) : List data_t :=
  (s.pushed.filter (·.cpu = cpu)).map Pushed.event ++ s.pending cpu

structure Stamped (s : Polling) (cpu : Nat) : Prop where
  sorted : (s.line cpu).Pairwise fun a b => a.timestamp ≤ b.timestamp
  newest : ∀ e ∈ s.line cpu, e.timestamp ≤ s.stamp cpu

structure PollInv (s : Polling) : Prop where
  map_eq : s.mon.map = .builtin
  queue : ∃ ns, Represents s.mon.dq ns (kept MAX_ENTRIES (s.pushed.map Pushed.msg))
  stamped : ∀ cpu, Stamped s cpu

theorem Stamped.sublist {s s' : Polling} {cpu : Nat} (h : Stamped s cpu)
    (hline : (s'.line cpu).Sublist (s.line cpu)) (hstamp : s'.stamp cpu = s.stamp cpu) :
    Stamped s' cpu where
  sorted := h.sorted.sublist hline
  newest := fun e he => hstamp ▸ h.newest e (hline.subset he)

theorem Polling.start_inv {mon : Monitor} (hinit : mon.Initialised) : PollInv (.start mon) where
  map_eq := hinit.map_builtin
  queue := by
    obtain ⟨c, hc⟩ := hinit.dq_eq
    exact initDequeue_represents hc
  stamped := fun cpu => by
    have hline : (Polling.start mon).line cpu = [] := by
      simp only [Polling.line, Polling.pending, Polling.start, List.append_nil]
      exact ite_self _
    constructor
    · rw [hline]
      exact .nil
    · rw [hline]
      intro e he
      cases he

theorem Stamped.submit {s : Polling} {c cpu : Nat} {e : data_t} (h : Stamped s cpu)
    (hclock : s.stamp c ≤ e.timestamp) : Stamped { s with
      buffers := Function.update s.buffers c (s.buffers c ++ [e])
      stamp := Function.update s.stamp c e.timestamp } cpu := by
  by_cases hcpu : cpu = c
  · subst hcpu
    have hline : ∀ stamp, Polling.line { s with
        buffers := Function.update s.buffers cpu (s.buffers cpu ++ [e]), stamp := stamp } cpu =
        s.line cpu ++ [e] := by
      intro stamp
      simp only [Polling.line, Polling.pending, Function.update_self, List.append_assoc]
    have hle : ∀ a ∈ s.line cpu, a.timestamp ≤ e.timestamp := fun a ha =>
      UInt64.le_trans (h.newest a ha) hclock
    constructor
    · rw [hline]
      apply List.pairwise_append.mpr
      refine ⟨h.sorted, List.pairwise_singleton _ _, ?_⟩
      intro a ha b hb
      rw [List.mem_singleton.mp hb]
      exact hle a ha
    · rw [hline]
      intro a ha
      simp only [Function.update_self]
      rcases List.mem_append.mp ha with ha | ha
      · exact hle a ha
      · rw [List.mem_singleton.mp ha]
        exact UInt64.le_refl _
  · refine h.sublist ?_ (Function.update_of_ne hcpu ..)
    simp only [Polling.line, Polling.pending, Function.update_of_ne hcpu]
    exact List.Sublist.refl _

theorem Stamped.drain {s : Polling} {c cpu : Nat} (h : Stamped s cpu) (hhand : s.hand = []) :
    Stamped { s with
      buffers := Function.update s.buffers c []
      cpu := c
      hand := s.buffers c } cpu := by
  refine h.sublist ?_ rfl
  simp only [Polling.line, Polling.pending, hhand, ite_self, List.nil_append]
  by_cases hcpu : c = cpu
  · subst hcpu
    rw [if_pos rfl, Function.update_self, List.append_nil]
  · rw [if_neg hcpu, Function.update_of_ne (Ne.symm hcpu), List.nil_append]

theorem Stamped.handle {s : Polling} {cpu : Nat} {e : data_t} {rest : List data_t} {mon : Monitor}
    {new : List Pushed} (h : Stamped s cpu) (hhand : s.hand = e :: rest)
    (hnew : new = [] ∨ ∃ msg, new = [⟨s.cpu, e, msg⟩]) :
    Stamped { s with hand := rest, mon := mon, pushed := s.pushed ++ new } cpu := by
  refine h.sublist ?_ rfl
  simp only [Polling.line, Polling.pending, hhand, List.filter_append, List.map_append,
    List.append_assoc]
  apply List.Sublist.append_left
  by_cases hcpu : s.cpu = cpu
  · rw [if_pos hcpu, if_pos hcpu]
    rcases hnew with rfl | ⟨msg, rfl⟩
    · exact List.sublist_cons_self _ _
    · simp [hcpu]
  · rw [if_neg hcpu, if_neg hcpu]
    rcases hnew with rfl | ⟨msg, rfl⟩
    · exact List.Sublist.refl _
    · simp [hcpu]

theorem kept_map {α β : Type} (f : α → β) (cap : Nat) (xs : List α) :
    kept cap (xs.map f) = (kept cap xs).map f := by
  rw [kept, kept, List.length_map, List.map_drop]

theorem PollInv.newestLast_iff {s : Polling} (h : PollInv s) :
    NewestLast s ↔ KeepsNewest Pushed.le MAX_ENTRIES s.pushed := by
  refine ⟨NewestLast.order, fun horder => ⟨fun slots => ?_, horder⟩⟩
  obtain ⟨ns, hrep⟩ := h.queue
  rw [hrep.holds.displayEntries, List.take_of_length_le hrep.bounded, kept_map]

/-- A handled event joins the history exactly when its push finds memory. -/
theorem PollInv.handled {s : Polling} {env : Env} {e : data_t} {rest : List data_t} {mon : Monitor}
    {h : Handled} (hs : PollInv s) (hhand : s.hand = e :: rest)
    (hrun : handle_event env e s.mon = some (mon, h)) :
    (h.pushed = .pushed true ↔ allocates env.push) ∧
    PollInv { s with
      hand := rest
      mon := mon
      pushed := s.pushed ++ if h.pushed = .pushed true then [⟨s.cpu, e, h.msg⟩] else [] } := by
  have hby := handle_event_spec hs.map_eq hrun
  obtain ⟨ns, hrep⟩ := hs.queue
  obtain ⟨⟨ns', hrep'⟩, hret⟩ := hrep.call hby.push_eq
  have hstamped : ∀ new, (new = [] ∨ ∃ msg, new = [⟨s.cpu, e, msg⟩]) → ∀ cpu,
      Stamped { s with hand := rest, mon := mon, pushed := s.pushed ++ new } cpu :=
    fun new hnew cpu => (hs.stamped cpu).handle hhand hnew
  cases halloc : allocates env.push with
  | false =>
    rw [halloc] at hret hrep'
    have hret : h.pushed = .pushed false := hret
    rw [hret, if_neg (by simp)]
    refine ⟨by simp, hby.map_eq.trans hs.map_eq, ⟨ns', ?_⟩, hstamped [] (Or.inl rfl)⟩
    rw [List.append_nil]
    exact hrep'
  | true =>
    rw [halloc] at hret hrep'
    have hret : h.pushed = .pushed true := hret
    rw [hret, if_pos rfl]
    refine ⟨by simp, hby.map_eq.trans hs.map_eq, ⟨ns', ?_⟩, hstamped _ (Or.inr ⟨h.msg, rfl⟩)⟩
    have hkept : push MAX_ENTRIES (kept MAX_ENTRIES (s.pushed.map Pushed.msg)) h.msg =
        kept MAX_ENTRIES (s.pushed.map Pushed.msg ++ [h.msg]) := push_last (by decide) _ _
    rw [List.map_append]
    exact hkept ▸ hrep'

theorem PollInv.step {l : PollStep} {s s' : Polling} (h : PollInv s) (hstep : s.step l = some s') :
    PollInv s' := by
  cases Polling.moves_of_step hstep with
  | submit hclock => exact ⟨h.map_eq, h.queue, fun c => (h.stamped c).submit hclock⟩
  | drain hhand => exact ⟨h.map_eq, h.queue, fun c => (h.stamped c).drain hhand⟩
  | handle hhand hrun => exact (h.handled hhand hrun).2

/-- Within one CPU the pushes are in turn anyway. -/
theorem PollInv.pushed_le {s : Polling} {e : data_t} {rest : List data_t} {p : Pushed}
    (h : PollInv s) (hhand : s.hand = e :: rest) (hp : p ∈ s.pushed) (hcpu : p.cpu = s.cpu) :
    p.event.timestamp ≤ e.timestamp := by
  have hsorted := (h.stamped s.cpu).sorted
  rw [Polling.line, Polling.pending, if_pos rfl, hhand] at hsorted
  apply (List.pairwise_append.mp hsorted).2.2
  · exact List.mem_map_of_mem (List.mem_filter.mpr ⟨hp, by simpa using hcpu⟩)
  · exact List.mem_cons_self

theorem PollInv.step_newest {l : PollStep} {s s' : Polling} (h : PollInv s)
    (hnewest : KeepsNewest Pushed.le MAX_ENTRIES s.pushed) (hstep : s.step l = some s') :
    KeepsNewest Pushed.le MAX_ENTRIES s'.pushed ↔ InTurn l s := by
  cases Polling.moves_of_step hstep with
  | submit => exact iff_of_true hnewest trivial
  | drain => exact iff_of_true hnewest trivial
  | @handle env e rest mon hd hhand hrun =>
    have halloc := (h.handled hhand hrun).1
    simp only [InTurn, hhand, List.head?_cons, Option.mem_some_iff, forall_eq']
    by_cases hpushed : hd.pushed = .pushed true
    · rw [if_pos hpushed, hnewest.snoc_iff (by decide), imp_iff_right (halloc.mp hpushed)]
      constructor
      · intro hle p hp _
        exact hle p (List.mem_of_getLast? hp)
      · intro hturn p hp
        rcases List.eq_nil_or_concat' s.pushed with hnil | ⟨xs, last, hlast⟩
        · rw [hnil] at hp
          cases hp
        · have hmem : last ∈ s.pushed := by simp [hlast]
          have hle : last.event.timestamp ≤ e.timestamp := by
            by_cases hcpu : last.cpu = s.cpu
            · exact h.pushed_le hhand hmem hcpu
            · exact hturn last (by simp [hlast]) hcpu
          have hrefl : ∀ a, Pushed.le a a := fun a => UInt64.le_refl _
          rw [hlast] at hnewest hp
          exact UInt64.le_trans (hnewest.le_last hrefl (by decide) p hp) hle
    · rw [if_neg hpushed, List.append_nil]
      exact iff_of_true hnewest fun h => absurd (halloc.mpr h) hpushed

/-- In every state of a run the display shows the newest events, the newest last, exactly when
no event is pushed behind a newer one of another CPU. -/
theorem newest_last {ls : List PollStep} {mon : Monitor} {s : Polling} (hinit : mon.Initialised)
    (hrun : exec Polling.step ls (.start mon) = some s) :
    (∀ pre post t, ls = pre ++ post → exec Polling.step pre (.start mon) = some t → NewestLast t) ↔
      Along Polling.step InTurn ls (.start mon) := by
  have hstart := Polling.start_inv hinit
  have hstep : ∀ l s s', PollInv s ∧ NewestLast s → s.step l = some s' →
      (PollInv s' ∧ NewestLast s' ↔ InTurn l s) := by
    rintro l s s' ⟨hs, hnewest⟩ h
    have hs' := hs.step h
    rw [hs'.newestLast_iff, and_iff_right hs']
    exact hs.step_newest hnewest.order h
  rw [along_iff_reached hstep ⟨hstart, hstart.newestLast_iff.mpr .nil⟩ hrun]
  constructor
  · intro hall pre post t hsplit hpre
    exact ⟨exec_invariant (fun _ _ _ hs h => hs.step h) hstart hpre, hall pre post t hsplit hpre⟩
  · intro hall pre post t hsplit hpre
    exact (hall pre post t hsplit hpre).2

/-- The poll has never left the buffer of `cpu`. -/
structure OneCpu (cpu : Nat) (s : Polling) : Prop where
  pushed : ∀ p ∈ s.pushed, p.cpu = cpu
  hand : s.hand ≠ [] → s.cpu = cpu

theorem OneCpu.inTurn {cpu : Nat} {s : Polling} (h : OneCpu cpu s) (l : PollStep) : InTurn l s := by
  cases l with
  | handle env =>
    intro e he _ p hp hne
    have hhand : s.hand ≠ [] := by
      rintro hnil
      rw [hnil] at he
      cases he
    exact absurd ((h.pushed p (List.mem_of_getLast? hp)).trans (h.hand hhand).symm) hne
  | _ => trivial

theorem OneCpu.step {cpu : Nat} {l : PollStep} {s s' : Polling} (h : OneCpu cpu s)
    (hl : ∀ c, l = .drain c → c = cpu) (hstep : s.step l = some s') : OneCpu cpu s' := by
  cases Polling.moves_of_step hstep with
  | submit => exact ⟨h.pushed, h.hand⟩
  | drain => exact ⟨h.pushed, fun _ => hl _ rfl⟩
  | handle hhand =>
    have hcpu : s.cpu = cpu := h.hand (by rw [hhand]; exact List.cons_ne_nil _ _)
    refine ⟨?_, fun _ => hcpu⟩
    intro p hp
    rcases List.mem_append.mp hp with hp | hp
    · exact h.pushed p hp
    · split at hp
      · rw [List.mem_singleton.mp hp]
        exact hcpu
      · cases hp

/-- With one CPU every run keeps the order. -/
theorem newestLast_of_one_cpu {ls : List PollStep} {mon : Monitor} {s : Polling} {cpu : Nat}
    (hinit : mon.Initialised) (hone : ∀ c, .drain c ∈ ls → c = cpu)
    (hrun : exec Polling.step ls (.start mon) = some s) : NewestLast s := by
  have hstart := Polling.start_inv hinit
  have hpermitted : Along Polling.step (fun l _ => ∀ c, l = .drain c → c = cpu) ls
      (.start mon) := by
    apply along_of_forall
    rintro l hl _ c rfl
    exact hone c hl
  have hcpu : OneCpu cpu (.start mon) := by
    refine ⟨fun p hp => ?_, fun hne => absurd rfl hne⟩
    cases hp
  have hs := exec_induct (P := fun s => PollInv s ∧ KeepsNewest Pushed.le MAX_ENTRIES s.pushed ∧
      OneCpu cpu s) (fun l s s' hs hl h => ⟨hs.1.step h,
        (hs.1.step_newest hs.2.1 h).mpr (hs.2.2.inTurn l), hs.2.2.step hl h⟩)
    ⟨hstart, .nil, hcpu⟩ hpermitted hrun
  exact hs.1.newestLast_iff.mpr hs.2.1

def sentAt (time : UInt64) : data_t := { data_t.zero with timestamp := time }

/-- The buffers of two CPUs are drained in the order of what is in them. -/
def sampleTurns : List PollStep :=
  [.submit 0 (sentAt 1), .submit 1 (sentAt 2), .drain 0, .handle (.quiet 1 fun _ => .sent),
    .drain 1, .submit 0 (sentAt 3), .handle (.quiet 2 fun _ => .sent), .drain 0,
    .handle (.quiet 3 fun _ => .sent)]

theorem newest_last_sample : ∃ s, exec Polling.step sampleTurns (.start (.fresh 0)) = some s ∧
    s.pushed.map (fun p => (p.cpu, p.event.timestamp)) = [(0, 1), (1, 2), (0, 3)] ∧
    Along Polling.step InTurn sampleTurns (.start (.fresh 0)) ∧
    ∀ pre post t, sampleTurns = pre ++ post →
      exec Polling.step pre (.start (.fresh 0)) = some t → NewestLast t := by
  have hturns : Along Polling.step InTurn sampleTurns (.start (.fresh 0)) := by decide +kernel
  exact ⟨_, rfl, rfl, hturns, (newest_last (Monitor.fresh_initialised 0)
    (show exec Polling.step sampleTurns _ = some _ from rfl)).mpr hturns⟩

/-- CPU 1 submits before CPU 0, and its buffer is drained later. -/
def sampleRace : List PollStep :=
  [.submit 1 (sentAt 1), .submit 0 (sentAt 2), .drain 0, .handle (.quiet 1 fun _ => .sent),
    .drain 1, .handle (.quiet 2 fun _ => .sent)]

theorem newest_last_fails : ∃ s, exec Polling.step sampleRace (.start (.fresh 0)) = some s ∧
    s.pushed.map (fun p => p.event.timestamp) = [2, 1] ∧ ¬ NewestLast s := by
  refine ⟨_, rfl, rfl, fun h => ?_⟩
  have hsorted := h.order.sorted
  exact absurd (List.pairwise_pair.mp hsorted) (show ¬ (2 : UInt64) ≤ 1 by decide)

end Naarad
