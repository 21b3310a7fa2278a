import Naarad.Lib.LabelledRun
import Naarad.Logs

/-!
# Where the log goes

The table of callbacks is a list of at most `MAX_CALLBACKS` sinks, each of which writes a record once.
In the program only the monitor registers one, after it has forked the other processes.
-/

set_option autoImplicit false

namespace Naarad.Logs

open LabelledRun
open Function (update)

/-! The table as a list of sinks: a callback without a function is none of them. -/

structure Sink where
  write : Event → Option String
  udata : Stream
  level : Int

def Sink.callback (k : Sink) : Callback := ⟨some k.write, k.udata, k.level⟩

def Callback.sinks (cb : Callback) : List Sink :=
  match cb.fn with
  | none => []
  | some write => [⟨write, cb.udata, cb.level⟩]

/-- What a sink makes of a record. -/
def Sink.line (k : Sink) (r : Record) (t : Tm) : Option (Stream × String) :=
  (k.write { r with time := some t, udata := some k.udata }).map (k.udata, ·)

structure Registry where
  level : Int
  quiet : Bool
  sinks : List Sink

namespace Registry

def zero : Registry := ⟨0, false, []⟩

def terminal (R : Registry) : List Sink :=
  if R.quiet then [] else [⟨stdout_callback, .stderr, R.level⟩]

/-- Every sink that takes the record writes it once, all with the same time. -/
def log (clock : Nat → Tm) (r : Record) (R : Registry) : Option (List (Stream × String)) :=
  ((R.terminal ++ R.sinks).filter fun k => k.level ≤ r.level).mapM fun k => k.line r (clock 0)

def add (cb : Callback) (R : Registry) : Registry :=
  if R.sinks.length < MAX_CALLBACKS then { R with sinks := R.sinks ++ cb.sinks } else R

end Registry

structure Registries where
  registries : Nat → Registry
  written : List (Stream × String)

namespace Registries

def start : Registries := ⟨fun _ => .zero, []⟩

def set (s : Registries) (p : Nat) (R : Registry) : Registries :=
  { s with registries := update s.registries p R }

def step (l : Nat × Op) (s : Registries) : Option Registries :=
  let R := s.registries l.1
  match l.2 with
  | .log clock r => (R.log clock r).map fun ws => { s with written := s.written ++ ws }
  | .log_set_level level => some (s.set l.1 { R with level })
  | .log_set_quiet quiet => some (s.set l.1 { R with quiet })
  | .log_add_callback cb => some (s.set l.1 (R.add cb))
  | .fork child => some (s.set child R)

end Registries

/-- The table holds the sinks, and empty slots behind them. -/
def Packed (sinks : List Sink) (slots : List Callback) : Prop :=
  ∃ empty, slots = sinks.map Sink.callback ++ empty ∧ ∀ cb ∈ empty, cb.fn = none

/-- The time that an event shows once it is initialised. -/
def Event.stamp (ev : Event) (clock : Nat → Tm) (calls : Nat) : Tm := ev.time.getD (clock calls)

theorem init_event_eq (clock : Nat → Tm) (udata : Stream) (ev : Event) (calls : Nat) :
    (init_event clock udata ev calls).1 =
      { ev with time := some (ev.stamp clock calls), udata := some udata } := by
  unfold init_event Event.stamp
  cases htime : ev.time with
  | none => rfl
  | some t => rw [Option.getD_some]

theorem callAll_sink (clock : Nat → Tm) (k : Sink) (slots : List Callback) (ev : Event)
    (calls : Nat) (hlevel : k.level ≤ ev.level) :
    callAll clock (k.callback :: slots) ev calls =
      (k.line ev.toRecord (ev.stamp clock calls)).bind fun w =>
        (callAll clock slots (init_event clock k.udata ev calls).1
          (init_event clock k.udata ev calls).2).map (w :: ·) := by
  simp only [callAll, Sink.callback, if_pos hlevel, init_event_eq]
  unfold Sink.line
  cases k.write _ with
  | none => rfl
  | some text =>
    dsimp only [Option.map_some, Option.bind_some]
    cases callAll clock slots _ _ <;> rfl

theorem callAll_eq {clock : Nat → Tm} {sinks : List Sink} {slots : List Callback}
    (hpacked : Packed sinks slots) (ev : Event) (calls : Nat) :
    callAll clock slots ev calls = (sinks.filter fun k => k.level ≤ ev.level).mapM
      fun k => k.line ev.toRecord (ev.stamp clock calls) := by
  obtain ⟨empty, rfl, hempty⟩ := hpacked
  induction sinks generalizing ev calls with
  | nil =>
    cases empty with
    | nil => rfl
    | cons cb empty =>
      rw [List.map_nil, List.nil_append, callAll, hempty cb List.mem_cons_self]
      rfl
  | cons k sinks ih =>
    rw [List.map_cons, List.cons_append]
    by_cases hlevel : k.level ≤ ev.level
    · have hrest := ih (init_event clock k.udata ev calls).1 (init_event clock k.udata ev calls).2
      rw [init_event_eq] at hrest
      rw [callAll_sink _ _ _ _ _ hlevel, List.filter_cons_of_pos (by simpa using hlevel),
        List.mapM_cons, init_event_eq, hrest]
      cases k.line ev.toRecord (ev.stamp clock calls) with
      | none => rfl
      | some w =>
        dsimp only [Option.bind_some, Event.stamp, Option.getD_some]
        cases (sinks.filter fun k => k.level ≤ ev.level).mapM
          fun k => k.line ev.toRecord (ev.time.getD (clock calls)) <;> rfl
    · rw [List.filter_cons_of_neg (by simpa using hlevel), ← ih, callAll]
      exact if_neg hlevel

theorem Packed.zero : Packed [] Logger.zero.callbacks :=
  ⟨Logger.zero.callbacks, rfl, fun _ hcb => congrArg Callback.fn (List.eq_of_mem_replicate hcb)⟩

theorem store_full (cb : Callback) (sinks : List Sink) :
    store cb (sinks.map Sink.callback) = none := by
  induction sinks with
  | nil => rfl
  | cons k sinks ih =>
    rw [List.map_cons, store, ih]
    rfl

theorem store_room (cb : Callback) (sinks : List Sink) {slot : Callback} (empty : List Callback)
    (hslot : slot.fn = none) :
    store cb (sinks.map Sink.callback ++ slot :: empty) =
      some (sinks.map Sink.callback ++ cb :: empty) := by
  induction sinks with
  | nil =>
    rw [List.map_nil, List.nil_append, store, hslot]
    rfl
  | cons k sinks ih =>
    rw [List.map_cons, List.cons_append, store, ih]
    rfl

/-- A callback goes behind the sinks, when there is a slot left. -/
theorem store_packed {sinks : List Sink} {slots : List Callback} (cb : Callback)
    (hpacked : Packed sinks slots) :
    Packed (if sinks.length < slots.length then sinks ++ cb.sinks else sinks)
      ((store cb slots).getD slots) := by
  obtain ⟨empty, rfl, hempty⟩ := hpacked
  rw [List.length_append, List.length_map]
  cases empty with
  | nil =>
    rw [List.length_nil, Nat.add_zero, if_neg (Nat.lt_irrefl _), List.append_nil, store_full]
    exact ⟨[], (List.append_nil _).symm, hempty⟩
  | cons slot empty =>
    rw [List.length_cons, if_pos (Nat.lt_add_of_pos_right (Nat.succ_pos _)),
      store_room cb sinks empty (hempty slot List.mem_cons_self), Option.getD_some]
    have hbehind : ∀ cb ∈ empty, cb.fn = none := fun cb hcb =>
      hempty cb (List.mem_cons_of_mem _ hcb)
    obtain ⟨fn, udata, level⟩ := cb
    cases fn with
    | none => exact ⟨_, by rw [Callback.sinks, List.append_nil], List.forall_mem_cons.mpr ⟨rfl, hbehind⟩⟩
    | some write =>
      refine ⟨empty, ?_, hbehind⟩
      rw [Callback.sinks, List.map_append, List.append_assoc]
      rfl

structure Logger.Has (L : Logger) (R : Registry) : Prop where
  level : L.level = R.level
  quiet : L.quiet = R.quiet
  packed : Packed R.sinks L.callbacks

/-- The terminal comes first, like a callback in front of the table. -/
theorem log_log_terminal {L : Logger} {R : Registry} (h : L.Has R) (clock : Nat → Tm) (r : Record) :
    log_log clock r L = callAll clock (R.terminal.map Sink.callback ++ L.callbacks)
      { r with time := none, udata := none } 0 := by
  unfold log_log Registry.terminal
  rw [h.quiet, h.level]
  cases R.quiet with
  | true => rfl
  | false =>
    have hfalse : ¬ false = true := Bool.false_ne_true
    rw [if_neg hfalse, List.map_singleton, List.singleton_append, callAll]
    by_cases hlevel : R.level ≤ r.level
    · rw [if_pos (by simpa using hlevel)]
      exact (if_pos hlevel).symm
    · rw [if_neg (by simpa using hlevel)]
      exact (if_neg hlevel).symm

theorem log_log_eq {L : Logger} {R : Registry} (h : L.Has R) (clock : Nat → Tm) (r : Record) :
    log_log clock r L = R.log clock r := by
  obtain ⟨empty, hcallbacks, hempty⟩ := h.packed
  have hpacked : Packed (R.terminal ++ R.sinks) (R.terminal.map Sink.callback ++ L.callbacks) := by
    refine ⟨empty, ?_, hempty⟩
    rw [hcallbacks, List.map_append, List.append_assoc]
  rw [log_log_terminal h, callAll_eq hpacked]
  rfl

theorem log_add_callback_has {L : Logger} {R : Registry} (h : L.Has R) (cb : Callback) :
    (log_add_callback cb L).2.Has (R.add cb) := by
  have hstore := store_packed cb h.packed
  rw [L.size_eq] at hstore
  have hcallbacks : (log_add_callback cb L).2.callbacks = (store cb L.callbacks).getD L.callbacks := by
    unfold log_add_callback
    split
    · rename_i callbacks hsome
      exact (congrArg (Option.getD · L.callbacks) hsome).symm
    · rename_i hnone
      exact (congrArg (Option.getD · L.callbacks) hnone).symm
  have hsame : (log_add_callback cb L).2.level = L.level ∧ (log_add_callback cb L).2.quiet = L.quiet := by
    unfold log_add_callback
    split <;> exact ⟨rfl, rfl⟩
  unfold Registry.add
  split
  · rename_i hlt
    rw [if_pos hlt] at hstore
    exact ⟨hsame.1.trans h.level, hsame.2.trans h.quiet, hcallbacks ▸ hstore⟩
  · rename_i hlt
    rw [if_neg hlt] at hstore
    exact ⟨hsame.1.trans h.level, hsame.2.trans h.quiet, hcallbacks ▸ hstore⟩

structure Sys.Has (s : Sys) (t : Registries) : Prop where
  loggers : ∀ p, (s.loggers p).Has (t.registries p)
  written : s.written = t.written

theorem Sys.Has.set {s : Sys} {t : Registries} (h : s.Has t) (p : Nat) {L : Logger} {R : Registry}
    (hL : L.Has R) : (s.set p L).Has (t.set p R) := by
  refine ⟨?_, h.written⟩
  intro q
  dsimp only [Sys.set, Registries.set]
  by_cases hq : q = p
  · subst hq
    rw [Function.update_self, Function.update_self]
    exact hL
  · rw [Function.update_of_ne hq, Function.update_of_ne hq]
    exact h.loggers q

theorem Sys.Has.step {s : Sys} {t : Registries} (h : s.Has t) (l : Nat × Op) :
    Option.Rel Sys.Has (Sys.step l s) (Registries.step l t) := by
  have hL := h.loggers l.1
  unfold Sys.step Registries.step
  dsimp only
  cases l.2 with
  | log clock r =>
    dsimp only
    rw [log_log_eq hL, h.written]
    cases (t.registries l.1).log clock r with
    | none => exact .none
    | some ws => exact .some ⟨h.loggers, rfl⟩
  | log_set_level level => exact .some (h.set l.1 ⟨rfl, hL.quiet, hL.packed⟩)
  | log_set_quiet quiet => exact .some (h.set l.1 ⟨hL.level, rfl, hL.packed⟩)
  | log_add_callback cb => exact .some (h.set l.1 (log_add_callback_has hL cb))
  | fork child => exact .some (h.set child hL)

/-- The tables of all processes as lists of sinks, through every run. -/
theorem log_refines (ls : List (Nat × Op)) :
    Option.Rel Sys.Has (exec Sys.step ls .start) (exec Registries.step ls .start) := by
  have hstart : Sys.start.Has .start := ⟨fun _ => ⟨rfl, rfl, .zero⟩, rfl⟩
  have hrun : Option.Rel Sys.Has (exec Sys.step ls .start)
      (exec Registries.step (relabel (fun (_ : Unit) l => l) (fun m _ => m) () ls) .start) :=
    exec_lockstep (R := fun _ => Sys.Has) (fun _ l _ _ h => h.step l) ls hstart
  rwa [relabel_same] at hrun

/-! The monitor and the processes that it forks. -/

/-- One call of `log_log`: by which process, at what time. -/
structure Entry where
  pid : Nat
  time : Tm
  record : Record

def entries (ls : List (Nat × Op)) : List Entry :=
  ls.filterMap fun l =>
    match l.2 with
    | .log clock r => some ⟨l.1, clock 0, r⟩
    | _ => none

def Entry.terminal (e : Entry) : Stream × String :=
  (.stderr, e.record.format e.time.clock ((log_level_string e.record.level).getD ""))

def Entry.inFile (n : Nat) (e : Entry) : Stream × String :=
  (.file n, e.record.format e.time.date ((log_level_string e.record.level).getD ""))

/-- One of the macros `log_trace` to `log_fatal`. -/
def IsLog (l : Nat × Op) : Prop :=
  ∃ clock r, l.2 = .log clock r ∧ LOG_TRACE ≤ r.level ∧ r.level ≤ LOG_FATAL

theorem log_level_string_isSome {level : Int} (htrace : LOG_TRACE ≤ level)
    (hfatal : level ≤ LOG_FATAL) : ∃ name, log_level_string level = some name := by
  unfold LOG_TRACE at htrace
  unfold LOG_FATAL at hfatal
  unfold log_level_string
  rw [if_pos htrace]
  have hlt : level.toNat < level_strings.length := by
    rw [level_strings]
    simp only [List.length_cons, List.length_nil]
    omega
  exact ⟨_, List.getElem?_eq_getElem hlt⟩

def terminalSink : Sink := ⟨stdout_callback, .stderr, 0⟩

def fileSink (n : Nat) : Sink := ⟨file_callback, .file n, LOG_TRACE⟩

def Registry.monitor (quiet : Bool) (n : Nat) : Registry := ⟨0, quiet, [fileSink n]⟩

section Lines
variable {r : Record} (clock : Nat → Tm) (htrace : LOG_TRACE ≤ r.level) (hfatal : r.level ≤ LOG_FATAL)
include htrace hfatal

theorem line_terminal (p : Nat) (t : Tm) :
    terminalSink.line r t = some (Entry.terminal ⟨p, t, r⟩) := by
  obtain ⟨name, hname⟩ := log_level_string_isSome htrace hfatal
  unfold terminalSink Sink.line stdout_callback Event.write Entry.terminal
  dsimp only
  rw [hname]
  rfl

theorem line_inFile (p n : Nat) (t : Tm) :
    (fileSink n).line r t = some (Entry.inFile n ⟨p, t, r⟩) := by
  obtain ⟨name, hname⟩ := log_level_string_isSome htrace hfatal
  unfold fileSink Sink.line file_callback Event.write Entry.inFile
  dsimp only
  rw [hname]
  rfl

omit hfatal in
theorem log_all {R : Registry} {sinks : List Sink} (hsinks : R.terminal ++ R.sinks = sinks)
    (hlevel : ∀ k ∈ sinks, k.level = LOG_TRACE) :
    R.log clock r = sinks.mapM fun k => k.line r (clock 0) := by
  unfold Registry.log
  rw [hsinks, List.filter_eq_self.mpr]
  intro k hk
  rw [hlevel k hk]
  exact decide_eq_true htrace

theorem log_zero (p : Nat) : Registry.zero.log clock r = some [Entry.terminal ⟨p, clock 0, r⟩] := by
  have hsinks : Registry.zero.terminal ++ Registry.zero.sinks = [terminalSink] := rfl
  rw [log_all clock htrace hsinks (by simp [terminalSink, LOG_TRACE]), List.mapM_cons,
    line_terminal htrace hfatal p]
  rfl

theorem log_monitor (p n : Nat) : (Registry.monitor false n).log clock r =
    some [Entry.terminal ⟨p, clock 0, r⟩, Entry.inFile n ⟨p, clock 0, r⟩] := by
  have hsinks : (Registry.monitor false n).terminal ++ (Registry.monitor false n).sinks =
    [terminalSink, fileSink n] := rfl
  rw [log_all clock htrace hsinks (by simp [terminalSink, fileSink, LOG_TRACE]), List.mapM_cons,
    List.mapM_cons, line_terminal htrace hfatal p, line_inFile htrace hfatal p]
  rfl

theorem log_quiet (p n : Nat) : (Registry.monitor true n).log clock r =
    some [Entry.inFile n ⟨p, clock 0, r⟩] := by
  have hsinks : (Registry.monitor true n).terminal ++ (Registry.monitor true n).sinks =
    [fileSink n] := rfl
  rw [log_all clock htrace hsinks (by simp [fileSink]), List.mapM_cons,
    line_inFile htrace hfatal p]
  rfl

end Lines

/-- Where every call writes what `out` says of it and changes no table, so does a run. -/
theorem run_logs {registries : Nat → Registry} {out : Entry → List (Stream × String)}
    {ls : List (Nat × Op)}
    (hstep : ∀ l ∈ ls, ∀ ws, Registries.step l ⟨registries, ws⟩ =
      some ⟨registries, ws ++ (entries [l]).flatMap out⟩) (ws : List (Stream × String)) :
    exec Registries.step ls ⟨registries, ws⟩ =
      some ⟨registries, ws ++ (entries ls).flatMap out⟩ := by
  induction ls generalizing ws with
  | nil => rw [exec_nil, entries, List.filterMap_nil, List.flatMap_nil, List.append_nil]
  | cons l ls ih =>
    have happend : entries (l :: ls) = entries [l] ++ entries ls := List.filterMap_append (l := [l])
    rw [List.forall_mem_cons] at hstep
    rw [exec, hstep.1, Option.bind_some, ih hstep.2, happend, List.flatMap_append, List.append_assoc]

theorem step_log {registries : Nat → Registry} {out : Entry → List (Stream × String)}
    {l : Nat × Op} (hlog : IsLog l)
    (hout : ∀ clock r, LOG_TRACE ≤ r.level → r.level ≤ LOG_FATAL →
      (registries l.1).log clock r = some (out ⟨l.1, clock 0, r⟩)) (ws : List (Stream × String)) :
    Registries.step l ⟨registries, ws⟩ = some ⟨registries, ws ++ (entries [l]).flatMap out⟩ := by
  obtain ⟨p, op⟩ := l
  obtain ⟨clock, r, hop, htrace, hfatal⟩ := hlog
  dsimp only at hop
  subst hop
  have hentry : (entries [(p, Op.log clock r)]).flatMap out = out ⟨p, clock 0, r⟩ :=
    List.append_nil _
  unfold Registries.step
  dsimp only
  rw [hout clock r htrace hfatal, hentry]
  rfl

/-- What is written before `log_set_quiet`, and after it, once the monitor has its file. -/
def Entry.noisy (n : Nat) (e : Entry) : List (Stream × String) :=
  if e.pid = 0 then [e.terminal, e.inFile n] else [e.terminal]

def Entry.silent (n : Nat) (e : Entry) : List (Stream × String) :=
  if e.pid = 0 then [e.inFile n] else [e.terminal]

theorem entries_append (ks ls : List (Nat × Op)) : entries (ks ++ ls) = entries ks ++ entries ls :=
  List.filterMap_append

theorem filter_lines {out : Entry → List (Stream × String)} {stream : Stream} {goes : Entry → Bool}
    {line : Entry → Stream × String}
    (hout : ∀ e, (out e).filter (fun w => w.1 = stream) = if goes e then [line e] else [])
    (es : List Entry) :
    (es.flatMap out).filter (fun w => w.1 = stream) = (es.filter goes).map line := by
  induction es with
  | nil => rfl
  | cons e es ih =>
    rw [List.flatMap_cons, List.filter_append, ih, hout, List.filter_cons]
    split <;> rfl

theorem noisy_inFile (n : Nat) (e : Entry) : (e.noisy n).filter (fun w => w.1 = .file n) =
    if decide (e.pid = 0) then [e.inFile n] else [] := by
  by_cases hpid : e.pid = 0 <;> simp [Entry.noisy, hpid, Entry.terminal, Entry.inFile]

theorem noisy_terminal (n : Nat) (e : Entry) : (e.noisy n).filter (fun w => w.1 = .stderr) =
    if true then [e.terminal] else [] := by
  by_cases hpid : e.pid = 0 <;> simp [Entry.noisy, hpid, Entry.terminal, Entry.inFile]

theorem silent_inFile (n : Nat) (e : Entry) : (e.silent n).filter (fun w => w.1 = .file n) =
    if decide (e.pid = 0) then [e.inFile n] else [] := by
  by_cases hpid : e.pid = 0 <;> simp [Entry.silent, hpid, Entry.terminal, Entry.inFile]

theorem silent_terminal (n : Nat) (e : Entry) : (e.silent n).filter (fun w => w.1 = .stderr) =
    if decide (e.pid ≠ 0) then [e.terminal] else [] := by
  by_cases hpid : e.pid = 0 <;> simp [Entry.silent, hpid, Entry.terminal, Entry.inFile]

theorem early_terminal (e : Entry) : [e.terminal].filter (fun w => w.1 = .stderr) =
    if true then [e.terminal] else [] := rfl

theorem early_inFile (n : Nat) (e : Entry) : [e.terminal].filter (fun w => w.1 = .file n) =
    if false then [e.inFile n] else [] := rfl

/-- Where the monitor is `R` and every other process has nothing registered. -/
def others (R : Registry) : Nat → Registry := update (fun _ => .zero) 0 R

theorem others_zero : others .zero = fun _ => .zero := Function.update_eq_self ..

theorem others_self (R : Registry) : others R 0 = R := Function.update_self ..

theorem others_of_ne (R : Registry) {p : Nat} (hp : p ≠ 0) : others R p = .zero :=
  Function.update_of_ne hp ..

theorem run_early {early : List (Nat × Op)}
    (hearly : ∀ l ∈ early, IsLog l ∨ ∃ child, l = (0, .fork child)) (ws : List (Stream × String)) :
    exec Registries.step early ⟨others .zero, ws⟩ =
      some ⟨others .zero, ws ++ (entries early).flatMap fun e => [e.terminal]⟩ := by
  apply run_logs
  intro l hl ws
  rcases hearly l hl with hlog | ⟨child, rfl⟩
  · apply step_log hlog
    intro clock r htrace hfatal
    rw [others_zero]
    exact log_zero clock htrace hfatal l.1
  · have hsame : update (others .zero) child (others .zero 0) = others .zero := by
      rw [others_zero]
      exact Function.update_eq_self ..
    exact congrArg some (Registries.mk.injEq .. ▸ ⟨hsame, (List.append_nil ws).symm⟩)

theorem run_noisy {n : Nat} {ls : List (Nat × Op)} (hlogs : ∀ l ∈ ls, IsLog l)
    (ws : List (Stream × String)) :
    exec Registries.step ls ⟨others (.monitor false n), ws⟩ =
      some ⟨others (.monitor false n), ws ++ (entries ls).flatMap (Entry.noisy n)⟩ := by
  apply run_logs
  intro l hl ws
  apply step_log (hlogs l hl)
  intro clock r htrace hfatal
  unfold Entry.noisy
  by_cases hpid : l.1 = 0
  · rw [if_pos hpid, hpid, others_self]
    exact log_monitor clock htrace hfatal 0 n
  · rw [if_neg hpid, others_of_ne _ hpid]
    exact log_zero clock htrace hfatal l.1

theorem run_silent {n : Nat} {ls : List (Nat × Op)} (hlogs : ∀ l ∈ ls, IsLog l)
    (ws : List (Stream × String)) :
    exec Registries.step ls ⟨others (.monitor true n), ws⟩ =
      some ⟨others (.monitor true n), ws ++ (entries ls).flatMap (Entry.silent n)⟩ := by
  apply run_logs
  intro l hl ws
  apply step_log (hlogs l hl)
  intro clock r htrace hfatal
  unfold Entry.silent
  by_cases hpid : l.1 = 0
  · rw [if_pos hpid, hpid, others_self]
    exact log_quiet clock htrace hfatal 0 n
  · rw [if_neg hpid, others_of_ne _ hpid]
    exact log_zero clock htrace hfatal l.1

theorem run_monitor {n : Nat} {early middle late : List (Nat × Op)}
    (hearly : ∀ l ∈ early, IsLog l ∨ ∃ child, l = (0, .fork child))
    (hmiddle : ∀ l ∈ middle, IsLog l) (hlate : ∀ l ∈ late, IsLog l) :
    exec Registries.step (early ++ (0, log_add_fp (.file n) LOG_TRACE) :: middle ++
        (0, .log_set_quiet true) :: late) .start =
      some ⟨others (.monitor true n), ((entries early).flatMap fun e => [e.terminal]) ++
        (entries middle).flatMap (Entry.noisy n) ++ (entries late).flatMap (Entry.silent n)⟩ := by
  have hstart : Registries.start = ⟨others .zero, []⟩ :=
    Registries.mk.injEq .. ▸ ⟨others_zero.symm, rfl⟩
  have hadd (ws) : Registries.step (0, log_add_fp (.file n) LOG_TRACE) ⟨others .zero, ws⟩ =
      some ⟨others (.monitor false n), ws⟩ := by
    have hset : update (others .zero) 0 (.monitor false n) = others (.monitor false n) :=
      Function.update_idem ..
    exact congrArg some (Registries.mk.injEq .. ▸ ⟨hset, rfl⟩)
  have hquiet (ws) : Registries.step (0, .log_set_quiet true) ⟨others (.monitor false n), ws⟩ =
      some ⟨others (.monitor true n), ws⟩ := by
    have hset : update (others (.monitor false n)) 0 (.monitor true n) = others (.monitor true n) :=
      Function.update_idem ..
    exact congrArg some (Registries.mk.injEq .. ▸ ⟨hset, rfl⟩)
  rw [exec_append, exec_append, hstart, run_early hearly, Option.bind_some, exec, hadd,
    Option.bind_some, run_noisy hmiddle, Option.bind_some, exec, hquiet, Option.bind_some,
    run_silent hlate, List.nil_append]

/-- The monitor registers its file when it has forked the other processes, and is quiet from then on.
The file then holds what the monitor has logged since, and nothing that the other processes log; the
terminal goes on showing what they log. Each log call is one step here. -/
theorem monitor_log {n : Nat} {early middle late : List (Nat × Op)}
    (hearly : ∀ l ∈ early, IsLog l ∨ ∃ child, l = (0, .fork child))
    (hmiddle : ∀ l ∈ middle, IsLog l) (hlate : ∀ l ∈ late, IsLog l) :
    ∃ s, exec Sys.step (early ++ (0, log_add_fp (.file n) LOG_TRACE) :: middle ++
        (0, .log_set_quiet true) :: late) .start = some s ∧
      s.written.filter (fun w => w.1 = .file n) =
        ((entries (middle ++ late)).filter fun e => e.pid = 0).map (Entry.inFile n) ∧
      s.written.filter (fun w => w.1 = .stderr) =
        (entries (early ++ middle) ++ (entries late).filter fun e => e.pid ≠ 0).map
          Entry.terminal := by
  have hrel := log_refines (early ++ (0, log_add_fp (.file n) LOG_TRACE) :: middle ++
    (0, .log_set_quiet true) :: late)
  rw [run_monitor hearly hmiddle hlate] at hrel
  obtain ⟨s, hs, hhas⟩ := exists_of_rel hrel
  have hall (es : List Entry) : (es.filter fun _ => true) = es :=
    List.filter_eq_self.mpr fun _ _ => rfl
  have hnone (es : List Entry) : (es.filter fun _ => false) = [] :=
    List.filter_eq_nil_iff.mpr fun _ _ => Bool.false_ne_true
  refine ⟨s, hs, ?_, ?_⟩
  · rw [hhas.written, List.filter_append, List.filter_append, filter_lines (early_inFile n),
      filter_lines (noisy_inFile n), filter_lines (silent_inFile n), entries_append,
      List.filter_append, List.map_append, hnone]
    rfl
  · rw [hhas.written, List.filter_append, List.filter_append, filter_lines early_terminal,
      filter_lines (noisy_terminal n), filter_lines (silent_terminal n), entries_append,
      List.map_append, List.map_append, hall, hall]

/-- A record of level `LOG_INFO`. -/
def started : Record := ⟨2, "consumer.c", 11, "Consumer 0 started"⟩

def noon (_ : Nat) : Tm := ⟨"12:00:00", "2024-11-02 12:00:00"⟩

/-- A consumer logs before the monitor has its file and after it is quiet. -/
theorem monitor_log_sample :
    ∃ s, exec Sys.step ([(0, .fork 1), (1, .log noon started)] ++
        (0, log_add_fp (.file 0) LOG_TRACE) :: [(0, .log noon started)] ++
        (0, .log_set_quiet true) :: [(1, .log noon started), (0, .log noon started)]) .start =
          some s ∧
      (s.written.filter fun w => w.1 = .file 0).length = 2 ∧
      (s.written.filter fun w => w.1 = .stderr).length = 3 := by
  have hlog (p : Nat) : IsLog (p, .log noon started) :=
    ⟨noon, started, rfl, Int.le.intro 2 rfl, Int.le.intro 3 rfl⟩
  have hearly : ∀ l ∈ [(0, Op.fork 1), (1, .log noon started)],
      IsLog l ∨ ∃ child, l = (0, .fork child) :=
    List.forall_mem_cons.mpr ⟨Or.inr ⟨1, rfl⟩, List.forall_mem_singleton.mpr (Or.inl (hlog 1))⟩
  have hmiddle : ∀ l ∈ [(0, Op.log noon started)], IsLog l :=
    List.forall_mem_singleton.mpr (hlog 0)
  have hlate : ∀ l ∈ [(1, Op.log noon started), (0, .log noon started)], IsLog l :=
    List.forall_mem_cons.mpr ⟨hlog 1, List.forall_mem_singleton.mpr (hlog 0)⟩
  obtain ⟨s, hs, hfile, hterminal⟩ := monitor_log (n := 0) hearly hmiddle hlate
  refine ⟨s, hs, ?_, ?_⟩
  · rw [hfile]
    rfl
  · rw [hterminal]
    rfl

end Naarad.Logs
