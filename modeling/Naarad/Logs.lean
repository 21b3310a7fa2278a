import Mathlib.Logic.Function.Basic

/-!
# The log (`utils/logs.c`, `utils/log_init.c`)

Every process has its own table of callbacks, which a fork copies; they write to streams that the
processes share. A record goes to `stderr`, unless the process is quiet, and to every callback that
is registered, up to the first empty slot of the table. The calls of a process are taken one at a
time; no lock function is ever set.
-/

set_option autoImplicit false

namespace Naarad.Logs

open Function (update)

def MAX_CALLBACKS : Nat := 32

def LOG_TRACE : Int := 0
def LOG_FATAL : Int := 5

def level_strings : List String := ["TRACE", "DEBUG", "INFO", "WARN", "ERROR", "FATAL"]

/-- Nothing is there outside of the array. -/
def log_level_string (level : Int) : Option String :=
  if 0 ≤ level then level_strings[level.toNat]? else none

/-- `FILE *`. -/
inductive Stream where
  | stderr
  | file (n : Nat)
  deriving DecidableEq

/-- A time, as the texts that `strftime` makes of it for `"%H:%M:%S"` and `"%Y-%m-%d %H:%M:%S"`. -/
structure Tm where
  clock : String
  date : String

/-- The arguments of `log_log`; `text` is what the format and its arguments make. -/
structure Record where
  level : Int
  file : String
  line : Nat
  text : String

/-- `log_Event`. -/
structure Event extends Record where
  time : Option Tm
  udata : Option Stream

/-- `"%s %-5s %s:%d: "`, the text, and the end of the line. -/
def Record.format (r : Record) (stamp level : String) : String :=
  stamp ++ " " ++ level.pushn ' ' (5 - level.length) ++ " " ++ r.file ++ ":" ++ toString r.line ++
    ": " ++ r.text ++ "\n"

def Event.write (ev : Event) (stamp : Tm → String) : Option String := do
  let time ← ev.time
  let level ← log_level_string ev.level
  pure (ev.format (stamp time) level)

def stdout_callback (ev : Event) : Option String := ev.write Tm.clock

def file_callback (ev : Event) : Option String := ev.write Tm.date

/-- A callback writes to the stream it was registered with. -/
structure Callback where
  fn : Option (Event → Option String)
  udata : Stream
  level : Int

structure Logger where
  level : Int
  quiet : Bool
  callbacks : List Callback
  size_eq : callbacks.length = MAX_CALLBACKS

/-- The static `L`. -/
def Logger.zero : Logger where
  level := 0
  quiet := false
  callbacks := List.replicate MAX_CALLBACKS ⟨none, .stderr, 0⟩
  size_eq := List.length_replicate

/-- The loop of `log_add_callback`: the first slot without a function takes the callback. -/
def store (cb : Callback) : List Callback → Option (List Callback)
  | [] => none
  | slot :: slots => if slot.fn.isNone then some (cb :: slots) else (store cb slots).map (slot :: ·)

theorem length_store {cb : Callback} {slots slots' : List Callback}
    (h : store cb slots = some slots') : slots'.length = slots.length := by
  induction slots generalizing slots' with
  | nil => cases h
  | cons slot slots ih =>
    rw [store] at h
    split at h
    · cases h
      rfl
    · obtain ⟨rest, hrest, rfl⟩ := Option.map_eq_some_iff.mp h
      rw [List.length_cons, List.length_cons, ih hrest]

def log_add_callback (cb : Callback) (L : Logger) : Int × Logger :=
  match h : store cb L.callbacks with
  | some callbacks => (0, { L with callbacks, size_eq := (length_store h).trans L.size_eq })
  | none => (-1, L)

/-- `clock` is what `time` and `localtime` answer, call by call. -/
def init_event (clock : Nat → Tm) (udata : Stream) (ev : Event) (calls : Nat) : Event × Nat :=
  match ev.time with
  | none => ({ ev with time := some (clock calls), udata := some udata }, calls + 1)
  | some _ => ({ ev with udata := some udata }, calls)

/-- The loop of `log_log`; the writes in their order. -/
def callAll (clock : Nat → Tm) : List Callback → Event → Nat → Option (List (Stream × String))
  | [], _, _ => some []
  | cb :: cbs, ev, calls =>
    match cb.fn with
    | none => some []
    | some fn =>
      if cb.level ≤ ev.level then do
        let p := init_event clock cb.udata ev calls
        let text ← fn p.1
        let rest ← callAll clock cbs p.1 p.2
        pure ((cb.udata, text) :: rest)
      else callAll clock cbs ev calls

def log_log (clock : Nat → Tm) (r : Record) (L : Logger) : Option (List (Stream × String)) :=
  let ev : Event := { r with time := none, udata := none }
  if !L.quiet && decide (L.level ≤ r.level) then do
    let p := init_event clock .stderr ev 0
    let text ← stdout_callback p.1
    let rest ← callAll clock L.callbacks p.1 p.2
    pure ((.stderr, text) :: rest)
  else callAll clock L.callbacks ev 0

/-- What a process does to its log; `fork` copies the table to the child. -/
inductive Op where
  | log (clock : Nat → Tm) (r : Record)
  | log_set_level (level : Int)
  | log_set_quiet (enable : Bool)
  | log_add_callback (cb : Callback)
  | fork (child : Nat)

def log_add_fp (fp : Stream) (level : Int) : Op :=
  .log_add_callback ⟨some file_callback, fp, level⟩

structure Sys where
  loggers : Nat → Logger
  written : List (Stream × String)

def Sys.start : Sys := ⟨fun _ => .zero, []⟩

def Sys.set (s : Sys) (p : Nat) (L : Logger) : Sys := { s with loggers := update s.loggers p L }

/-- A log call is one step. No lock is ever set, so that the records of two threads can mix in the
program, which makes three calls of the C library for a record. -/
def Sys.step (l : Nat × Op) (s : Sys) : Option Sys :=
  let L := s.loggers l.1
  match l.2 with
  | .log clock r => (log_log clock r L).map fun ws => { s with written := s.written ++ ws }
  | .log_set_level level => some (s.set l.1 { L with level })
  | .log_set_quiet quiet => some (s.set l.1 { L with quiet })
  | .log_add_callback cb => some (s.set l.1 (Logs.log_add_callback cb L).2)
  | .fork child => some (s.set child L)

end Naarad.Logs
