import Naarad.Lib.LabelledRun
import Mathlib.Data.List.Nodup
import Mathlib.Data.Set.Insert

/-!
# Pipes, forks and closes (`message_queue/message.c`, `file_monitor.c`)

The start of the monitor, of its consumers and of its dispatcher, as far as it concerns descriptors.
Each process has a table of open descriptors and its own copy of the two pipe arrays, which a fork
copies; the statements of its start run one at a time, interleaved with those of the others. The
numbers of groups and of consumers in a group are parameters.
-/

set_option autoImplicit false

namespace Naarad.Pipes

/-- The two arrays of pipes, and the two descriptors of a pipe. -/
inductive Wire where
  | dispatcher_to_consumer
  | consumer_to_dispatcher
  deriving DecidableEq

inductive Side where
  | read
  | write
  deriving DecidableEq

/-- An element `wire[i][j][side]`, which also names the end of the pipe that it is assigned. -/
structure Slot where
  pair : Nat × Nat
  wire : Wire
  side : Side
  deriving DecidableEq

inductive ProcId where
  | main
  | consumer (pair : Nat × Nat)
  | dispatcher
  deriving DecidableEq

inductive Desc where
  | pipe_end (slot : Slot)
  | other
  deriving DecidableEq

inductive Instr where
  | pipe (pair : Nat × Nat) (wire : Wire)
  | fork (child : ProcId)
  | close (slot : Slot)

section Programs
variable (G N : Nat)

/-- The nested loops over the groups and their consumers. -/
def pairs : List (Nat × Nat) :=
  (List.range G).flatMap fun i => (List.range N).map fun j => (i, j)

def init_pipe : List Instr :=
  (pairs G N).flatMap fun p => [.pipe p .dispatcher_to_consumer, .pipe p .consumer_to_dispatcher]

def init_consumer : List Instr :=
  (pairs G N).flatMap fun p =>
    [.fork (.consumer p), .close ⟨p, .dispatcher_to_consumer, .read⟩,
      .close ⟨p, .consumer_to_dispatcher, .write⟩]

def init_dispatcher : List Instr := [.fork .dispatcher]

/-- The four descriptors of a pair, in the order in which they are closed. -/
def ends (p : Nat × Nat) : List Slot :=
  [⟨p, .dispatcher_to_consumer, .read⟩, ⟨p, .dispatcher_to_consumer, .write⟩,
    ⟨p, .consumer_to_dispatcher, .read⟩, ⟨p, .consumer_to_dispatcher, .write⟩]

def closeAll (ps : List (Nat × Nat)) : List Instr := (ps.flatMap ends).map .close

/-- What each process does before it enters its loop. -/
def startup : ProcId → List Instr
  | .main => init_pipe G N ++ (init_consumer G N ++ (init_dispatcher ++ closeAll (pairs G N)))
  | .consumer p =>
    [.close ⟨p, .dispatcher_to_consumer, .write⟩, .close ⟨p, .consumer_to_dispatcher, .read⟩] ++
      closeAll ((pairs G N).filter (· ≠ p))
  | .dispatcher => []

/-- What `consumer` and `dispatcher` close behind their loops. -/
def final : ProcId → List Slot
  | .main => []
  | .consumer p => [⟨p, .dispatcher_to_consumer, .read⟩, ⟨p, .consumer_to_dispatcher, .write⟩]
  | .dispatcher => (pairs G N).flatMap fun p =>
    [⟨p, .consumer_to_dispatcher, .read⟩, ⟨p, .dispatcher_to_consumer, .write⟩]

def children : List ProcId := .dispatcher :: (pairs G N).map .consumer

end Programs

/-- `running []` is the loop of the process. -/
inductive Phase where
  | running (todo : List Instr)
  | closing (todo : List Slot)
  | exited

structure Proc where
  table : Nat → Option Desc
  fds : Slot → Nat
  phase : Phase

abbrev System := ProcId → Option Proc

/-- Whether a `pipe` or `fork` succeeds, and the two descriptors that `pipe` picks. -/
structure Choice where
  ok : Bool
  read : Nat
  write : Nat

inductive Label where
  | run (P : ProcId) (c : Choice)
  /-- A process in its loop opens something else. -/
  | open_other (P : ProcId) (fd : Nat)
  /-- The loop of a process ends. -/
  | finish (P : ProcId)

/-- Exiting closes every descriptor. -/
def Proc.exit (pr : Proc) : Proc := ⟨fun _ => none, pr.fds, .exited⟩

def Proc.enter (pr : Proc) (phase : Phase) : Proc := { pr with phase := phase }

def Proc.close (pr : Proc) (slot : Slot) (phase : Phase) : Proc :=
  { pr with table := Function.update pr.table (pr.fds slot) none, phase := phase }

def Proc.pipe (pr : Proc) (p : Nat × Nat) (wire : Wire) (c : Choice) (phase : Phase) : Proc where
  table := Function.update (Function.update pr.table c.read (some (.pipe_end ⟨p, wire, .read⟩)))
    c.write (some (.pipe_end ⟨p, wire, .write⟩))
  fds := Function.update (Function.update pr.fds ⟨p, wire, .read⟩ c.read) ⟨p, wire, .write⟩ c.write
  phase := phase

def System.set (s : System) (P : ProcId) (pr : Proc) : System := Function.update s P (some pr)

/-- The next statement of process `P`; a `pipe` or `fork` that fails ends `main`. -/
def runProc (G N : Nat) (s : System) (P : ProcId) (pr : Proc) (c : Choice) : Option System :=
  match pr.phase with
  | .running [] => none
  | .running (.pipe p wire :: todo) =>
    if !c.ok then some (s.set P pr.exit)
    else if pr.table c.read = none ∧ pr.table c.write = none ∧ c.read ≠ c.write then
      some (s.set P (pr.pipe p wire c (.running todo)))
    else none
  | .running (.fork child :: todo) =>
    if !c.ok then some (s.set P pr.exit)
    else some ((s.set P (pr.enter (.running todo))).set child
      (pr.enter (.running (startup G N child))))
  | .running (.close slot :: todo) => some (s.set P (pr.close slot (.running todo)))
  | .closing [] => some (s.set P pr.exit)
  | .closing (slot :: todo) => some (s.set P (pr.close slot (.closing todo)))
  | .exited => none

def Proc.isLooping (pr : Proc) : Bool :=
  match pr.phase with
  | .running [] => true
  | _ => false

def System.step (G N : Nat) : Label → System → Option System
  | .run P c, s => (s P).bind fun pr => runProc G N s P pr c
  | .open_other P fd, s => (s P).bind fun pr =>
    if pr.isLooping ∧ pr.table fd = none then
      some (s.set P { pr with table := Function.update pr.table fd (some .other) })
    else none
  | .finish P, s => (s P).bind fun pr =>
    if pr.isLooping then some (s.set P (pr.enter (.closing (final G N P)))) else none

/-- Only `main` exists, with descriptors that are no pipe ends. -/
def System.start (G N : Nat) (opened : Nat → Bool) : System :=
  System.set (fun _ => none) .main
    ⟨fun fd => if opened fd then some .other else none, fun _ => 0, .running (startup G N .main)⟩

theorem nodup_pairs (G N : Nat) : (pairs G N).Nodup := by
  apply List.nodup_flatMap.mpr
  constructor
  · intro i _
    exact List.nodup_range.map fun j j' h => (Prod.mk.inj h).2
  · apply List.nodup_range.imp
    intro i i' hne p hp hp'
    obtain ⟨_, _, rfl⟩ := List.mem_map.mp hp
    obtain ⟨_, _, heq⟩ := List.mem_map.mp hp'
    exact hne (Prod.mk.inj heq).1.symm

theorem mem_ends {p : Nat × Nat} {s : Slot} : s ∈ ends p ↔ s.pair = p := by
  obtain ⟨q, wire, side⟩ := s
  cases wire <;> cases side <;> simp [ends]

theorem mem_flatMap_ends {ps : List (Nat × Nat)} {s : Slot} :
    s ∈ ps.flatMap ends ↔ s.pair ∈ ps := by
  simp [List.mem_flatMap, mem_ends]

end Naarad.Pipes
