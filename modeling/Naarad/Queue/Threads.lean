import Naarad.Queue.Calls

/-!
# The monitor's two threads on the queue

The main thread pushes events and finally tears the queue down (`freeDequeue`); the TUI thread
calls `displayEntries` whenever it redraws. `System.step` interleaves their atomic steps over one
heap. `linked` records every message in the order in which its node was linked.
-/

set_option autoImplicit false

namespace Naarad.Queue

open LinkedHeap

/-- `displayEntries`; `copied` are the messages of the nodes copied so far, and their number is
the C variable `index`. -/
inductive ReadPc where
  | loadHead
  | loadNext (head : Option Addr)
  | copy (current : Addr) (copied : List Message)
  | next (current : Addr) (copied : List Message)
  | loadSize (copied : List Message)
  | done (copied : List Message)
  | crash

/-- Behind the loop: an empty copy returns at once, any other one logs the size first. -/
def ReadPc.exit (copied : List Message) : ReadPc :=
  if copied.isEmpty then .done [] else .loadSize copied

def ReadPc.loop (current : Option Addr) (copied : List Message) : ReadPc :=
  match current with
  | some a => if copied.length < MAX_ENTRIES then .copy a copied else .exit copied
  | none => .exit copied

def ReadPc.step (s : Dequeue) : ReadPc → Option ReadPc
  | .loadHead => some (.loadNext s.head)
  | .loadNext head =>
    match deref s.heap head with
    | some cell => some (.loop cell.next [])
    | none => some .crash
  | .copy current copied =>
    match s.heap current with
    | some cell => some (.next current (copied ++ [cell.val]))
    | none => some .crash
  | .next current copied =>
    match s.heap current with
    | some cell => some (.loop cell.next copied)
    | none => some .crash
  | .loadSize copied => some (.done copied)
  | .done _ => none
  | .crash => none

def ReadPc.held : ReadPc → Option (Option Addr)
  | .loadNext head => some head
  | .copy current _ => some (some current)
  | .next current _ => some (some current)
  | _ => none

def ReadPc.entering : ReadPc → Bool
  | .loadHead => true
  | _ => false

def ReadPc.copied : ReadPc → List Message
  | .copy _ copied => copied
  | .next _ copied => copied
  | .loadSize copied => copied
  | .done copied => copied
  | _ => []

inductive FreePc where
  | loadHead
  | loadNext (current : Addr)
  | free (current : Addr) (next : Option Addr)
  | storeHead
  | storeTail
  | storeSize
  | done
  | crash

def FreePc.loop : Option Addr → FreePc
  | some a => .loadNext a
  | none => .storeHead

def FreePc.step (s : Dequeue) : FreePc → Option (Dequeue × FreePc)
  | .loadHead => some (s, .loop s.head)
  | .loadNext current =>
    match s.heap current with
    | some cell => some (s, .free current cell.next)
    | none => some (s, .crash)
  | .free current next =>
    match s.heap current with
    | some _ => some ({ s with heap := release s.heap current }, .loop next)
    | none => some (s, .crash)
  | .storeHead => some ({ s with head := none }, .storeTail)
  | .storeTail => some ({ s with tail := none }, .storeSize)
  | .storeSize => some ({ s with size := 0 }, .done)
  | .done => none
  | .crash => none

def FreePc.releases (s : Dequeue) : FreePc → List Addr
  | .free current _ => if (s.heap current).isSome then [current] else []
  | _ => []

inductive MainPc where
  | idle
  | push (pc : PushPc)
  | free (pc : FreePc)

/-- A push that has returned leaves the main thread free for its next call. -/
def MainPc.afterPush : PushPc → MainPc
  | .done _ => .idle
  | pc => .push pc

structure System where
  dq : Dequeue
  main : MainPc
  tui : ReadPc
  linked : List Message

def System.start (dq : Dequeue) : System := ⟨dq, .idle, .done [], []⟩

inductive Label where
  /-- The main thread calls `pushRear(msg)`. -/
  | pushRear (msg : Message)
  /-- The main thread calls `freeDequeue`, its last call. -/
  | freeDequeue
  | main (c : Choice)
  /-- The TUI thread calls `displayEntries`; its array may fail to allocate. -/
  | display (allocated : Bool)
  | tui

def System.step : Label → System → Option System
  | .pushRear msg, s =>
    match s.main with
    | .idle => some { s with main := .push (.malloc msg) }
    | _ => none
  | .freeDequeue, s =>
    match s.main with
    | .idle => some { s with main := .free .loadHead }
    | _ => none
  | .main c, s =>
    match s.main with
    | .idle => none
    | .push pc => (pc.step c s.dq).map fun r =>
      { s with dq := r.1, main := .afterPush r.2, linked := s.linked ++ vals (pc.links c s.dq) }
    | .free pc => (pc.step s.dq).map fun r => { s with dq := r.1, main := .free r.2 }
  | .display allocated, s =>
    match s.tui with
    | .done _ => some { s with tui := if allocated then .loadHead else .done [] }
    | _ => none
  | .tui, s => (s.tui.step s.dq).map fun pc => { s with tui := pc }

/-- The nodes that the main thread's next step frees. -/
def System.releases (s : System) : List Addr :=
  match s.main with
  | .idle => []
  | .push pc => pc.releases s.dq
  | .free pc => pc.releases s.dq

end Naarad.Queue
