import Naarad.Message
import Naarad.Lib.LinkedHeap
import Naarad.Lib.LabelledRun

/-!
# The linked event queue, one atomic access at a time (`tui/lock_free_queue.c`)

Every constructor of a program counter stands before one access to shared memory and carries the
locals that are live there. A step that dereferences the null pointer or a released node, or frees
a released node, ends in `crash`. What the C program does not decide itself (the block `malloc`
returns, a weak compare-exchange that fails although the values agree) is a `Choice`.
-/

set_option autoImplicit false

namespace Naarad.Queue

open LinkedHeap

def MAX_ENTRIES : Nat := 60

abbrev Node := Addr × Message

structure Dequeue where
  heap : Heap Message
  head : Option Addr
  tail : Option Addr
  size : Int

structure Choice where
  /-- The address `malloc` returns; `none` when it fails. -/
  fresh : Option Addr
  /-- What the block holds before it is written. -/
  block : Cell Message := ⟨Message.zero, none⟩
  /-- A weak compare-exchange fails in this step whatever it compares. -/
  spurious : Bool := false

/-- `none` is the `exit(1)` after a failed `malloc`. -/
def initDequeue (c : Choice) : Option Dequeue :=
  c.fresh.map fun dummy =>
    { heap := store (fun _ => none) dummy { c.block with next := none }
      head := some dummy
      tail := some dummy
      size := 0 }

def isEmpty (s : Dequeue) : Bool := s.size = 0

def isFull (s : Dequeue) : Bool := (MAX_ENTRIES : Int) ≤ s.size

def exchanges (c : Choice) (current expected : Option Addr) : Bool :=
  !c.spurious && current = expected

inductive PopPc where
  | loadHead
  | loadTail (head : Option Addr)
  | loadNext (head tail : Option Addr)
  | recheck (head tail next : Option Addr)
  | help (tail next : Option Addr)
  | copyMsg (head next : Option Addr)
  | casHead (head next : Option Addr) (msg : Message)
  | fetchSub (head : Option Addr) (msg : Message)
  | free (head : Option Addr) (msg : Message)
  | done (ret : Option Message)
  | crash

/-- One step of `popFront`; `done (some msg)` is `true` with `*msg` written, `done none` is
`false`. -/
def PopPc.step (c : Choice) (s : Dequeue) : PopPc → Option (Dequeue × PopPc)
  | .loadHead => some (s, .loadTail s.head)
  | .loadTail head => some (s, .loadNext head s.tail)
  | .loadNext head tail =>
    match deref s.heap head with
    | some cell => some (s, .recheck head tail cell.next)
    | none => some (s, .crash)
  | .recheck head tail next =>
    if head = s.head then
      if head = tail then
        if next = none then some (s, .done none) else some (s, .help tail next)
      else some (s, .copyMsg head next)
    else some (s, .loadHead)
  | .help tail next =>
    if exchanges c s.tail tail then some ({ s with tail := next }, .loadHead)
    else some (s, .loadHead)
  | .copyMsg head next =>
    match deref s.heap next with
    | some cell => some (s, .casHead head next cell.val)
    | none => some (s, .crash)
  | .casHead head next msg =>
    if exchanges c s.head head then some ({ s with head := next }, .fetchSub head msg)
    else some (s, .loadHead)
  | .fetchSub head msg => some ({ s with size := s.size - 1 }, .free head msg)
  | .free none msg => some (s, .done (some msg))
  | .free (some a) msg =>
    match s.heap a with
    | some _ => some ({ s with heap := release s.heap a }, .done (some msg))
    | none => some (s, .crash)
  | .done _ => none
  | .crash => none

inductive PushPc where
  | malloc (msg : Message)
  | setMsg (msg : Message) (new_node : Addr)
  | setNext (new_node : Addr)
  | loadTail (new_node : Addr)
  | loadNext (new_node : Addr) (tail : Option Addr)
  | recheck (new_node : Addr) (tail next : Option Addr)
  | casNext (new_node : Addr) (tail : Option Addr)
  | help (new_node : Addr) (tail next : Option Addr)
  | swing (new_node : Addr) (tail : Option Addr)
  | fetchAdd
  | evict (pop : PopPc)
  | done (ret : Bool)
  | crash

/-- One step of `pushRear`. No step is possible when `malloc` is offered an allocated address. -/
def PushPc.step (c : Choice) (s : Dequeue) : PushPc → Option (Dequeue × PushPc)
  | .malloc msg =>
    match c.fresh with
    | none => some (s, .done false)
    | some n =>
      if s.heap n = none then some ({ s with heap := store s.heap n c.block }, .setMsg msg n)
      else none
  | .setMsg msg n =>
    match s.heap n with
    | some cell => some ({ s with heap := store s.heap n { cell with val := msg } }, .setNext n)
    | none => some (s, .crash)
  | .setNext n =>
    match s.heap n with
    | some cell => some ({ s with heap := store s.heap n { cell with next := none } }, .loadTail n)
    | none => some (s, .crash)
  | .loadTail n => some (s, .loadNext n s.tail)
  | .loadNext n tail =>
    match deref s.heap tail with
    | some cell => some (s, .recheck n tail cell.next)
    | none => some (s, .crash)
  | .recheck n tail next =>
    if tail = s.tail then
      if next = none then some (s, .casNext n tail) else some (s, .help n tail next)
    else some (s, .loadTail n)
  | .casNext _ none => some (s, .crash)
  | .casNext n (some t) =>
    match s.heap t with
    | some cell =>
      if exchanges c cell.next none then
        some ({ s with heap := store s.heap t { cell with next := some n } }, .swing n (some t))
      else some (s, .loadTail n)
    | none => some (s, .crash)
  | .help n tail next =>
    if exchanges c s.tail tail then some ({ s with tail := next }, .loadTail n)
    else some (s, .loadTail n)
  | .swing n tail =>
    if exchanges c s.tail tail then some ({ s with tail := some n }, .fetchAdd)
    else some (s, .fetchAdd)
  | .fetchAdd =>
    -- the old value decides about the eviction
    some ({ s with size := s.size + 1 },
      if (MAX_ENTRIES : Int) ≤ s.size then .evict .loadHead else .done true)
  | .evict pop =>
    match pop.step c s with
    | some (s', .done _) => some (s', .done true)
    | some (s', .crash) => some (s', .crash)
    | some (s', pop') => some (s', .evict pop')
    | none => none
  | .done _ => none
  | .crash => none

/-! What a step does to the set of linked nodes: the node that its compare-exchange hangs behind
the last one, and the node that it frees. -/

def PopPc.releases (s : Dequeue) : PopPc → List Addr
  | .free (some a) _ => if (s.heap a).isSome then [a] else []
  | _ => []

def PushPc.releases (s : Dequeue) : PushPc → List Addr
  | .evict pop => pop.releases s
  | _ => []

def PushPc.links (c : Choice) (s : Dequeue) : PushPc → List Node
  | .casNext n (some t) =>
    match s.heap t, s.heap n with
    | some cell, some new => if exchanges c cell.next none then [(n, new.val)] else []
    | _, _ => []
  | _ => []

end Naarad.Queue
