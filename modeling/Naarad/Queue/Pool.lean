import Naarad.Queue.Shape
import Mathlib.Data.Fintype.Card
import Mathlib.Data.Fintype.Basic

/-!
# Any number of threads on the queue (`tui/lock_free_queue.c`)

Each thread makes `pushRear` and `popFront` calls one after the other, and the atomic steps of all
of them interleave over one heap. A block that was freed keeps what it holds, and a call that still
has its address goes on reading it, until `malloc` hands the block out again.
-/

set_option autoImplicit false

namespace Naarad.Queue

open LinkedHeap

structure Shared where
  dq : Dequeue
  /-- The blocks that were freed and not handed out since. -/
  freed : List Addr

def PopPc.share (c : Choice) (m : Shared) : PopPc → Option (Shared × PopPc)
  | .free (some a) msg =>
    if a ∈ m.freed then some (m, .crash)
    else some ({ m with freed := a :: m.freed }, .done (some msg))
  | pc => (pc.step c m.dq).map fun r => ({ m with dq := r.1 }, r.2)

/-- `malloc` returns a block that was never handed out, or one that was freed. -/
def PushPc.share (c : Choice) (m : Shared) : PushPc → Option (Shared × PushPc)
  | .malloc msg =>
    match c.fresh with
    | none => some (m, .done false)
    | some n =>
      if m.dq.heap n = none ∨ n ∈ m.freed then
        some (⟨{ m.dq with heap := store m.dq.heap n c.block }, m.freed.filter (· ≠ n)⟩,
          .setMsg msg n)
      else none
  | .evict pop =>
    match pop.share c m with
    | some (m', .done _) => some (m', .done true)
    | some (m', .crash) => some (m', .crash)
    | some (m', pop') => some (m', .evict pop')
    | none => none
  | pc => (pc.step c m.dq).map fun r => ({ m with dq := r.1 }, r.2)

/-! The message that a step takes off the list, with the compare-exchange on `dq.head`. -/

def PopPc.delivers (c : Choice) (s : Dequeue) : PopPc → List Message
  | .casHead head _ msg => if exchanges c s.head head then [msg] else []
  | _ => []

def PushPc.delivers (c : Choice) (s : Dequeue) : PushPc → List Message
  | .evict pop => pop.delivers c s
  | _ => []

/-- The messages that a call has put on the list and taken off it so far. -/
structure Effects where
  links : List Message
  takes : List Message

def Effects.none : Effects := ⟨[], []⟩

/-- A call keeps its program counter after it has returned, until the thread makes its next one. -/
inductive PoolCall where
  | idle
  | push (msg : Message) (pc : PushPc) (e : Effects)
  /-- `sawEmpty` says whether the list held no message when `head->next` was last loaded. -/
  | pop (pc : PopPc) (e : Effects) (sawEmpty : Bool)

def PoolCall.inProgress : PoolCall → Bool
  | .idle => false
  | .push _ (.done _) _ => false
  | .pop (.done _) _ _ => false
  | _ => true

def PoolCall.crashed : PoolCall → Bool
  | .push _ .crash _ => true
  | .pop .crash _ _ => true
  | _ => false

structure Pool (n : Nat) extends Shared where
  calls : Fin n → PoolCall
  /-- Every node linked so far with the message that its `pushRear` was given, and in front of them
  the node of `initDequeue`. -/
  linked : List Node
  /-- The messages taken off the list by pops and evictions. -/
  delivered : List Message

def PopPc.looks (drained sawEmpty : Bool) : PopPc → Bool
  | .loadNext _ _ => drained
  | _ => sawEmpty

inductive PoolLabel (n : Nat) where
  | pushRear (i : Fin n) (msg : Message)
  | popFront (i : Fin n)
  | run (i : Fin n) (c : Choice)

namespace Pool
variable {n : Nat}

/-- The queue that `initDequeue` leaves. -/
def start (n : Nat) (c : Choice) : Option (Pool n) :=
  (initDequeue c).bind fun dq => dq.head.map fun dummy =>
    { dq := dq
      freed := []
      calls := fun _ => .idle
      linked := [(dummy, c.block.val)]
      delivered := [] }

def setCall (s : Pool n) (i : Fin n) (call : PoolCall) : Pool n :=
  { s with calls := Function.update s.calls i call }

/-- Everything that was linked has been delivered. -/
def drained (s : Pool n) : Bool := s.linked.length = s.delivered.length + 1

/-- The next step of thread `i`, whose call is `call`. -/
def run (i : Fin n) (c : Choice) (s : Pool n) (call : PoolCall) : Option (Pool n) :=
  match call with
  | .idle => none
  | .push msg pc e =>
    let nodes := (pc.links c s.dq).map fun node => (node.1, msg)
    let taken := pc.delivers c s.dq
    (pc.share c s.toShared).map fun r =>
      { toShared := r.1
        calls := Function.update s.calls i
          (.push msg r.2 ⟨e.links ++ vals nodes, e.takes ++ taken⟩)
        linked := s.linked ++ nodes
        delivered := s.delivered ++ taken }
  | .pop pc e sawEmpty =>
    let taken := pc.delivers c s.dq
    (pc.share c s.toShared).map fun r =>
      { toShared := r.1
        calls := Function.update s.calls i
          (.pop r.2 ⟨e.links, e.takes ++ taken⟩ (pc.looks s.drained sawEmpty))
        linked := s.linked
        delivered := s.delivered ++ taken }

def step : PoolLabel n → Pool n → Option (Pool n)
  | .pushRear i msg, s =>
    if (s.calls i).inProgress then none else some (s.setCall i (.push msg (.malloc msg) .none))
  | .popFront i, s =>
    if (s.calls i).inProgress then none else some (s.setCall i (.pop .loadHead .none false))
  | .run i c, s => s.run i c (s.calls i)

end Pool

/-! The nodes that a call will compare `dq.head`, `dq.tail` or each other with. -/

def PopPc.expects : PopPc → List Addr
  | .loadTail head => head.toList
  | .loadNext head tail => head.toList ++ tail.toList
  | .recheck head tail _ => head.toList ++ tail.toList
  | .help tail _ => tail.toList
  | .copyMsg head _ => head.toList
  | .casHead head _ _ => head.toList
  | _ => []

def PushPc.expects : PushPc → List Addr
  | .loadNext _ tail => tail.toList
  | .recheck _ tail _ => tail.toList
  | .casNext _ tail => tail.toList
  | .help _ tail _ => tail.toList
  | .swing _ tail => tail.toList
  | .evict pop => pop.expects
  | _ => []

def PoolCall.expects : PoolCall → List Addr
  | .idle => []
  | .push _ pc _ => pc.expects
  | .pop pc _ _ => pc.expects

def PoolCall.allocates : PoolCall → Bool
  | .push _ (.malloc _) _ => true
  | _ => false

/-- A step that allocates does not get back a node that a running call still expects. -/
def NoReuse {n : Nat} : PoolLabel n → Pool n → Prop
  | .run i c, s =>
    (s.calls i).allocates = true → ∀ a ∈ c.fresh.toList, ∀ j, a ∉ (s.calls j).expects
  | _, _ => True

instance decidableNoReuse {n : Nat} : ∀ l (s : Pool n), Decidable (NoReuse l s)
  | .pushRear _ _, _ => .isTrue trivial
  | .popFront _, _ => .isTrue trivial
  | .run i c, s => inferInstanceAs (Decidable ((s.calls i).allocates = true →
      ∀ a ∈ c.fresh.toList, ∀ j, a ∉ (s.calls j).expects))

end Naarad.Queue
