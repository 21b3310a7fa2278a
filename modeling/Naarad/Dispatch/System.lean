import Naarad.Dispatch.Link
import Naarad.Lib.LabelledRun
import Mathlib.Logic.Function.Basic

/-!
# The dispatcher and its consumers (`message_queue/message.c`)

The dispatcher hands each message of the POSIX queue to one consumer of its group and waits for the
acknowledgement; after a stop message it does the same with one stop message for every consumer and
closes the pipes. The program starts here when `main` has closed its own copies of the pipe ends,
so the dispatcher and the consumers hold all of them.
-/

set_option autoImplicit false

namespace Naarad.Dispatch

open Function (update)

abbrev Cid := Fin NUM_GROUPS × Fin NUM_CONSUMERS_PER_GROUP

/-- The position of a consumer in the loops over all consumers. -/
def Cid.index (c : Cid) : Nat := c.1.val * NUM_CONSUMERS_PER_GROUP + c.2.val

def firstConsumer : Cid := (⟨0, by decide⟩, ⟨0, by decide⟩)

/-- The next iteration of `for i, for j`. -/
def nextConsumer (c : Cid) : Option Cid :=
  if hj : c.2.val + 1 < NUM_CONSUMERS_PER_GROUP then some (c.1, ⟨c.2.val + 1, hj⟩)
  else if hi : c.1.val + 1 < NUM_GROUPS then some (⟨c.1.val + 1, hi⟩, ⟨0, by decide⟩)
  else none

/-- What a write, `select` and read belong to: a message of the queue, or the stop message. -/
inductive Round where
  | dispatch (group_index : Fin NUM_GROUPS)
  | stop (c : Cid)
  deriving DecidableEq

inductive DispatcherPc where
  | receive
  | write (r : Round) (msg : Message)
  | select (r : Round) (msg : Message)
  | readAck (r : Round) (msg : Message)
  | closeRead (c : Cid)
  | closeWrite (c : Cid)
  | exited
  /-- `msg.category` indexed outside of the arrays. -/
  | fault
  | killed
  deriving DecidableEq

structure Sys where
  mq : List Message
  received : List Message
  dispatcher : DispatcherPc
  current_consumer : Fin NUM_GROUPS → Fin NUM_CONSUMERS_PER_GROUP
  stop_msg : Message
  links : Cid → Link

/-- `stop_msg` and the consumers' `ack_msg` are not initialised; the queue may hold old messages. -/
def Sys.start (mq : List Message) (stop_msg : Message) (ack_msg : Cid → Message) : Sys where
  mq := mq
  received := []
  dispatcher := .receive
  current_consumer := fun _ => ⟨0, by decide⟩
  stop_msg := stop_msg
  links c := .start (ack_msg c)

/-- The outcome of a system call: it succeeds, it gives up (`EAGAIN` of `mq_receive`, 0 of
`select`), or it fails otherwise. -/
inductive Outcome where
  | ok
  | timeout
  | error
  deriving DecidableEq

inductive Label where
  | enqueue (msg : Message)
  | dispatcher (o : Outcome)
  | consumer (c : Cid)
  deriving DecidableEq

namespace Round

def consumer (cur : Fin NUM_GROUPS → Fin NUM_CONSUMERS_PER_GROUP) : Round → Cid
  | .dispatch g => (g, cur g)
  | .stop c => c

end Round

namespace Sys

def stopMessage (s : Sys) : Message := { s.stop_msg with op := STOP_MESSAG }

def setLink (s : Sys) (c : Cid) (l : Link) : Sys := { s with links := update s.links c l }

/-- `(current_consumer[g] + 1) % NUM_CONSUMERS_PER_GROUP`. -/
def advance (j : Fin NUM_CONSUMERS_PER_GROUP) : Fin NUM_CONSUMERS_PER_GROUP :=
  ⟨(j.val + 1) % NUM_CONSUMERS_PER_GROUP, Nat.mod_lt _ (by decide)⟩

@[simp] theorem advance_val (j : Fin NUM_CONSUMERS_PER_GROUP) :
    (advance j).val = (j.val + 1) % NUM_CONSUMERS_PER_GROUP := rfl

/-- What follows a round: the next message, the next stop message, or the closing of the pipes. -/
def finishRound (r : Round) (s : Sys) : Sys :=
  match r with
  | .dispatch g =>
    { s with
      current_consumer := update s.current_consumer g (advance (s.current_consumer g))
      dispatcher := .receive }
  | .stop c =>
    match nextConsumer c with
    | some c' => { s with dispatcher := .write (.stop c') s.stopMessage }
    | none => { s with dispatcher := .closeRead firstConsumer }

def afterClose (c : Cid) : DispatcherPc :=
  match nextConsumer c with
  | some c' => .closeRead c'
  | none => .exited

def die (s : Sys) : Sys :=
  { s with
    dispatcher := .killed
    links := fun c => { s.links c with write_open := false, read_open := false } }

def startStop (s : Sys) : Sys :=
  { s with dispatcher := .write (.stop firstConsumer) s.stopMessage }

def receive (msg : Message) (mq : List Message) (s : Sys) : Sys :=
  let s := { s with mq, received := s.received ++ [msg] }
  if msg.op = STOP_MESSAG then s.startStop
  else if hg : msg.category.toNat < NUM_GROUPS then
    { s with dispatcher := .write (.dispatch ⟨msg.category.toNat, hg⟩) msg }
  else { s with dispatcher := .fault }

/-- One step of `dispatcher`; `C` is the capacity of the pipes to the consumers. -/
def dispatch (C : Nat) (o : Outcome) (s : Sys) : Option Sys :=
  match s.dispatcher, o with
  | .receive, .ok =>
    match s.mq with
    | msg :: mq => some (s.receive msg mq)
    | [] => none
  | .receive, .timeout => some s
  | .receive, .error => some s.startStop
  | .write r msg, .ok =>
    let c := r.consumer s.current_consumer
    if (s.links c).pc.reads then
      ((s.links c).send C msg).map fun l => { s.setLink c l with dispatcher := .select r msg }
    else some s.die
  | .select r msg, .ok =>
    if (s.links (r.consumer s.current_consumer)).readable then
      some { s with dispatcher := .readAck r msg }
    else none
  | .select r _, .timeout =>
    if (s.links (r.consumer s.current_consumer)).readable then none else some (s.finishRound r)
  | .select r _, .error => some (s.finishRound r)
  | .readAck r _, .ok =>
    let c := r.consumer s.current_consumer
    ((s.links c).takeAck).map fun l => (s.setLink c l).finishRound r
  | .closeRead c, .ok =>
    some { s.setLink c { s.links c with read_open := false } with dispatcher := .closeWrite c }
  | .closeWrite c, .ok =>
    some { s.setLink c { s.links c with write_open := false } with dispatcher := afterClose c }
  | _, _ => none

def step (C A : Nat) : Label → Sys → Option Sys
  | .enqueue msg, s => some { s with mq := s.mq ++ [msg] }
  | .dispatcher o, s => s.dispatch C o
  | .consumer c, s => ((s.links c).consumer A).map fun l => s.setLink c l

inductive Moves (C A : Nat) (s : Sys) : Label → Sys → Prop where
  | enqueue (msg) : Moves C A s (.enqueue msg) { s with mq := s.mq ++ [msg] }
  | receive {msg mq} : s.dispatcher = .receive → s.mq = msg :: mq →
    Moves C A s (.dispatcher .ok) (s.receive msg mq)
  | again : s.dispatcher = .receive → Moves C A s (.dispatcher .timeout) s
  | leave : s.dispatcher = .receive → Moves C A s (.dispatcher .error) s.startStop
  | write {r msg l} : s.dispatcher = .write r msg →
    (s.links (r.consumer s.current_consumer)).pc.reads = true →
    (s.links (r.consumer s.current_consumer)).send C msg = some l →
    Moves C A s (.dispatcher .ok)
      { s.setLink (r.consumer s.current_consumer) l with dispatcher := .select r msg }
  | die {r msg} : s.dispatcher = .write r msg →
    (s.links (r.consumer s.current_consumer)).pc.reads = false →
    Moves C A s (.dispatcher .ok) s.die
  | ready {r msg} : s.dispatcher = .select r msg →
    (s.links (r.consumer s.current_consumer)).readable = true →
    Moves C A s (.dispatcher .ok) { s with dispatcher := .readAck r msg }
  | giveUp {r msg o} : s.dispatcher = .select r msg → o ≠ .ok →
    (o = .timeout → (s.links (r.consumer s.current_consumer)).readable = false) →
    Moves C A s (.dispatcher o) (s.finishRound r)
  | readAck {r msg l} : s.dispatcher = .readAck r msg →
    (s.links (r.consumer s.current_consumer)).takeAck = some l →
    Moves C A s (.dispatcher .ok)
      ((s.setLink (r.consumer s.current_consumer) l).finishRound r)
  | closeRead {c} : s.dispatcher = .closeRead c →
    Moves C A s (.dispatcher .ok)
      { s.setLink c { s.links c with read_open := false } with dispatcher := .closeWrite c }
  | closeWrite {c} : s.dispatcher = .closeWrite c →
    Moves C A s (.dispatcher .ok)
      { s.setLink c { s.links c with write_open := false } with dispatcher := afterClose c }
  | consumer {c l} : (s.links c).consumer A = some l →
    Moves C A s (.consumer c) (s.setLink c l)

theorem moves_of_dispatch {C A : Nat} {o : Outcome} {s t : Sys} (h : s.dispatch C o = some t) :
    Moves C A s (.dispatcher o) t := by
  unfold dispatch at h
  split at h
  case h_1 hpc =>
    split at h
    · rename_i hmq
      cases h
      exact .receive hpc hmq
    · cases h
  case h_2 hpc =>
    cases h
    exact .again hpc
  case h_3 hpc =>
    cases h
    exact .leave hpc
  case h_4 hpc =>
    dsimp only at h
    split at h
    · rename_i hreads
      obtain ⟨l, hl, rfl⟩ := Option.map_eq_some_iff.mp h
      exact .write hpc hreads hl
    · rename_i hreads
      cases h
      exact .die hpc (Bool.eq_false_iff.mpr hreads)
  case h_5 hpc =>
    split at h
    · rename_i hready
      cases h
      exact .ready hpc hready
    · cases h
  case h_6 hpc =>
    split at h
    · cases h
    · rename_i hready
      cases h
      exact .giveUp hpc (by decide) fun _ => Bool.eq_false_iff.mpr hready
  case h_7 hpc =>
    cases h
    exact .giveUp hpc (by decide) fun hne => by cases hne
  case h_8 hpc =>
    obtain ⟨l, hl, rfl⟩ := Option.map_eq_some_iff.mp h
    exact .readAck hpc hl
  case h_9 hpc =>
    cases h
    exact .closeRead hpc
  case h_10 hpc =>
    cases h
    exact .closeWrite hpc
  case h_11 => cases h

theorem moves_of_step {C A : Nat} {l : Label} {s t : Sys} (h : step C A l s = some t) :
    Moves C A s l t := by
  cases l with
  | enqueue msg =>
    cases h
    exact .enqueue msg
  | dispatcher o => exact moves_of_dispatch h
  | consumer c =>
    obtain ⟨l, hl, rfl⟩ := Option.map_eq_some_iff.mp h
    exact .consumer hl

@[simp] theorem setLink_self (s : Sys) (c : Cid) (l : Link) : (s.setLink c l).links c = l :=
  Function.update_self ..

theorem setLink_of_ne {s : Sys} {c d : Cid} {l : Link} (h : d ≠ c) :
    (s.setLink c l).links d = s.links d :=
  Function.update_of_ne h ..

theorem setLink_cases {P : Link → Prop} {s : Sys} {c d : Cid} {l : Link} (hself : c = d → P l)
    (hother : c ≠ d → P (s.links c)) : P ((s.setLink d l).links c) := by
  by_cases hc : c = d
  · subst hc
    rw [setLink_self]
    exact hself rfl
  · rw [setLink_of_ne hc]
    exact hother hc

@[simp] theorem finishRound_links (r : Round) (s : Sys) : (s.finishRound r).links = s.links := by
  unfold finishRound
  cases r with
  | dispatch g => rfl
  | stop c =>
    dsimp only
    split <;> rfl

@[simp] theorem receive_links (msg : Message) (mq : List Message) (s : Sys) :
    (s.receive msg mq).links = s.links := by
  unfold receive
  dsimp only
  split
  · rfl
  · split <;> rfl

theorem receive_received (msg : Message) (mq : List Message) (s : Sys) :
    (s.receive msg mq).received = s.received ++ [msg] := by
  unfold receive
  dsimp only
  split
  · rfl
  · split <;> rfl

theorem finishRound_received (r : Round) (s : Sys) : (s.finishRound r).received = s.received := by
  unfold finishRound
  cases r with
  | dispatch g => rfl
  | stop c =>
    dsimp only
    split <;> rfl

end Sys

def firstStart : Sys := .start [] Message.zero fun _ => Message.zero

def secondConsumer : Cid := (firstConsumer.1, Sys.advance firstConsumer.2)

def otherGroup : Cid := (⟨2, by decide⟩, firstConsumer.2)

/-- A zeroed message but for these two fields. -/
def bareMessage (category op : UInt8) : Message := { Message.zero with category, op }

/-- A zeroed message is received and sent on, and `select` times out. -/
def timedOutRound : List Label :=
  [.enqueue Message.zero, .dispatcher .ok, .dispatcher .ok, .dispatcher .timeout]

/-- One message is received, passed on to `c`, processed and acknowledged. -/
def roundTrip (msg : Message) (c : Cid) : List Label :=
  [.enqueue msg, .dispatcher .ok, .dispatcher .ok, .consumer c, .consumer c, .consumer c,
    .dispatcher .ok, .dispatcher .ok]

end Naarad.Dispatch
