import Naarad.Dispatch.Format

/-!
# The dispatcher and its consumers on bytes (`message_queue/message.c`, `consumer.c`)

The queue holds byte strings, the pipes are streams of bytes, and every process reads into a buffer of
`sizeof(Message)` bytes. A `read` returns what there is, at most that many bytes; a `write` puts all
of them in or waits. The histories `sent` and `got` are recorded for the statements only.
-/

set_option autoImplicit false

namespace Naarad.Dispatch

open Function (update)

/-- A message in the POSIX queue, which refuses longer ones. -/
structure Datagram where
  bytes : List UInt8
  size_le : bytes.length ≤ SIZEOF_MESSAGE

/-- Where `consumer` is; what it has read is in its buffer. -/
inductive RawConsumerPc where
  | read
  | process
  | ack (must_stop : Bool)
  | closeRead
  | closeWrite
  | ended
  | killed
  deriving DecidableEq

structure RawLink where
  data : List UInt8
  acks : List UInt8
  write_open : Bool
  read_open : Bool
  raw : RawConsumerPc
  counters : OperationCounters
  msg : MessageBuffer
  ack_msg : MessageBuffer
  sent : List MessageBuffer
  got : List (List UInt8)

namespace RawLink

def start (msg ack_msg : MessageBuffer) : RawLink :=
  ⟨[], [], true, true, .read, .zero, msg, ack_msg, [], []⟩

/-- The place in the program, with the message that the buffer holds there. -/
def pc (w : RawLink) : ConsumerPc :=
  match w.raw with
  | .read => .read
  | .process => .process w.msg.message
  | .ack must_stop => .ack must_stop
  | .closeRead => .closeRead
  | .closeWrite => .closeWrite
  | .ended => .ended
  | .killed => .killed

/-- One step of `consumer`; `A` is the capacity of the pipe of acknowledgements in bytes. -/
def consumer (A : Nat) (w : RawLink) : Option RawLink :=
  match w.raw with
  | .read =>
    if w.data.isEmpty then
      if w.write_open then none else some { w with raw := .closeRead }
    else
      let bytes := w.data.take SIZEOF_MESSAGE
      some { w with
        data := w.data.drop SIZEOF_MESSAGE
        msg := w.msg.overwrite bytes
        got := w.got ++ [bytes]
        raw := .process }
  | .process =>
    if w.msg.op = STOP_MESSAG then some { w with raw := .ack true }
    else some { w with counters := increment_counter w.msg.op w.counters, raw := .ack false }
  | .ack must_stop =>
    if w.read_open then
      let ack_msg := w.ack_msg.setOp ACK_MESSAGE
      if w.acks.length + SIZEOF_MESSAGE ≤ A then
        some { w with
          ack_msg
          acks := w.acks ++ ack_msg.bytes
          raw := if must_stop then .closeRead else .read }
      else none
    else some { w with raw := .killed }
  | .closeRead => some { w with raw := .closeWrite }
  | .closeWrite => some { w with raw := .ended }
  | .ended => none
  | .killed => none

/-- The dispatcher's `write` of a buffer; `C` is the capacity of the pipe in bytes. -/
def send (C : Nat) (msg : MessageBuffer) (w : RawLink) : Option RawLink :=
  if w.data.length + SIZEOF_MESSAGE ≤ C then
    some { w with data := w.data ++ msg.bytes, sent := w.sent ++ [msg] }
  else none

def readable (w : RawLink) : Bool := !w.acks.isEmpty || !w.pc.writes

/-- The dispatcher's `read`; no bytes are the end of the file. -/
def takeAck (w : RawLink) : Option (List UInt8 × RawLink) :=
  if w.acks.isEmpty then
    if w.pc.writes then none else some ([], w)
  else some (w.acks.take SIZEOF_MESSAGE, { w with acks := w.acks.drop SIZEOF_MESSAGE })

end RawLink

inductive RawDispatcherPc where
  | receive
  | write (r : Round)
  | select (r : Round)
  | readAck (r : Round)
  | closeRead (c : Cid)
  | closeWrite (c : Cid)
  | exited
  | fault
  | killed
  deriving DecidableEq

structure RawSys where
  mq : List Datagram
  raw : RawDispatcherPc
  msg : MessageBuffer
  ack_msg : MessageBuffer
  stop_msg : MessageBuffer
  current_consumer : Fin NUM_GROUPS → Fin NUM_CONSUMERS_PER_GROUP
  links : Cid → RawLink

inductive RawLabel where
  | enqueue (m : Datagram)
  | dispatcher (o : Outcome)
  | consumer (c : Cid)

namespace RawSys

/-- No buffer is initialised; the queue may hold old messages. -/
def start (mq : List Datagram) (msg ack_msg stop_msg : MessageBuffer)
    (buffers : Cid → MessageBuffer × MessageBuffer) : RawSys where
  mq := mq
  raw := .receive
  msg := msg
  ack_msg := ack_msg
  stop_msg := stop_msg
  current_consumer := fun _ => firstConsumer.2
  links c := .start (buffers c).1 (buffers c).2

def stopMessage (s : RawSys) : MessageBuffer := s.stop_msg.setOp STOP_MESSAG

/-- The buffer that is written in a round. -/
def outgoing (s : RawSys) : Round → MessageBuffer
  | .dispatch _ => s.msg
  | .stop _ => s.stopMessage

def dispatcher (s : RawSys) : DispatcherPc :=
  match s.raw with
  | .receive => .receive
  | .write r => .write r (s.outgoing r).message
  | .select r => .select r (s.outgoing r).message
  | .readAck r => .readAck r (s.outgoing r).message
  | .closeRead c => .closeRead c
  | .closeWrite c => .closeWrite c
  | .exited => .exited
  | .fault => .fault
  | .killed => .killed

def setLink (s : RawSys) (c : Cid) (w : RawLink) : RawSys := { s with links := update s.links c w }

def finishRound (r : Round) (s : RawSys) : RawSys :=
  match r with
  | .dispatch g =>
    { s with
      current_consumer := update s.current_consumer g (Sys.advance (s.current_consumer g))
      raw := .receive }
  | .stop c =>
    match nextConsumer c with
    | some c' => { s with raw := .write (.stop c') }
    | none => { s with raw := .closeRead firstConsumer }

def afterClose (c : Cid) : RawDispatcherPc :=
  match nextConsumer c with
  | some c' => .closeRead c'
  | none => .exited

def die (s : RawSys) : RawSys :=
  { s with
    raw := .killed
    links := fun c => { s.links c with write_open := false, read_open := false } }

def startStop (s : RawSys) : RawSys := { s with raw := .write (.stop firstConsumer) }

def receive (m : Datagram) (mq : List Datagram) (s : RawSys) : RawSys :=
  let s := { s with mq, msg := s.msg.overwrite m.bytes }
  if s.msg.op = STOP_MESSAG then s.startStop
  else if hg : s.msg.category.toNat < NUM_GROUPS then
    { s with raw := .write (.dispatch ⟨s.msg.category.toNat, hg⟩) }
  else { s with raw := .fault }

/-- One step of `dispatcher`; `C` is the capacity of the pipes to the consumers in bytes. -/
def dispatch (C : Nat) (o : Outcome) (s : RawSys) : Option RawSys :=
  match s.raw, o with
  | .receive, .ok =>
    match s.mq with
    | m :: mq => some (s.receive m mq)
    | [] => none
  | .receive, .timeout => some s
  | .receive, .error => some s.startStop
  | .write r, .ok =>
    let c := r.consumer s.current_consumer
    if (s.links c).pc.reads then
      ((s.links c).send C (s.outgoing r)).map fun w => { s.setLink c w with raw := .select r }
    else some s.die
  | .select r, .ok =>
    if (s.links (r.consumer s.current_consumer)).readable then some { s with raw := .readAck r }
    else none
  | .select r, .timeout =>
    if (s.links (r.consumer s.current_consumer)).readable then none else some (s.finishRound r)
  | .select r, .error => some (s.finishRound r)
  | .readAck r, .ok =>
    let c := r.consumer s.current_consumer
    ((s.links c).takeAck).map fun p =>
      ({ s.setLink c p.2 with ack_msg := s.ack_msg.overwrite p.1 }).finishRound r
  | .closeRead c, .ok =>
    some { s.setLink c { s.links c with read_open := false } with raw := .closeWrite c }
  | .closeWrite c, .ok =>
    some { s.setLink c { s.links c with write_open := false } with raw := afterClose c }
  | _, _ => none

def step (C A : Nat) : RawLabel → RawSys → Option RawSys
  | .enqueue m, s => some { s with mq := s.mq ++ [m] }
  | .dispatcher o, s => s.dispatch C o
  | .consumer c, s => ((s.links c).consumer A).map fun w => s.setLink c w

end RawSys

end Naarad.Dispatch
