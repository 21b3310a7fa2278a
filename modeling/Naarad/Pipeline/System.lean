import Naarad.Dispatch.System
import Naarad.HandleEvent

/-!
# The monitor, the dispatcher and the consumers together

The process that polls the perf buffer handles one event after another and sends each message to the
POSIX queue, while the dispatcher takes the messages out of it and the consumers process them. What
the monitor sees of this interleaving is a sequence of calls of `handle_event`.
-/

set_option autoImplicit false

namespace Naarad

open CharArray Dispatch LabelledRun

/-- The message that `handle_event` has counted and pushed and is now sending. -/
structure Sending where
  msg : Message
  pushed : Queue.Ret
  attempts : List SendOutcome

def Sending.tried (o : SendOutcome) (p : Sending) : Sending :=
  { p with attempts := p.attempts ++ [o] }

/-- `events` and `handled` are histories, for the statements only. -/
structure Pipeline where
  monitor : Monitor
  events : List data_t
  sending : Option Sending
  handled : List Handled
  sys : Sys

namespace Pipeline

/-- The processes after the forks; the queue may hold the messages of an earlier run. -/
def start (mon : Monitor) (mq : List Message) (stop_msg : Message) (ack_msg : Cid → Message) :
    Pipeline :=
  ⟨mon, [], none, [], .start mq stop_msg ack_msg⟩

inductive Label where
  | event (stack : Message) (push : List Queue.Choice) (e : data_t)
  | attempt (o : SendOutcome)
  | dispatcher (o : Outcome)
  | consumer (c : Cid)

/-- `send_with_retry` returns `ret`, and `handle_event` returns with it. -/
def finish (p : Sending) (ret : Int) (s : Pipeline) : Pipeline :=
  { s with sending := none, handled := s.handled ++ [⟨p.msg, p.pushed, ret, p.attempts⟩] }

/-- `increment_counter` and `pushRear`; the queue is `dq` afterwards. -/
def count (e : data_t) (msg : Message) (dq : Queue.Dequeue) (s : Pipeline) : Pipeline :=
  { s with
    monitor := { s.monitor with counters := increment_counter msg.op s.monitor.counters, dq }
    events := s.events ++ [e] }

/-- `handle_event` up to the loop of `send_with_retry`. -/
def takeEvent (stack : Message) (push : List Queue.Choice) (e : data_t) (s : Pipeline) :
    Option Pipeline :=
  match s.sending with
  | some _ => none
  | none => do
    let msg ← buildMessage s.monitor.map stack e
    let (dq, pushed) ← (Queue.Call.pushRear msg).run push s.monitor.dq
    let s := s.count e msg dq
    pure <| if s.monitor.mq_open then { s with sending := some ⟨msg, pushed, []⟩ }
      else s.finish ⟨msg, pushed, []⟩ (-1)

/-- The queue takes the message. -/
def accept (p : Sending) (s : Pipeline) : Pipeline :=
  { s.finish p 0 with
    monitor := { s.monitor with mq := s.monitor.mq ++ [p.msg] }
    sys := { s.sys with mq := s.sys.mq ++ [p.msg] } }

/-- One `mq_send`; a queue of `M` messages is full, and then it does not succeed. -/
def attempt (M : Nat) (o : SendOutcome) (s : Pipeline) : Option Pipeline :=
  match s.sending, o with
  | none, _ => none
  | some p, .sent => if s.sys.mq.length < M then some (s.accept (p.tried .sent)) else none
  | some p, .again =>
    if (p.tried .again).attempts.length < MAX_RETRIES then
      some { s with sending := some (p.tried .again) }
    else some (s.finish (p.tried .again) (-1))
  | some p, .error => some (s.finish (p.tried .error) (-1))

/-- `M`, `C` and `A` are the capacities of the POSIX queue, of the pipes to the consumers and of the
pipes of acknowledgements. -/
def step (M C A : Nat) : Label → Pipeline → Option Pipeline
  | .event stack push e, s => s.takeEvent stack push e
  | .attempt o, s => s.attempt M o
  | .dispatcher o, s => (s.sys.dispatch C o).map fun t => { s with sys := t }
  | .consumer c, s => (Sys.step C A (.consumer c) s.sys).map fun t => { s with sys := t }

inductive Moves (M C A : Nat) (s : Pipeline) : Label → Pipeline → Prop where
  | event {stack push e msg dq pushed} : s.sending = none → s.monitor.mq_open = true →
    buildMessage s.monitor.map stack e = some msg →
    (Queue.Call.pushRear msg).run push s.monitor.dq = some (dq, pushed) →
    Moves M C A s (.event stack push e) { s.count e msg dq with sending := some ⟨msg, pushed, []⟩ }
  | refuse {stack push e msg dq pushed} : s.sending = none → s.monitor.mq_open = false →
    buildMessage s.monitor.map stack e = some msg →
    (Queue.Call.pushRear msg).run push s.monitor.dq = some (dq, pushed) →
    Moves M C A s (.event stack push e) ((s.count e msg dq).finish ⟨msg, pushed, []⟩ (-1))
  | sent {p} : s.sending = some p → s.sys.mq.length < M →
    Moves M C A s (.attempt .sent) (s.accept (p.tried .sent))
  | again {p} : s.sending = some p → (p.tried .again).attempts.length < MAX_RETRIES →
    Moves M C A s (.attempt .again) { s with sending := some (p.tried .again) }
  | giveUp {p} : s.sending = some p → ¬ (p.tried .again).attempts.length < MAX_RETRIES →
    Moves M C A s (.attempt .again) (s.finish (p.tried .again) (-1))
  | error {p} : s.sending = some p →
    Moves M C A s (.attempt .error) (s.finish (p.tried .error) (-1))
  | dispatcher {o t} : Sys.step C A (.dispatcher o) s.sys = some t →
    Moves M C A s (.dispatcher o) { s with sys := t }
  | consumer {c t} : Sys.step C A (.consumer c) s.sys = some t →
    Moves M C A s (.consumer c) { s with sys := t }

theorem moves_of_takeEvent {M C A : Nat} {stack : Message} {push : List Queue.Choice} {e : data_t}
    {s t : Pipeline} (h : s.takeEvent stack push e = some t) :
    Moves M C A s (.event stack push e) t := by
  unfold takeEvent at h
  split at h
  · cases h
  · rename_i hidle
    obtain ⟨msg, hmsg, h⟩ := Option.bind_eq_some_iff.mp h
    obtain ⟨⟨dq, pushed⟩, hpush, h⟩ := Option.bind_eq_some_iff.mp h
    cases Option.some.inj h
    by_cases hopen : s.monitor.mq_open = true
    · rw [if_pos (show (s.count e msg dq).monitor.mq_open = true from hopen)]
      exact .event hidle hopen hmsg hpush
    · rw [if_neg (show ¬ (s.count e msg dq).monitor.mq_open = true from hopen)]
      exact .refuse hidle (Bool.eq_false_iff.mpr hopen) hmsg hpush

theorem moves_of_attempt {M C A : Nat} {o : SendOutcome} {s t : Pipeline}
    (h : s.attempt M o = some t) : Moves M C A s (.attempt o) t := by
  unfold attempt at h
  split at h
  · cases h
  · rename_i hsending
    split at h
    · rename_i hroom
      cases h
      exact .sent hsending hroom
    · cases h
  · rename_i hsending
    split at h
    · rename_i hleft
      cases h
      exact .again hsending hleft
    · rename_i hleft
      cases h
      exact .giveUp hsending hleft
  · rename_i hsending
    cases h
    exact .error hsending

theorem moves_of_step {M C A : Nat} {l : Label} {s t : Pipeline} (h : step M C A l s = some t) :
    Moves M C A s l t := by
  cases l with
  | event stack push e => exact moves_of_takeEvent h
  | attempt o => exact moves_of_attempt h
  | dispatcher o =>
    obtain ⟨t, ht, rfl⟩ := Option.map_eq_some_iff.mp h
    exact .dispatcher ht
  | consumer c =>
    obtain ⟨t, ht, rfl⟩ := Option.map_eq_some_iff.mp h
    exact .consumer ht

def freshStart : Pipeline := .start (.fresh 0) [] Message.zero fun _ => Message.zero

/-- An `open` is sent at the second attempt and processed, while an event of no operation waits. -/
def openProcessed : List Label :=
  let opened := { data_t.zero with operation := memcpy 16 (ascii "open") fun _ => 0 }
  [.event Message.zero (Env.quiet 1 fun _ => .sent).push opened, .attempt .again, .attempt .sent,
    .dispatcher .ok, .dispatcher .ok, .consumer firstConsumer,
    .event Message.zero (Env.quiet 2 fun _ => .sent).push data_t.zero, .consumer firstConsumer]

theorem openProcessed_runs : (exec (step 10 1 1) openProcessed freshStart).isSome := by
  decide +kernel

end Pipeline

end Naarad
