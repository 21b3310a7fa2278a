import Naarad.Dispatch.Wire
import Naarad.Lib.Framing
import Mathlib.Data.Option.Basic

/-!
# Messages over streams of bytes

Every write puts in one whole buffer and every read takes out as many bytes, so the streams stay
cut into buffers: the system on bytes and the system on messages take the same steps.
-/

set_option autoImplicit false

namespace Naarad.Dispatch

open LabelledRun Framing
open Function (update)

/-- The streams hold whole buffers, `waiting` and `answers`, and the link holds their messages. What
the reads returned and what still waits are the buffers that were sent, byte for byte. -/
structure Streams (waiting answers : List MessageBuffer) (w : RawLink) (l : Link) : Prop where
  raw_data : w.data = frames MessageBuffer.bytes waiting
  raw_acks : w.acks = frames MessageBuffer.bytes answers
  data : l.data = waiting.map MessageBuffer.message
  acks : l.acks = answers.map MessageBuffer.message
  got : w.got ++ waiting.map MessageBuffer.bytes = w.sent.map MessageBuffer.bytes
  sent : l.sent = w.sent.map MessageBuffer.message
  write_open : l.write_open = w.write_open
  read_open : l.read_open = w.read_open
  pc : l.pc = w.pc
  counters : l.counters = w.counters
  ack_msg : l.ack_msg = w.ack_msg.message

def RawLink.Carries (w : RawLink) (l : Link) : Prop := ∃ waiting answers, Streams waiting answers w l

theorem RawLink.Carries.closeRead {w : RawLink} {l : Link} (h : w.Carries l) :
    RawLink.Carries { w with read_open := false } { l with read_open := false } := by
  obtain ⟨waiting, answers, hlink⟩ := h
  exact ⟨waiting, answers, { hlink with read_open := rfl }⟩

theorem RawLink.Carries.closeWrite {w : RawLink} {l : Link} (h : w.Carries l) :
    RawLink.Carries { w with write_open := false } { l with write_open := false } := by
  obtain ⟨waiting, answers, hlink⟩ := h
  exact ⟨waiting, answers, { hlink with write_open := rfl }⟩

namespace MessageBuffer

theorem overwrite_bytes (b c : MessageBuffer) : b.overwrite c.bytes = c := by
  cases c with
  | mk bytes size_eq => exact MessageBuffer.mk.injEq .. ▸ bytes_overwrite b size_eq

end MessageBuffer

theorem isEmpty_stream (bs : List MessageBuffer) :
    (frames MessageBuffer.bytes bs).isEmpty = bs.isEmpty :=
  frames_isEmpty MessageBuffer.size_eq (by decide) bs

theorem room_stream {bs : List MessageBuffer} {stream : List UInt8} {msgs : List Message}
    (hstream : stream = frames MessageBuffer.bytes bs) (hmsgs : msgs = bs.map MessageBuffer.message)
    (capacity : Nat) :
    stream.length + SIZEOF_MESSAGE ≤ capacity ↔ msgs.length < capacity / SIZEOF_MESSAGE := by
  rw [hstream, hmsgs, List.length_map]
  exact room_iff MessageBuffer.size_eq (by decide) bs capacity

namespace Streams

variable {waiting answers : List MessageBuffer} {w : RawLink} {l : Link}

theorem readable (h : Streams waiting answers w l) : l.readable = w.readable := by
  unfold Link.readable RawLink.readable
  rw [h.pc, h.raw_acks, h.acks, isEmpty_stream, List.isEmpty_map]

theorem send {C : Nat} (h : Streams waiting answers w l) (b : MessageBuffer) :
    Option.Rel RawLink.Carries (w.send C b) (l.send (C / SIZEOF_MESSAGE) b.message) := by
  have hroom := room_stream h.raw_data h.data C
  unfold RawLink.send Link.send
  by_cases hlt : l.data.length < C / SIZEOF_MESSAGE
  · rw [if_pos (hroom.mpr hlt), if_pos hlt]
    refine .some ⟨waiting ++ [b], answers,
      { h with raw_data := ?_, data := ?_, got := ?_, sent := ?_ }⟩
    · rw [frames_concat, h.raw_data]
    · rw [List.map_append, h.data, List.map_singleton]
    · rw [List.map_append, List.map_append, ← h.got, List.append_assoc]
    · rw [List.map_append, h.sent, List.map_singleton]
  · rw [if_neg (mt hroom.mp hlt), if_neg hlt]
    exact .none

theorem takeAck (h : Streams waiting answers w l) :
    Option.Rel (fun p l' => RawLink.Carries p.2 l') w.takeAck l.takeAck := by
  unfold RawLink.takeAck Link.takeAck
  rw [h.raw_acks, isEmpty_stream, h.acks]
  cases answers with
  | nil =>
    dsimp only [List.isEmpty_nil, List.map_nil]
    rw [if_pos rfl, h.pc]
    split
    · exact .none
    · exact .some ⟨waiting, [], h⟩
  | cons b answers =>
    refine .some ⟨waiting, answers, { h with raw_acks := ?_, acks := rfl }⟩
    exact drop_frames MessageBuffer.size_eq b answers

theorem consumer {A : Nat} (h : Streams waiting answers w l) :
    Option.Rel RawLink.Carries (w.consumer A) (l.consumer (A / SIZEOF_MESSAGE)) := by
  have hpc := h.pc
  unfold RawLink.consumer Link.consumer
  unfold RawLink.pc at hpc
  cases hraw : w.raw with
  | read =>
    rw [hraw] at hpc
    rw [hpc, h.raw_data, isEmpty_stream, h.data]
    cases waiting with
    | nil =>
      dsimp only [List.isEmpty_nil, List.map_nil]
      rw [if_pos rfl, h.write_open]
      split
      · exact .none
      · exact .some ⟨[], answers, { h with raw_data := rfl, data := rfl, write_open := rfl, pc := rfl }⟩
    | cons b waiting =>
      dsimp only [List.isEmpty_cons, List.map_cons]
      rw [if_neg Bool.false_ne_true, take_frames MessageBuffer.size_eq,
        drop_frames MessageBuffer.size_eq, w.msg.overwrite_bytes]
      refine .some ⟨waiting, answers, { h with raw_data := rfl, data := rfl, got := ?_, pc := rfl }⟩
      rw [List.append_assoc]
      exact h.got
  | process =>
    rw [hraw] at hpc
    rw [hpc]
    dsimp only
    have hop : w.msg.message.op = w.msg.op := rfl
    rw [hop]
    split
    · exact .some ⟨waiting, answers, { h with pc := rfl }⟩
    · exact .some ⟨waiting, answers, { h with pc := rfl, counters := by rw [h.counters] }⟩
  | ack must_stop =>
    rw [hraw] at hpc
    rw [hpc]
    dsimp only
    have hroom := room_stream h.raw_acks h.acks A
    rw [h.read_open]
    split
    · by_cases hlt : l.acks.length < A / SIZEOF_MESSAGE
      · rw [if_pos (hroom.mpr hlt), if_pos hlt]
        have hack : { l.ack_msg with op := ACK_MESSAGE } = (w.ack_msg.setOp ACK_MESSAGE).message := by
          rw [MessageBuffer.message_setOp, h.ack_msg]
        refine .some ⟨waiting, answers ++ [w.ack_msg.setOp ACK_MESSAGE],
          { h with
            raw_acks := ?_, acks := ?_, read_open := rfl, pc := ?_, ack_msg := hack }⟩
        · rw [frames_concat, h.raw_acks]
        · rw [List.map_append, h.acks, hack, List.map_singleton]
        · cases must_stop <;> rfl
      · rw [if_neg (mt hroom.mp hlt), if_neg hlt]
        exact .none
    · exact .some ⟨waiting, answers, { h with read_open := rfl, pc := rfl }⟩
  | closeRead =>
    rw [hraw] at hpc
    rw [hpc]
    exact .some ⟨waiting, answers, { h with pc := rfl }⟩
  | closeWrite =>
    rw [hraw] at hpc
    rw [hpc]
    exact .some ⟨waiting, answers, { h with pc := rfl }⟩
  | ended =>
    rw [hraw] at hpc
    rw [hpc]
    exact .none
  | killed =>
    rw [hraw] at hpc
    rw [hpc]
    exact .none

end Streams

/-- The buffer once the queue has been received; a short message leaves the end of it as it was. -/
def MessageBuffer.afterAll (b : MessageBuffer) (mq : List Datagram) : MessageBuffer :=
  mq.foldl (fun b m => b.overwrite m.bytes) b

/-- The messages that the dispatcher will find in its buffer. -/
def MessageBuffer.pending (b : MessageBuffer) : List Datagram → List Message
  | [] => []
  | m :: mq => (b.overwrite m.bytes).message :: (b.overwrite m.bytes).pending mq

/-- The label of the message level, when `b` is in the buffer once the queue is empty. -/
def RawLabel.toLabel (b : MessageBuffer) : RawLabel → Label
  | .enqueue m => .enqueue (b.overwrite m.bytes).message
  | .dispatcher o => .dispatcher o
  | .consumer c => .consumer c

def RawLabel.next (b : MessageBuffer) : RawLabel → MessageBuffer
  | .enqueue m => b.overwrite m.bytes
  | .dispatcher _ => b
  | .consumer _ => b

/-- The run of the message level. -/
def MessageBuffer.labels : MessageBuffer → List RawLabel → List Label :=
  relabel RawLabel.toLabel RawLabel.next

theorem MessageBuffer.pending_concat (b : MessageBuffer) (mq : List Datagram) (m : Datagram) :
    b.pending (mq ++ [m]) = b.pending mq ++ [((b.afterAll mq).overwrite m.bytes).message] := by
  induction mq generalizing b with
  | nil => rfl
  | cons m' mq ih => exact congrArg (List.cons _) (ih _)

namespace RawSys

/-- What the dispatcher's place in the program does not depend on; `last` is what the buffer holds
once the queue is empty. -/
structure Holds (last : MessageBuffer) (s : RawSys) (t : Sys) : Prop where
  last : s.msg.afterAll s.mq = last
  mq : t.mq = s.msg.pending s.mq
  current_consumer : t.current_consumer = s.current_consumer
  stop_msg : t.stop_msg = s.stop_msg.message
  links : ∀ c, (s.links c).Carries (t.links c)

structure Carries (last : MessageBuffer) (s : RawSys) (t : Sys) : Prop extends
    Holds last s t where
  dispatcher : t.dispatcher = s.dispatcher

variable {last : MessageBuffer} {s : RawSys} {t : Sys} {c : Cid} {w : RawLink} {l : Link}

theorem Holds.stopMessage (h : Holds last s t) : t.stopMessage = s.stopMessage.message := by
  rw [Sys.stopMessage, RawSys.stopMessage, MessageBuffer.message_setOp, h.stop_msg]

theorem Holds.setLink (h : Holds last s t) (hlink : w.Carries l) :
    Holds last (s.setLink c w) (t.setLink c l) := by
  refine { h with links := ?_ }
  intro d
  dsimp only [RawSys.setLink, Sys.setLink]
  by_cases hd : d = c
  · subst hd
    rw [Function.update_self, Function.update_self]
    exact hlink
  · rw [Function.update_of_ne hd, Function.update_of_ne hd]
    exact h.links d

theorem Holds.startStop (h : Holds last s t) : Carries last s.startStop t.startStop :=
  { h with dispatcher := congrArg (DispatcherPc.write _) h.stopMessage }

theorem Holds.finishRound (h : Holds last s t) (r : Round) :
    Carries last (s.finishRound r) (t.finishRound r) := by
  cases r with
  | dispatch g =>
    refine { h with dispatcher := rfl, current_consumer := ?_ }
    dsimp only [Sys.finishRound, RawSys.finishRound]
    rw [h.current_consumer]
  | stop c =>
    dsimp only [Sys.finishRound, RawSys.finishRound]
    cases nextConsumer c with
    | none => exact { h with dispatcher := rfl }
    | some c' => exact { h with dispatcher := congrArg (DispatcherPc.write _) h.stopMessage }

theorem Holds.die (h : Holds last s t) : Carries last s.die t.die := by
  refine { h with dispatcher := rfl, links := ?_ }
  intro c
  exact (h.links c).closeRead.closeWrite

theorem Holds.receive (h : Holds last s t) {m : Datagram} {mq : List Datagram} (hmq : s.mq = m :: mq) :
    Carries last (s.receive m mq)
      (t.receive (s.msg.overwrite m.bytes).message ((s.msg.overwrite m.bytes).pending mq)) := by
  unfold RawSys.receive Sys.receive
  dsimp only
  have hop : (s.msg.overwrite m.bytes).message.op = (s.msg.overwrite m.bytes).op := rfl
  have hcategory : (s.msg.overwrite m.bytes).message.category =
    (s.msg.overwrite m.bytes).category := rfl
  have hlast : (s.msg.overwrite m.bytes).afterAll mq = last := by
    rw [← h.last, hmq]
    rfl
  rw [hop, hcategory]
  split
  · apply Holds.startStop
    exact { h with last := hlast, mq := rfl }
  · split
    · exact { h with last := hlast, mq := rfl, dispatcher := rfl }
    · exact { h with last := hlast, mq := rfl, dispatcher := rfl }

theorem Carries.dispatch {C : Nat} {o : Outcome} (h : Carries last s t) :
    Option.Rel (Carries last) (s.dispatch C o) (t.dispatch (C / SIZEOF_MESSAGE) o) := by
  have hpc := h.dispatcher
  unfold RawSys.dispatch Sys.dispatch
  unfold RawSys.dispatcher at hpc
  cases hraw : s.raw with
  | receive =>
    rw [hraw] at hpc
    rw [hpc]
    cases o with
    | ok =>
      dsimp only
      rw [h.mq]
      cases hmq : s.mq with
      | nil => exact .none
      | cons m mq => exact .some (h.receive hmq)
    | timeout => exact .some h
    | error => exact .some h.startStop
  | write r =>
    rw [hraw] at hpc
    rw [hpc]
    cases o with
    | ok =>
      dsimp only
      rw [h.current_consumer]
      obtain ⟨waiting, answers, hlink⟩ := h.links (r.consumer s.current_consumer)
      rw [hlink.pc]
      split
      · apply rel_map (hlink.send (s.outgoing r))
        intro w l hcarries
        exact { h.setLink hcarries with dispatcher := by cases r <;> rfl }
      · exact .some h.die
    | timeout => exact .none
    | error => exact .none
  | select r =>
    rw [hraw] at hpc
    rw [hpc]
    cases o with
    | ok =>
      dsimp only
      rw [h.current_consumer]
      obtain ⟨waiting, answers, hlink⟩ := h.links (r.consumer s.current_consumer)
      rw [hlink.readable]
      split
      · exact .some { h with current_consumer := rfl, dispatcher := by cases r <;> rfl }
      · exact .none
    | timeout =>
      dsimp only
      rw [h.current_consumer]
      obtain ⟨waiting, answers, hlink⟩ := h.links (r.consumer s.current_consumer)
      rw [hlink.readable]
      split
      · exact .none
      · exact .some (h.finishRound r)
    | error => exact .some (h.finishRound r)
  | readAck r =>
    rw [hraw] at hpc
    rw [hpc]
    cases o with
    | ok =>
      dsimp only
      rw [h.current_consumer]
      obtain ⟨waiting, answers, hlink⟩ := h.links (r.consumer s.current_consumer)
      apply rel_map hlink.takeAck
      intro p l hcarries
      apply Holds.finishRound
      exact { h.setLink hcarries with }
    | timeout => exact .none
    | error => exact .none
  | closeRead c =>
    rw [hraw] at hpc
    rw [hpc]
    cases o with
    | ok =>
      exact .some { h.setLink (h.links c).closeRead with dispatcher := rfl }
    | timeout => exact .none
    | error => exact .none
  | closeWrite c =>
    rw [hraw] at hpc
    rw [hpc]
    cases o with
    | ok =>
      refine .some { h.setLink (h.links c).closeWrite with dispatcher := ?_ }
      dsimp only [RawSys.dispatcher, RawSys.afterClose, Sys.afterClose]
      cases nextConsumer c <;> rfl
    | timeout => exact .none
    | error => exact .none
  | exited =>
    rw [hraw] at hpc
    rw [hpc]
    exact .none
  | fault =>
    rw [hraw] at hpc
    rw [hpc]
    exact .none
  | killed =>
    rw [hraw] at hpc
    rw [hpc]
    exact .none

theorem Carries.step {C A : Nat} (h : Carries last s t) (l : RawLabel) :
    Option.Rel (Carries (RawLabel.next last l)) (RawSys.step C A l s)
      (Sys.step (C / SIZEOF_MESSAGE) (A / SIZEOF_MESSAGE) (RawLabel.toLabel last l) t) := by
  cases l with
  | enqueue m =>
    refine .some { h with last := ?_, mq := ?_ }
    · rw [MessageBuffer.afterAll, List.foldl_concat]
      exact congrArg (MessageBuffer.overwrite · m.bytes) h.last
    · dsimp only
      rw [MessageBuffer.pending_concat, h.mq, h.last]
  | dispatcher o => exact h.dispatch
  | consumer c =>
    obtain ⟨waiting, answers, hlink⟩ := h.links c
    apply rel_map hlink.consumer
    intro w l hcarries
    exact { h.setLink hcarries with dispatcher := h.dispatcher }

theorem lockstep {C A : Nat} (h : Carries last s t) (ls : List RawLabel) :
    Option.Rel (Carries (ls.foldl RawLabel.next last)) (exec (RawSys.step C A) ls s)
      (exec (Sys.step (C / SIZEOF_MESSAGE) (A / SIZEOF_MESSAGE)) (last.labels ls) t) :=
  exec_lockstep (fun _ l _ _ h => h.step l) ls h

theorem carries_start (mq : List Datagram) (msg ack_msg stop_msg : MessageBuffer)
    (buffers : Cid → MessageBuffer × MessageBuffer) :
    Carries (msg.afterAll mq) (.start mq msg ack_msg stop_msg buffers)
      (.start (msg.pending mq) stop_msg.message fun c => (buffers c).2.message) := by
  refine ⟨⟨rfl, rfl, rfl, rfl, ?_⟩, rfl⟩
  intro c
  exact ⟨[], [], ⟨rfl, rfl, rfl, rfl, rfl, rfl, rfl, rfl, rfl, rfl, rfl⟩⟩

end RawSys

/-- A message that is put into the queue whole. -/
def Datagram.encode (pad : Fin 6 → UInt8) (msg : Message) : Datagram :=
  ⟨encodeMessage pad msg, Nat.le_of_eq (length_encodeMessage pad msg)⟩

def RawLabel.encode (pad : Fin 6 → UInt8) : Label → RawLabel
  | .enqueue msg => .enqueue (.encode pad msg)
  | .dispatcher o => .dispatcher o
  | .consumer c => .consumer c

namespace MessageBuffer

variable (b : MessageBuffer) (pad : Fin 6 → UInt8)

theorem overwrite_encode (msg : Message) :
    (b.overwrite (Datagram.encode pad msg).bytes).message = msg := by
  have hmsg : b.overwrite (encodeMessage pad msg) = ofMessage pad msg :=
    b.overwrite_bytes (ofMessage pad msg)
  rw [Datagram.encode, hmsg, message_ofMessage]

theorem pending_encode (mq : List Message) : b.pending (mq.map (Datagram.encode pad)) = mq := by
  induction mq generalizing b with
  | nil => rfl
  | cons msg mq ih => rw [List.map_cons, pending, ih, overwrite_encode]

theorem labels_encode (ls : List Label) : b.labels (ls.map (RawLabel.encode pad)) = ls := by
  induction ls generalizing b with
  | nil => rfl
  | cons l ls ih =>
    rw [List.map_cons, labels, relabel_cons]
    cases l with
    | enqueue msg =>
      rw [RawLabel.encode, RawLabel.toLabel, overwrite_encode]
      exact congrArg _ (ih _)
    | dispatcher o => exact congrArg _ (ih b)
    | consumer c => exact congrArg _ (ih b)

end MessageBuffer

/-- Every run on messages is one on bytes, with any padding. -/
theorem runs_on_bytes {C A : Nat} {mq : List Message} {stop_msg : Message} {ack_msg : Cid → Message}
    {ls : List Label} {t : Sys} (pad : Fin 6 → UInt8) (msg : MessageBuffer)
    (hrun : exec (Sys.step (C / SIZEOF_MESSAGE) (A / SIZEOF_MESSAGE)) ls
      (.start mq stop_msg ack_msg) = some t) :
    ∃ s last, exec (RawSys.step C A) (ls.map (RawLabel.encode pad))
        (.start (mq.map (Datagram.encode pad)) msg msg (.ofMessage pad stop_msg)
          fun c => (msg, .ofMessage pad (ack_msg c))) = some s ∧
      RawSys.Carries last s t := by
  have hstart := RawSys.carries_start (mq.map (Datagram.encode pad)) msg msg
    (.ofMessage pad stop_msg) fun c => (msg, .ofMessage pad (ack_msg c))
  have hlockstep := RawSys.lockstep (C := C) (A := A) hstart (ls.map (RawLabel.encode pad))
  simp only [MessageBuffer.labels_encode, MessageBuffer.pending_encode,
    MessageBuffer.message_ofMessage, hrun] at hlockstep
  obtain ⟨s, hs, hcarries⟩ := exists_of_rel hlockstep
  exact ⟨s, _, hs, hcarries⟩

/-- Whatever is put into the queue and however the processes take their steps, on bytes they do what
they do on messages, step by step: the streams hold whole records, no read splits one, and a short
message is taken for the one that the end of the buffer makes of it. -/
theorem bytes_carry_messages (C A : Nat) (mq : List Datagram) (msg ack_msg stop_msg : MessageBuffer)
    (buffers : Cid → MessageBuffer × MessageBuffer) (ls : List RawLabel) :
    Option.Rel (RawSys.Carries (ls.foldl RawLabel.next (msg.afterAll mq)))
      (exec (RawSys.step C A) ls (.start mq msg ack_msg stop_msg buffers))
      (exec (Sys.step (C / SIZEOF_MESSAGE) (A / SIZEOF_MESSAGE)) ((msg.afterAll mq).labels ls)
        (.start (msg.pending mq) stop_msg.message fun c => (buffers c).2.message)) := by
  exact RawSys.lockstep (RawSys.carries_start mq msg ack_msg stop_msg buffers) ls

end Naarad.Dispatch
