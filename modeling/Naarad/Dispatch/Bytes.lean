import Naarad.Dispatch.Indexing
import Naarad.Dispatch.System

/-!
# The dispatcher on messages and on their bytes

The loop that is followed byte by byte is the dispatcher of the system: whatever the dispatcher and
its consumers do, the loop does it too when the messages reach it as bytes.
-/

set_option autoImplicit false

namespace Naarad.Dispatch

open LabelledRun

def littleEndian32 (x : UInt32) : List UInt8 :=
  [x.toUInt8, (x >>> 8).toUInt8, (x >>> 16).toUInt8, (x >>> 24).toUInt8]

def littleEndian64 (x : UInt64) : List UInt8 :=
  littleEndian32 x.toUInt32 ++ littleEndian32 (x >>> 32).toUInt32

/-- A message in memory; `pad` is between `op` and `timestamp`. -/
def encodeMessage (pad : Fin 6 → UInt8) (m : Message) : List UInt8 :=
  littleEndian32 m.gid ++ littleEndian32 m.uid ++ m.category :: m.op :: List.ofFn pad ++
    littleEndian64 m.timestamp ++ m.comm.bytes ++ m.file.bytes ++ m.new_file.bytes

theorem length_encodeMessage (pad : Fin 6 → UInt8) (m : Message) :
    (encodeMessage pad m).length = SIZEOF_MESSAGE := by
  simp only [encodeMessage, littleEndian32, littleEndian64, List.length_append, List.length_cons,
    List.length_nil, List.length_ofFn, m.comm.size_eq, m.file.size_eq, m.new_file.size_eq]
  rfl

namespace MessageBuffer

theorem some_category (b : MessageBuffer) : some b.category = b.bytes[8]? :=
  (List.getElem?_eq_getElem _).symm

theorem some_op (b : MessageBuffer) : some b.op = b.bytes[9]? :=
  (List.getElem?_eq_getElem _).symm

theorem bytes_overwrite (b : MessageBuffer) {bytes : List UInt8}
    (hlen : bytes.length = SIZEOF_MESSAGE) : (b.overwrite bytes).bytes = bytes := by
  unfold overwrite
  dsimp only
  rw [List.take_append_of_le_length (Nat.le_of_eq hlen.symm), ← hlen, List.take_length]

variable (b : MessageBuffer) (pad : Fin 6 → UInt8) (m : Message)

theorem category_overwrite : (b.overwrite (encodeMessage pad m)).category = m.category := by
  apply Option.some.inj
  rw [some_category, bytes_overwrite b (length_encodeMessage pad m)]
  rfl

theorem op_overwrite : (b.overwrite (encodeMessage pad m)).op = m.op := by
  apply Option.some.inj
  rw [some_op, bytes_overwrite b (length_encodeMessage pad m)]
  rfl

end MessageBuffer

def Round.target : Round → Target
  | .dispatch g => .group g.val
  | .stop c => .stop c.1.val c.2.val

theorem Round.target_inRange (r : Round) : r.target.InRange := by
  cases r with
  | dispatch g => exact g.isLt
  | stop c => exact ⟨c.1.isLt, c.2.isLt⟩

/-- Where the loop stands; a dispatcher that was killed has not come back from its `write`. -/
def DispatcherPc.At (pc : LoopPc) : DispatcherPc → Prop
  | .receive => pc = .receive
  | .write r _ => pc = .write r.target
  | .select r _ => pc = .select r.target
  | .readAck r _ => pc = .readAck r.target
  | .closeRead c => pc = .closeRead c.1.val c.2.val
  | .closeWrite c => pc = .closeWrite c.1.val c.2.val
  | .exited => pc = .exited
  | .fault => pc = .fault
  | .killed => ∃ r : Round, pc = .write r.target

/-- The loop on bytes stands where the dispatcher does, with the same turns. -/
structure Follows (s : Sys) (l : Loop) : Prop where
  turns : ∀ g, l.current_consumer g = (s.current_consumer g).val
  pc : s.dispatcher.At l.pc

namespace Loop

variable {l : Loop}

theorem call_eq (use : Nat → Nat → Access) (pc : Target → LoopPc) {t : Target} (ht : t.InRange) :
    (l.call use pc t).pc = pc t ∧ (l.call use pc t).current_consumer = l.current_consumer := by
  cases t with
  | group g =>
    have hg : g < NUM_GROUPS := ht
    dsimp only [call, atTarget, atTurn]
    rw [dif_pos hg]
    exact ⟨rfl, rfl⟩
  | stop i j => exact ⟨rfl, rfl⟩

theorem print_eq {t : Target} (ht : t.InRange) : (l.print t).current_consumer = l.current_consumer := by
  cases t with
  | group g =>
    have hg : g < NUM_GROUPS := ht
    dsimp only [print, atTarget, atTurn]
    rw [dif_pos hg]
    rfl
  | stop i j => rfl

end Loop

theorem nextPair_eq (c : Cid) :
    Loop.nextPair c.1.val c.2.val = (nextConsumer c).map fun d => (d.1.val, d.2.val) := by
  unfold Loop.nextPair nextConsumer
  by_cases hj : c.2.val + 1 < NUM_CONSUMERS_PER_GROUP
  · rw [if_pos hj, dif_pos hj]
    rfl
  · rw [if_neg hj, dif_neg hj]
    by_cases hi : c.1.val + 1 < NUM_GROUPS
    · rw [if_pos hi, dif_pos hi]
      rfl
    · rw [if_neg hi, dif_neg hi]
      rfl

theorem Follows.finish {s : Sys} {l : Loop}
    (h : ∀ g, l.current_consumer g = (s.current_consumer g).val) (r : Round) :
    Follows (s.finishRound r) (l.finish r.target) := by
  cases r with
  | dispatch g =>
    dsimp only [Round.target, Loop.finish, Loop.atTurn]
    rw [dif_pos g.isLt]
    refine ⟨?_, rfl⟩
    intro g'
    dsimp only [Sys.finishRound, Loop.record]
    by_cases hg : g' = g
    · subst hg
      rw [Function.update_self, Function.update_self, h, Sys.advance_val]
    · rw [Function.update_of_ne hg, Function.update_of_ne hg, h]
  | stop c =>
    dsimp only [Round.target, Loop.finish, Sys.finishRound]
    rw [nextPair_eq]
    cases nextConsumer c with
    | none => exact ⟨h, rfl⟩
    | some d => exact ⟨h, rfl⟩

theorem Follows.receive {s : Sys} {l : Loop}
    (h : ∀ g, l.current_consumer g = (s.current_consumer g).val) {msg : Message}
    (hop : l.msg.op = msg.op) (hcat : l.msg.category = msg.category) (mq : List Message) :
    Follows (s.receive msg mq) l.dispatch := by
  unfold Sys.receive Loop.dispatch
  rw [hop, hcat]
  dsimp only
  by_cases hstop : msg.op = STOP_MESSAG
  · rw [if_pos hstop, if_pos hstop]
    exact ⟨h, rfl⟩
  · rw [if_neg hstop, if_neg hstop]
    by_cases hg : msg.category.toNat < NUM_GROUPS
    · rw [dif_pos hg]
      have htarget : (Target.group msg.category.toNat).InRange := hg
      obtain ⟨hpc, hturns⟩ := l.call_eq .write_pipe .write htarget
      refine ⟨?_, hpc⟩
      intro g
      exact (congrFun hturns g).trans (h g)
    · rw [dif_neg hg]
      dsimp only [Loop.beginWrite, Loop.call, Loop.atTarget, Loop.atTurn]
      rw [dif_neg hg]
      exact ⟨h, rfl⟩

theorem exec_single {answer : Answer} {l l' : Loop} (h : Loop.step answer l = some l') :
    exec Loop.step [answer] l = some l' :=
  exec_cons.mpr ⟨l', h, rfl⟩

theorem Follows.print {s : Sys} {l : Loop} (h : Follows s l) (r : Round) (g : Fin NUM_GROUPS) :
    (l.print r.target).current_consumer g = (s.current_consumer g).val :=
  (congrFun (l.print_eq r.target_inRange) g).trans (h.turns g)

/-- A step of the dispatcher is a step of the loop, one of a consumer or a producer is none. -/
theorem Follows.step {C A : Nat} {lab : Label} {s t : Sys} {l : Loop} (pad : Fin 6 → UInt8)
    (h : Follows s l) (hstep : Sys.step C A lab s = some t) :
    ∃ answers l', exec Loop.step answers l = some l' ∧ Follows t l' := by
  have hat := h.pc
  cases Sys.moves_of_step hstep with
  | enqueue => exact ⟨[], l, rfl, h.turns, h.pc⟩
  | @receive msg mq hpc =>
    rw [hpc] at hat
    have hreceive : l.pc = .receive := hat
    have hfits : (encodeMessage pad msg).length ≤ SIZEOF_MESSAGE :=
      Nat.le_of_eq (length_encodeMessage pad msg)
    let filled : Loop := { l with msg := l.msg.overwrite (encodeMessage pad msg) }
    refine ⟨[.received (encodeMessage pad msg)], filled.dispatch, exec_single ?_, ?_⟩
    · simp only [Loop.step, hreceive, if_pos hfits]
      rfl
    · exact .receive (l := filled) h.turns (l.msg.op_overwrite pad msg)
        (l.msg.category_overwrite pad msg) mq
  | again hpc =>
    rw [hpc] at hat
    have hreceive : l.pc = .receive := hat
    refine ⟨[.again], l, exec_single ?_, h⟩
    simp only [Loop.step, hreceive]
  | leave hpc =>
    rw [hpc] at hat
    have hreceive : l.pc = .receive := hat
    refine ⟨[.failed], l.beginWrite (.stop 0 0), exec_single ?_, ⟨h.turns, rfl⟩⟩
    simp only [Loop.step, hreceive]
  | @write r msg link hpc =>
    rw [hpc] at hat
    have hwrite : l.pc = .write r.target := hat
    obtain ⟨hselect, hturns⟩ := l.call_eq .read_pipe .select r.target_inRange
    refine ⟨[.returned], l.beginSelect r.target, exec_single ?_, ⟨?_, hselect⟩⟩
    · simp only [Loop.step, hwrite]
    · intro g
      exact (congrFun hturns g).trans (h.turns g)
  | @die r msg hpc =>
    rw [hpc] at hat
    exact ⟨[], l, rfl, h.turns, ⟨r, hat⟩⟩
  | @ready r msg hpc =>
    rw [hpc] at hat
    have hselect : l.pc = .select r.target := hat
    obtain ⟨hread, hturns⟩ := l.call_eq .read_pipe .readAck r.target_inRange
    refine ⟨[.ready], l.beginRead r.target, exec_single ?_, ⟨?_, hread⟩⟩
    · simp only [Loop.step, hselect]
    · intro g
      exact (congrFun hturns g).trans (h.turns g)
  | @giveUp r msg o hpc ho =>
    rw [hpc] at hat
    have hselect : l.pc = .select r.target := hat
    cases o with
    | ok => exact absurd rfl ho
    | timeout =>
      refine ⟨[.timeout], (l.print r.target).finish r.target, exec_single ?_, .finish ?_ r⟩
      · simp only [Loop.step, hselect]
      · exact h.print r
    | error =>
      refine ⟨[.selectError], l.finish r.target, exec_single ?_, .finish h.turns r⟩
      simp only [Loop.step, hselect]
  | @readAck r msg link hpc =>
    rw [hpc] at hat
    have hread : l.pc = .readAck r.target := hat
    -- nothing is read at the end of the file of a consumer that is gone
    cases hend : (s.links (r.consumer s.current_consumer)).acks.isEmpty with
    | true =>
      refine ⟨[.read false], l.finish r.target, exec_single ?_,
        .finish (s := s.setLink _ link) h.turns r⟩
      simp only [Loop.step, hread, Bool.false_eq_true, if_false]
    | false =>
      refine ⟨[.read true], (l.print r.target).finish r.target, exec_single ?_, .finish ?_ r⟩
      · simp only [Loop.step, hread, if_true]
      · exact h.print r
  | @closeRead c hpc =>
    rw [hpc] at hat
    have hclose : l.pc = .closeRead c.1.val c.2.val := hat
    refine ⟨[.returned], { l.record [.write_pipe c.1.val c.2.val] with
      pc := .closeWrite c.1.val c.2.val }, exec_single ?_, ⟨h.turns, rfl⟩⟩
    simp only [Loop.step, hclose]
  | @closeWrite c hpc =>
    rw [hpc] at hat
    have hclose : l.pc = .closeWrite c.1.val c.2.val := hat
    have hnext := nextPair_eq c
    cases hc : nextConsumer c with
    | none =>
      rw [hc] at hnext
      refine ⟨[.returned], { l with pc := .exited }, exec_single ?_, ⟨h.turns, ?_⟩⟩
      · simp only [Loop.step, hclose, hnext, Option.map_none]
      · simp only [Sys.afterClose, hc]
        rfl
    | some d =>
      rw [hc] at hnext
      refine ⟨[.returned], { l.record [.read_pipe d.1.val d.2.val] with
        pc := .closeRead d.1.val d.2.val }, exec_single ?_, ⟨h.turns, ?_⟩⟩
      · simp only [Loop.step, hclose, hnext, Option.map_some]
      · simp only [Sys.afterClose, hc]
        rfl
  | consumer => exact ⟨[], l, rfl, h.turns, h.pc⟩

theorem Follows.start (mq : List Message) (stop_msg : Message) (ack_msg : Cid → Message)
    (msg : MessageBuffer) : Follows (.start mq stop_msg ack_msg) (.start msg) := by
  refine ⟨?_, rfl⟩
  intro g
  rfl

/-- Every run of the system is a run of the loop on bytes. -/
theorem dispatcher_follows {C A : Nat} {mq : List Message} {stop_msg : Message}
    {ack_msg : Cid → Message} {ls : List Label} {s : Sys} (pad : Fin 6 → UInt8)
    (msg : MessageBuffer)
    (hrun : exec (Sys.step C A) ls (.start mq stop_msg ack_msg) = some s) :
    ∃ answers l, exec Loop.step answers (.start msg) = some l ∧ Follows s l :=
  exec_simulated (fun _ _ _ _ h hstep => h.step pad hstep) (.start mq stop_msg ack_msg msg) hrun

end Naarad.Dispatch
