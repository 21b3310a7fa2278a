import Naarad.HandleEvent
import Naarad.Queue.Display

/-!
# From the event to the entry

What the conversions of `handle_event` and `displayEntries` keep of an event, and what they take
from the memory that they write to.
-/

set_option autoImplicit false

namespace Naarad

open CharArray Queue

def isRename (e : data_t) : Prop := mappedOp e.operation.str = Operation.rename.code

instance (e : data_t) : Decidable (isRename e) := inferInstanceAs (Decidable (_ = _))

/-- Every field of the message, with its source. -/
theorem buildMessage_eq (stack : Message) (e : data_t) : buildMessage .builtin stack e = some
    { gid := e.gid
      uid := e.uid
      category := FILE_ACTIVITY_MONITORING
      op := mappedOp e.operation.str
      timestamp := stack.timestamp
      comm := stack.comm.snprintf e.comm.str
      file := stack.file.snprintf e.filename.str
      new_file := if isRename e then stack.new_file.snprintf e.new_filename.str
        else stack.new_file } := by
  cases hop : Operation.ofKey e.operation.str with
  | none =>
    have hmapped : mappedOp e.operation.str = OP_UNKNOWN := by simp [mappedOp, hop]
    have hne : OP_UNKNOWN ≠ Operation.rename.code := by decide
    simp [buildMessage, get_builtin, hop, isRename, hmapped, hne]
  | some op =>
    have hmapped : mappedOp e.operation.str = op.code := by simp [mappedOp, hop]
    by_cases hren : op.code = Operation.rename.code
    · simp [buildMessage, get_builtin, hop, isRename, hmapped, hren]
    · simp [buildMessage, get_builtin, hop, isRename, hmapped, hren]

/-- The bytes of the two stacks that reach the message agree, and both carry the event's time. -/
structure StacksAgree (e : data_t) (stack stack' : Message) : Prop where
  timestamp : stack.timestamp = e.timestamp
  timestamp' : stack'.timestamp = e.timestamp
  comm : stack.comm.behind e.comm.str = stack'.comm.behind e.comm.str
  file : stack.file.behind e.filename.str = stack'.file.behind e.filename.str
  renamed : isRename e →
    stack.new_file.behind e.new_filename.str = stack'.new_file.behind e.new_filename.str
  other : ¬isRename e → stack.new_file = stack'.new_file

theorem buildMessage_agree {e : data_t} {stack stack' msg msg' : Message}
    (h : buildMessage .builtin stack e = some msg)
    (h' : buildMessage .builtin stack' e = some msg') :
    msg = msg' ∧ msg.timestamp = e.timestamp ↔ StacksAgree e stack stack' := by
  rw [buildMessage_eq] at h h'
  obtain rfl := Option.some.inj h
  obtain rfl := Option.some.inj h'
  simp only [Message.mk.injEq, true_and, snprintf_eq_iff (n := 16) (by decide),
    snprintf_eq_iff (n := 128) (by decide)]
  constructor
  · rintro ⟨⟨htime, hcomm, hfile, hnew⟩, hevent⟩
    refine ⟨hevent, htime.symm.trans hevent, hcomm, hfile, fun hren => ?_, fun hren => ?_⟩
    · rw [if_pos hren, if_pos hren] at hnew
      exact (snprintf_eq_iff (by decide)).mp hnew
    · rwa [if_neg hren, if_neg hren] at hnew
  · intro hagree
    refine ⟨⟨hagree.timestamp.trans hagree.timestamp'.symm, hagree.comm, hagree.file, ?_⟩,
      hagree.timestamp⟩
    by_cases hren : isRename e
    · rw [if_pos hren, if_pos hren]
      exact (snprintf_eq_iff (by decide)).mpr (hagree.renamed hren)
    · rw [if_neg hren, if_neg hren]
      exact hagree.other hren

/-- Two runs on one event push and send the same message, with the event's time, exactly when the
leftovers on their stacks agree. -/
theorem handle_event_agree {e : data_t} {env env' : Env} {mon mon' mon₁ mon₁' : Monitor}
    {h h' : Handled} (hmap : mon.map = .builtin) (hmap' : mon'.map = .builtin)
    (hrun : handle_event env e mon = some (mon₁, h))
    (hrun' : handle_event env' e mon' = some (mon₁', h')) :
    h.msg = h'.msg ∧ h.msg.timestamp = e.timestamp ↔ StacksAgree e env.stack env'.stack := by
  obtain ⟨msg, hmsg, hrest⟩ := Option.bind_eq_some_iff.mp hrun
  obtain ⟨msg', hmsg', hrest'⟩ := Option.bind_eq_some_iff.mp hrun'
  obtain ⟨_, _, hrest⟩ := Option.bind_eq_some_iff.mp hrest
  obtain ⟨_, _, hrest'⟩ := Option.bind_eq_some_iff.mp hrest'
  obtain ⟨_, rfl⟩ := Prod.mk.inj (Option.some.inj hrest)
  obtain ⟨_, rfl⟩ := Prod.mk.inj (Option.some.inj hrest')
  exact buildMessage_agree (hmap ▸ hmsg) (hmap' ▸ hmsg')

/-- A rename from time 5. -/
def renameEvent : data_t :=
  { data_t.zero with
    timestamp := 5
    comm := (CharArray.zero 16).snprintf (ascii "mv")
    filename := (CharArray.zero 256).snprintf (ascii "a")
    new_filename := (CharArray.zero 256).snprintf (ascii "bc")
    operation := (CharArray.zero 16).snprintf (ascii "rename") }

/-- Memory that an earlier message has been in; what is different in it is overwritten. -/
def usedStack : Message :=
  { Message.zero with
    uid := 7
    op := Operation.open.code
    timestamp := 5
    comm := (CharArray.zero 16).snprintf (ascii "sh")
    file := (CharArray.zero 128).snprintf (ascii "x")
    new_file := (CharArray.zero 128).snprintf (ascii "yz") }

theorem handle_event_agree_sample : ∃ env env' mon₁ mon₁' h h', env.stack ≠ env'.stack ∧
    isRename renameEvent ∧ StacksAgree renameEvent env.stack env'.stack ∧
    handle_event env renameEvent (.fresh 0) = some (mon₁, h) ∧
    handle_event env' renameEvent (.fresh 0) = some (mon₁', h') ∧
    h.msg = h'.msg ∧ h.msg.timestamp = renameEvent.timestamp := by
  let env : Env := { Env.quiet 1 (fun _ => .sent) with stack := usedStack }
  let env' : Env := { Env.quiet 2 (fun _ => .error) with
    stack := { Message.zero with timestamp := 5 } }
  have hrename : isRename renameEvent := by decide +kernel
  have hagree : StacksAgree renameEvent env.stack env'.stack := by
    refine ⟨rfl, rfl, ?_, ?_, fun _ => ?_, fun hother => absurd hrename hother⟩
    all_goals decide +kernel
  have hboth := handle_event_agree rfl rfl
    (show handle_event env renameEvent (.fresh 0) = some _ from rfl)
    (show handle_event env' renameEvent (.fresh 0) = some _ from rfl)
  refine ⟨env, env', _, _, _, _, ?_, hrename, hagree, rfl, rfl, hboth.mpr hagree⟩
  decide +kernel

/-- The event is from time 5, the memory of the local message from elsewhere. -/
theorem handle_event_leftovers : ∃ e env env' mon₁ mon₁' h h', e.timestamp = 5 ∧
    handle_event env e (.fresh 0) = some (mon₁, h) ∧
    handle_event env' e (.fresh 0) = some (mon₁', h') ∧
    h.msg ≠ h'.msg ∧ h.msg.timestamp ≠ e.timestamp ∧ h.msg.new_file ≠ h'.msg.new_file :=
  ⟨{ data_t.zero with timestamp := 5 }, .quiet 1 fun _ => .sent,
    { Env.quiet 1 fun _ => .sent with
      stack := { Message.zero with new_file := (CharArray.zero 128).snprintf (ascii "secret") } },
    _, _, _, _, rfl, rfl, rfl, by decide +kernel, by decide +kernel, by decide +kernel⟩

/-- The strings of the event that a message has to carry. -/
structure Complete (e : data_t) (msg : Message) : Prop where
  file : msg.file.str = e.filename.str
  new_file : isRename e → msg.new_file.str = e.new_filename.str

structure Fits (e : data_t) : Prop where
  filename : e.filename.str.length ≤ 127
  new_filename : isRename e → e.new_filename.str.length ≤ 127

theorem MessageOf.complete_iff {e : data_t} {msg : Message} (h : MessageOf e msg) :
    Complete e msg ↔ Fits e := by
  constructor
  · intro hc
    constructor
    · rw [← hc.file, h.file, List.length_take]
      omega
    · intro hren
      rw [← hc.new_file hren, h.new_file hren, List.length_take]
      omega
  · intro hf
    constructor
    · rw [h.file, List.take_of_length_le hf.filename]
    · intro hren
      rw [h.new_file hren, List.take_of_length_le (hf.new_filename hren)]

/-- An entry is a message of the same event, up to the fields that are not copied. -/
theorem MessageOf.copyEntry {e : data_t} {msg : Message} (h : MessageOf e msg) (slot : Message) :
    MessageOf e (copyEntry slot msg) where
  gid := by rw [copyEntry_gid, h.gid]
  uid := by rw [copyEntry_uid, h.uid]
  op := by rw [copyEntry_op, h.op]
  comm := by
    rw [copyEntry_comm, str_snprintf _ (by decide) msg.comm.nul_notMem_str, h.comm, List.take_take]
    rfl
  file := by
    rw [copyEntry_file, str_snprintf _ (by decide) msg.file.nul_notMem_str, h.file, List.take_take]
    rfl
  new_file := by
    intro hren
    rw [copyEntry_new_file, if_pos (h.op.trans hren),
      str_snprintf _ (by decide) msg.new_file.nul_notMem_str, h.new_file hren, List.take_take]
    rfl

/-- No path of the two events is lost on its way to their entries. -/
structure PathsKept (e e' : data_t) (msg msg' entry entry' : Message) : Prop where
  in_msg : Complete e msg
  in_msg' : Complete e' msg'
  in_entry : Complete e entry
  in_entry' : Complete e' entry'
  apart : e.filename.str ≠ e'.filename.str → entry.file.str ≠ entry'.file.str

theorem pathsKept_iff {e e' : data_t} {stack stack' msg msg' : Message}
    (h : buildMessage .builtin stack e = some msg)
    (h' : buildMessage .builtin stack' e' = some msg') (slot slot' : Message) :
    PathsKept e e' msg msg' (copyEntry slot msg) (copyEntry slot' msg') ↔ Fits e ∧ Fits e' := by
  obtain ⟨m, hm, hof⟩ := buildMessage_spec stack e
  obtain ⟨m', hm', hof'⟩ := buildMessage_spec stack' e'
  obtain rfl := Option.some.inj (h.symm.trans hm)
  obtain rfl := Option.some.inj (h'.symm.trans hm')
  constructor
  · intro hk
    exact ⟨hof.complete_iff.mp hk.in_msg, hof'.complete_iff.mp hk.in_msg'⟩
  · rintro ⟨hf, hf'⟩
    have hentry := (hof.copyEntry slot).complete_iff.mpr hf
    have hentry' := (hof'.copyEntry slot').complete_iff.mpr hf'
    refine ⟨hof.complete_iff.mpr hf, hof'.complete_iff.mpr hf', hentry, hentry', fun hne => ?_⟩
    rwa [hentry.file, hentry'.file]

def fileEvent (path : List UInt8) : data_t :=
  { data_t.zero with filename := (CharArray.zero 256).snprintf path }

theorem pathsKept_iff_sample : ∃ msg msg', buildMessage .builtin .zero (fileEvent [97]) = some msg ∧
    buildMessage .builtin .zero (fileEvent [98]) = some msg' ∧
    (PathsKept (fileEvent [97]) (fileEvent [98]) msg msg' (copyEntry .zero msg)
      (copyEntry .zero msg') ↔
      Fits (fileEvent [97]) ∧ Fits (fileEvent [98])) := by
  obtain ⟨msg, hmsg, _⟩ := buildMessage_spec .zero (fileEvent [97])
  obtain ⟨msg', hmsg', _⟩ := buildMessage_spec .zero (fileEvent [98])
  exact ⟨msg, msg', hmsg, hmsg', pathsKept_iff hmsg hmsg' .zero .zero⟩

/-- A path of 128 letters: 127 times `a`, then another one. -/
def longPath (last : UInt8) : List UInt8 := List.replicate 127 97 ++ [last]

/-- Two files become one entry. -/
theorem pathsKept_fails : ∃ msg msg',
    buildMessage .builtin .zero (fileEvent (longPath 98)) = some msg ∧
    buildMessage .builtin .zero (fileEvent (longPath 99)) = some msg' ∧
    (fileEvent (longPath 98)).filename.str = longPath 98 ∧
    (fileEvent (longPath 99)).filename.str = longPath 99 ∧
    msg.file.str ≠ longPath 98 ∧
    (copyEntry .zero msg).file = (copyEntry .zero msg').file := by
  obtain ⟨msg, hmsg, _⟩ := buildMessage_spec .zero (fileEvent (longPath 98))
  obtain ⟨msg', hmsg', _⟩ := buildMessage_spec .zero (fileEvent (longPath 99))
  refine ⟨msg, msg', hmsg, hmsg', by decide +kernel, by decide +kernel, ?_, ?_⟩
  all_goals
    rw [buildMessage_eq] at hmsg hmsg'
    obtain rfl := Option.some.inj hmsg
    obtain rfl := Option.some.inj hmsg'
    decide +kernel

end Naarad
