import Naarad.Lib.LabelledRun
import Naarad.Message
import Mathlib.Logic.Function.Basic

/-!
# What the dispatcher indexes with (`message_queue/message.c`)

The loop on the bytes that `mq_receive` puts into `msg`: a short message overwrites the front of the
buffer only. Every index into the four arrays is recorded; the first one outside of them ends in
`fault`. What the system calls answer is up to the labels.
-/

set_option autoImplicit false

namespace Naarad.Dispatch

open LabelledRun
open Function (update)

/-- `sizeof(Message)`: `category` at 8, `op` at 9, and six bytes of padding before `timestamp`. -/
def SIZEOF_MESSAGE : Nat := 296

structure MessageBuffer where
  bytes : List UInt8
  size_eq : bytes.length = SIZEOF_MESSAGE

namespace MessageBuffer

def category (b : MessageBuffer) : UInt8 := b.bytes.get ⟨8, by rw [b.size_eq]; decide⟩

def op (b : MessageBuffer) : UInt8 := b.bytes.get ⟨9, by rw [b.size_eq]; decide⟩

/-- A message of fewer bytes leaves the rest of the buffer as it was. -/
def overwrite (b : MessageBuffer) (bytes : List UInt8) : MessageBuffer where
  bytes := (bytes ++ b.bytes.drop bytes.length).take SIZEOF_MESSAGE
  size_eq := by
    have hsize := b.size_eq
    simp only [List.length_take, List.length_append, List.length_drop]
    omega

end MessageBuffer

/-- One use of an array: `consumer_write_pipes[i][j]` and so on. -/
inductive Access where
  | write_pipe (i j : Nat)
  | read_pipe (i j : Nat)
  | current_consumer (i : Nat)
  | group_name (i : Nat)
  deriving DecidableEq

def Access.InRange : Access → Prop
  | .write_pipe i j | .read_pipe i j => i < NUM_GROUPS ∧ j < NUM_CONSUMERS_PER_GROUP
  | .current_consumer i | .group_name i => i < NUM_GROUPS

instance : DecidablePred Access.InRange
  | .write_pipe .. | .read_pipe .. => inferInstanceAs (Decidable (_ ∧ _))
  | .current_consumer _ | .group_name _ => inferInstanceAs (Decidable (_ < _))

/-- Whom a round is for: the consumer whose turn it is in a group, or one that is to stop. -/
inductive Target where
  | group (group_index : Nat)
  | stop (i j : Nat)
  deriving DecidableEq

/-- `write`, `select` and `readAck` are inside of these calls, their arguments evaluated. -/
inductive LoopPc where
  | receive
  | write (t : Target)
  | select (t : Target)
  | readAck (t : Target)
  | closeRead (i j : Nat)
  | closeWrite (i j : Nat)
  | exited
  | fault
  deriving DecidableEq

structure Loop where
  msg : MessageBuffer
  current_consumer : Fin NUM_GROUPS → Nat
  pc : LoopPc
  accesses : List Access

/-- The loops that look for the largest descriptor. -/
def maxFdAccesses : List Access :=
  (List.range NUM_GROUPS).flatMap fun i =>
    (List.range NUM_CONSUMERS_PER_GROUP).map fun j => .read_pipe i j

/-- `msg` is not initialised. -/
def Loop.start (msg : MessageBuffer) : Loop := ⟨msg, fun _ => 0, .receive, maxFdAccesses⟩

/-- What the system answers: the bytes of a message, `EAGAIN` or another error of `mq_receive`; the
return of `write` or `close`; the outcome of `select`; whether `read` brought an `ACK_MESSAGE`. -/
inductive Answer where
  | received (bytes : List UInt8)
  | again
  | failed
  | returned
  | ready
  | timeout
  | selectError
  | read (is_ack : Bool)
  deriving DecidableEq

namespace Loop

def record (as : List Access) (s : Loop) : Loop := { s with accesses := s.accesses ++ as }

/-- `current_consumer[group_index]`, and what is done with it. -/
def atTurn (g : Nat) (next : Fin NUM_GROUPS → Nat → Loop → Loop) (s : Loop) : Loop :=
  let s := s.record [.current_consumer g]
  if hg : g < NUM_GROUPS then next ⟨g, hg⟩ (s.current_consumer ⟨g, hg⟩) s
  else { s with pc := .fault }

/-- The consumer of a target, as the indices of its pipes. -/
def atTarget (t : Target) (next : Nat → Nat → Loop → Loop) (s : Loop) : Loop :=
  match t with
  | .group g => s.atTurn g fun g => next g.val
  | .stop i j => next i j s

/-- Into a call on a pipe of the target. -/
def call (use : Nat → Nat → Access) (pc : Target → LoopPc) (t : Target) : Loop → Loop :=
  atTarget t fun i j s => { s.record [use i j] with pc := pc t }

def beginWrite : Target → Loop → Loop := call .write_pipe .write
def beginSelect : Target → Loop → Loop := call .read_pipe .select
def beginRead : Target → Loop → Loop := call .read_pipe .readAck

/-- The arguments of the `printf` about a consumer and its group. -/
def print (t : Target) : Loop → Loop :=
  atTarget t fun i _ s => s.record [.group_name i]

/-- The next iteration of `for i, for j`. -/
def nextPair (i j : Nat) : Option (Nat × Nat) :=
  if j + 1 < NUM_CONSUMERS_PER_GROUP then some (i, j + 1)
  else if i + 1 < NUM_GROUPS then some (i + 1, 0)
  else none

/-- `current_consumer[group_index] = (current_consumer[group_index] + 1) % ..`, or the next consumer
to stop. -/
def finish (t : Target) (s : Loop) : Loop :=
  match t with
  | .group g => s.atTurn g fun g j s =>
    { s with
      current_consumer := update s.current_consumer g ((j + 1) % NUM_CONSUMERS_PER_GROUP)
      pc := .receive }
  | .stop i j =>
    match nextPair i j with
    | some (i', j') => s.beginWrite (.stop i' j')
    | none => { s.record [.read_pipe 0 0] with pc := .closeRead 0 0 }

def dispatch (s : Loop) : Loop :=
  if s.msg.op = STOP_MESSAG then s.beginWrite (.stop 0 0)
  else s.beginWrite (.group s.msg.category.toNat)

def step (answer : Answer) (s : Loop) : Option Loop :=
  match s.pc, answer with
  | .receive, .received bytes =>
    if bytes.length ≤ SIZEOF_MESSAGE then some (dispatch { s with msg := s.msg.overwrite bytes })
    else none
  | .receive, .again => some s
  | .receive, .failed => some (s.beginWrite (.stop 0 0))
  | .write t, .returned => some (s.beginSelect t)
  | .select t, .ready => some (s.beginRead t)
  | .select t, .timeout => some ((s.print t).finish t)
  | .select t, .selectError => some (s.finish t)
  | .readAck t, .read is_ack => some ((if is_ack then s.print t else s).finish t)
  | .closeRead i j, .returned => some { s.record [.write_pipe i j] with pc := .closeWrite i j }
  | .closeWrite i j, .returned =>
    match nextPair i j with
    | some (i', j') => some { s.record [.read_pipe i' j'] with pc := .closeRead i' j' }
    | none => some { s with pc := .exited }
  | _, _ => none

end Loop

def Target.InRange : Target → Prop
  | .group g => g < NUM_GROUPS
  | .stop i j => i < NUM_GROUPS ∧ j < NUM_CONSUMERS_PER_GROUP

def LoopPc.InRange : LoopPc → Prop
  | .write t | .select t | .readAck t => t.InRange
  | .closeRead i j | .closeWrite i j => i < NUM_GROUPS ∧ j < NUM_CONSUMERS_PER_GROUP
  | .fault => False
  | .receive | .exited => True

namespace Loop

/-- The uses so far and the turns are in range. -/
structure Tidy (s : Loop) : Prop where
  accesses : ∀ a ∈ s.accesses, a.InRange
  turns : ∀ g, s.current_consumer g < NUM_CONSUMERS_PER_GROUP

structure Safe (s : Loop) : Prop extends Tidy s where
  pc : s.pc.InRange

variable {s : Loop} {g i j : Nat} {t : Target} {P : Loop → Prop}

theorem Tidy.record (h : s.Tidy) {as : List Access} (has : ∀ a ∈ as, a.InRange) :
    (s.record as).Tidy := by
  refine ⟨?_, h.turns⟩
  exact List.forall_mem_append.mpr ⟨h.accesses, has⟩

theorem Tidy.record_one (h : s.Tidy) {a : Access} (ha : a.InRange) : (s.record [a]).Tidy := by
  apply h.record
  exact List.forall_mem_singleton.mpr ha

theorem Tidy.atTurn (h : s.Tidy) (next : Fin NUM_GROUPS → Nat → Loop → Loop) (hg : g < NUM_GROUPS)
    (hnext : ∀ j s, j < NUM_CONSUMERS_PER_GROUP → s.Tidy → P (next ⟨g, hg⟩ j s)) :
    P (s.atTurn g next) := by
  unfold Loop.atTurn
  dsimp only
  rw [dif_pos hg]
  apply hnext
  · exact h.turns _
  · exact h.record_one hg

theorem Tidy.atTarget (h : s.Tidy) {next : Nat → Nat → Loop → Loop} (ht : t.InRange)
    (hnext : ∀ i j s, i < NUM_GROUPS → j < NUM_CONSUMERS_PER_GROUP → s.Tidy → P (next i j s)) :
    P (s.atTarget t next) := by
  cases t with
  | group g =>
    apply h.atTurn (P := P) (fun g => next g.val) ht
    intro j s hj hs
    exact hnext g j s ht hj hs
  | stop i j => exact hnext i j s ht.1 ht.2 h

theorem Tidy.call (h : s.Tidy) {use : Nat → Nat → Access} {pc : Target → LoopPc} (ht : t.InRange)
    (huse : ∀ i j, i < NUM_GROUPS → j < NUM_CONSUMERS_PER_GROUP → (use i j).InRange)
    (hpc : (pc t).InRange) : (s.call use pc t).Safe := by
  apply h.atTarget (P := Safe) ht
  intro i j s hi hj hs
  exact ⟨⟨(hs.record_one (huse i j hi hj)).accesses, hs.turns⟩, hpc⟩

theorem Tidy.beginWrite (h : s.Tidy) (ht : t.InRange) : (s.beginWrite t).Safe :=
  h.call ht (fun _ _ hi hj => ⟨hi, hj⟩) ht

theorem Tidy.beginSelect (h : s.Tidy) (ht : t.InRange) : (s.beginSelect t).Safe :=
  h.call ht (fun _ _ hi hj => ⟨hi, hj⟩) ht

theorem Tidy.beginRead (h : s.Tidy) (ht : t.InRange) : (s.beginRead t).Safe :=
  h.call ht (fun _ _ hi hj => ⟨hi, hj⟩) ht

theorem Tidy.print (h : s.Tidy) (ht : t.InRange) : (s.print t).Tidy := by
  apply h.atTarget (P := Tidy) ht
  intro i j s hi _ hs
  exact hs.record_one (a := .group_name i) hi

theorem nextPair_inRange {i' j' : Nat} (hi : i < NUM_GROUPS) (hnext : nextPair i j = some (i', j')) :
    i' < NUM_GROUPS ∧ j' < NUM_CONSUMERS_PER_GROUP := by
  unfold nextPair at hnext
  split at hnext
  · rename_i hj
    cases hnext
    exact ⟨hi, hj⟩
  · split at hnext
    · rename_i hi'
      cases hnext
      exact ⟨hi', by decide⟩
    · cases hnext

theorem Tidy.closeRead (h : s.Tidy) (hi : i < NUM_GROUPS) (hj : j < NUM_CONSUMERS_PER_GROUP) :
    Safe { s.record [.read_pipe i j] with pc := .closeRead i j } :=
  ⟨⟨(h.record_one (a := .read_pipe i j) ⟨hi, hj⟩).accesses, h.turns⟩, hi, hj⟩

theorem Tidy.finish (h : s.Tidy) (ht : t.InRange) : (s.finish t).Safe := by
  cases t with
  | group g =>
    unfold Loop.finish
    dsimp only
    apply h.atTurn (P := Safe) _ ht
    intro j s _ hs
    refine ⟨⟨hs.accesses, ?_⟩, trivial⟩
    intro g'
    dsimp only
    by_cases hg : g' = ⟨g, ht⟩
    · rw [hg, Function.update_self]
      exact Nat.mod_lt _ (by decide)
    · rw [Function.update_of_ne hg]
      exact hs.turns g'
  | stop i j =>
    unfold Loop.finish
    dsimp only
    cases hnext : nextPair i j with
    | some p => exact h.beginWrite (nextPair_inRange ht.1 hnext)
    | none => exact h.closeRead (by decide) (by decide)

/-- A received message is a stop message or names a group; what a short one leaves is what the
buffer held. -/
def Addressed (answer : Answer) (s : Loop) : Prop :=
  match s.pc, answer with
  | .receive, .received bytes => (s.msg.overwrite bytes).op = STOP_MESSAG ∨
      (s.msg.overwrite bytes).category.toNat < NUM_GROUPS
  | _, _ => True

theorem Tidy.dispatch (h : s.Tidy) (haddressed : s.msg.op = STOP_MESSAG ∨
    s.msg.category.toNat < NUM_GROUPS) : s.dispatch.Safe := by
  unfold Loop.dispatch
  split
  · exact h.beginWrite ⟨by decide, by decide⟩
  · rename_i hop
    exact h.beginWrite (haddressed.resolve_left hop)

theorem dispatch_faults (hop : s.msg.op ≠ STOP_MESSAG) (hcat : ¬ s.msg.category.toNat < NUM_GROUPS) :
    ¬ ∀ a ∈ s.dispatch.accesses, a.InRange := by
  intro hall
  apply hcat
  apply hall (.current_consumer s.msg.category.toNat)
  unfold Loop.dispatch
  rw [if_neg hop]
  dsimp only [Loop.beginWrite, Loop.call, Loop.atTarget, Loop.atTurn]
  rw [dif_neg hcat]
  exact List.mem_append_right _ (List.mem_singleton_self _)

theorem Safe.step {answer : Answer} {u : Loop} (h : s.Safe) (haddressed : s.Addressed answer)
    (hstep : Loop.step answer s = some u) : u.Safe := by
  have hpc := h.pc
  unfold Loop.step at hstep
  unfold Addressed at haddressed
  split at hstep
  case h_1 bytes hreceive =>
    rw [hreceive] at haddressed
    split at hstep
    · cases hstep
      exact Tidy.dispatch ⟨h.accesses, h.turns⟩ haddressed
    · cases hstep
  case h_2 =>
    cases hstep
    exact h
  case h_3 =>
    cases hstep
    exact h.toTidy.beginWrite ⟨by decide, by decide⟩
  case h_4 t hwrite =>
    cases hstep
    rw [hwrite] at hpc
    exact h.toTidy.beginSelect hpc
  case h_5 t hselect =>
    cases hstep
    rw [hselect] at hpc
    exact h.toTidy.beginRead hpc
  case h_6 t hselect =>
    cases hstep
    rw [hselect] at hpc
    exact (h.toTidy.print hpc).finish hpc
  case h_7 t hselect =>
    cases hstep
    rw [hselect] at hpc
    exact h.toTidy.finish hpc
  case h_8 t is_ack hread =>
    cases hstep
    rw [hread] at hpc
    split
    · exact (h.toTidy.print hpc).finish hpc
    · exact h.toTidy.finish hpc
  case h_9 i j hclose =>
    cases hstep
    rw [hclose] at hpc
    exact ⟨⟨(h.toTidy.record_one (a := .write_pipe i j) hpc).accesses, h.turns⟩, hpc⟩
  case h_10 i j hclose =>
    rw [hclose] at hpc
    split at hstep
    · rename_i i' j' hnext
      cases hstep
      obtain ⟨hi, hj⟩ := nextPair_inRange hpc.1 hnext
      exact h.toTidy.closeRead hi hj
    · cases hstep
      exact ⟨⟨h.accesses, h.turns⟩, trivial⟩
  case h_11 => cases hstep

theorem step_faults {answer : Answer} {u : Loop} (haddressed : ¬ s.Addressed answer)
    (hstep : Loop.step answer s = some u) : ¬ ∀ a ∈ u.accesses, a.InRange := by
  unfold Addressed at haddressed
  split at haddressed
  · rename_i bytes hreceive
    obtain ⟨hop, hcat⟩ := not_or.mp haddressed
    simp only [Loop.step, hreceive] at hstep
    split at hstep
    · cases hstep
      exact dispatch_faults (s := { s with msg := s.msg.overwrite bytes }) hop hcat
    · cases hstep
  · exact absurd trivial haddressed

theorem start_safe (msg : MessageBuffer) : (start msg).Safe := by
  refine ⟨⟨?_, fun _ => Nat.two_pos⟩, trivial⟩
  exact show ∀ a ∈ maxFdAccesses, a.InRange by decide

end Loop

/-- Every index that the dispatcher uses is in range, in every state of a run, if and only if every
message it receives leaves a stop message or the category of a group in its buffer. -/
theorem indices_in_range_iff {msg : MessageBuffer} {answers : List Answer} {s : Loop}
    (hrun : exec Loop.step answers (.start msg) = some s) :
    Along Loop.step (fun answer s => s.Addressed answer) answers (.start msg) ↔
      ∀ ks ms t, answers = ks ++ ms → exec Loop.step ks (.start msg) = some t →
        ∀ a ∈ t.accesses, a.InRange :=
  along_iff_reached_of_inv (P := Loop.Safe) (fun _ _ _ h hok hstep => h.step hok hstep)
    (fun _ _ _ _ hok hstep => Loop.step_faults hok hstep) (fun _ h => h.accesses)
    (Loop.start_safe msg) hrun

def MessageBuffer.zero : MessageBuffer := ⟨List.replicate SIZEOF_MESSAGE 0, List.length_replicate⟩

/-- The bytes of a zeroed message with this category. -/
def ofCategory (category : UInt8) : List UInt8 :=
  List.replicate 8 0 ++ category :: List.replicate 287 0

/-- A whole message, a short one that keeps its category, and the rest of both rounds. -/
def shortMessage : List Answer :=
  [.received (ofCategory 3), .returned, .ready, .read true, .received [7], .returned, .timeout]

theorem indices_in_range_iff_short : ∃ s, exec Loop.step shortMessage (.start .zero) = some s ∧
    (Along Loop.step (fun answer s => s.Addressed answer) shortMessage (.start .zero) ↔
      ∀ ks ms t, shortMessage = ks ++ ms → exec Loop.step ks (.start .zero) = some t →
        ∀ a ∈ t.accesses, a.InRange) := by
  have hrun : (exec Loop.step shortMessage (.start .zero)).isSome := by decide +kernel
  obtain ⟨s, hs⟩ := Option.isSome_iff_exists.mp hrun
  exact ⟨s, hs, indices_in_range_iff hs⟩

/-- A message of category 4 makes the dispatcher read `current_consumer[4]`. -/
theorem index_out_of_range :
    ∃ s, exec Loop.step [.received (ofCategory 4)] (.start .zero) = some s ∧
      .current_consumer 4 ∈ s.accesses ∧ ¬ ∀ a ∈ s.accesses, a.InRange := by
  have hused : (exec Loop.step [.received (ofCategory 4)] (.start .zero)).map
      (fun s => s.accesses) = some (maxFdAccesses ++ [.current_consumer 4]) := by decide +kernel
  obtain ⟨s, hs, hused⟩ := Option.map_eq_some_iff.mp hused
  have hmem : .current_consumer 4 ∈ s.accesses := by
    rw [hused]
    exact List.mem_append_right _ (List.mem_singleton_self _)
  refine ⟨s, hs, hmem, ?_⟩
  intro hall
  have hrange : 4 < NUM_GROUPS := hall _ hmem
  exact absurd hrange (by decide)

end Naarad.Dispatch
