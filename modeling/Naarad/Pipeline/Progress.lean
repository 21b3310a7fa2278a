import Naarad.Dispatch.Drain
import Naarad.Pipeline.Accounts

/-!
# A send that waits for room in the queue returns

`mq_send` blocks while the queue is full. The messages of the queue are those of `handle_event`, none
of which stops the dispatcher, so as long as no system call of the dispatcher fails it goes on
emptying the queue, and the consumers never hold it up for good.
-/

set_option autoImplicit false

namespace Naarad

open Dispatch LabelledRun

namespace Dispatch

/-- The dispatcher is in its receive loop. -/
def DispatcherPc.serving : DispatcherPc → Bool
  | .receive => true
  | .write (.dispatch _) _ => true
  | .select (.dispatch _) _ => true
  | .readAck (.dispatch _) _ => true
  | _ => false

namespace Sys

/-- A message that the dispatcher hands on. -/
def Ordinary (msg : Message) : Prop := KnownGroup msg ∧ ¬ IsStop msg

instance : DecidablePred Ordinary := fun _ => inferInstanceAs (Decidable (_ < _ ∧ ¬ _))

structure Serving (s : Sys) : Prop where
  ordinary : ∀ m ∈ s.mq, Ordinary m
  serving : s.dispatcher.serving = true

theorem serving_receive {msg : Message} (h : Ordinary msg) (mq : List Message) (s : Sys) :
    (s.receive msg mq).dispatcher.serving = true := by
  obtain ⟨hgroup, hstop⟩ := h
  have hop : ¬ msg.op = STOP_MESSAG := hstop
  unfold receive
  dsimp only
  rw [if_neg hop, dif_pos (show msg.category.toNat < NUM_GROUPS from hgroup)]
  rfl

theorem serving_finishRound {r : Round} {msg : Message}
    (h : (DispatcherPc.readAck r msg).serving = true) (s : Sys) :
    (s.finishRound r).dispatcher.serving = true := by
  cases r with
  | dispatch g => rfl
  | stop c => cases h

theorem Serving.step {C A : Nat} {lab : Label} {s t : Sys} (h : s.Serving) (hstaged : s.Staged)
    (henqueue : ∀ msg, lab = .enqueue msg → Ordinary msg) (hworks : lab ≠ .dispatcher .error)
    (hstep : Sys.step C A lab s = some t) : t.Serving := by
  have hserving := h.serving
  cases moves_of_step hstep with
  | enqueue msg =>
    refine ⟨?_, h.serving⟩
    exact List.forall_mem_append.mpr ⟨h.ordinary, List.forall_mem_singleton.mpr (henqueue msg rfl)⟩
  | @receive msg mq _ hmq =>
    have hall := h.ordinary
    rw [hmq] at hall
    obtain ⟨hmsg, hrest⟩ := List.forall_mem_cons.mp hall
    refine ⟨?_, serving_receive hmsg mq s⟩
    rw [receive_mq]
    exact hrest
  | again => exact h
  | leave => exact absurd rfl hworks
  | @write r msg l hpc =>
    refine ⟨h.ordinary, ?_⟩
    rw [hpc] at hserving
    cases r with
    | dispatch g => rfl
    | stop c => cases hserving
  | @die r msg hpc hreads =>
    exfalso
    have hstage := hstaged.stage (r.consumer s.current_consumer)
    rw [hpc, phase_write_self] at hstage
    rw [hstage.running_reads] at hreads
    cases hreads
  | @ready r msg hpc =>
    refine ⟨h.ordinary, ?_⟩
    rw [hpc] at hserving
    cases r with
    | dispatch g => rfl
    | stop c => cases hserving
  | @giveUp r msg o hpc =>
    rw [hpc] at hserving
    have hread : (DispatcherPc.readAck r msg).serving = true := by
      cases r with
      | dispatch g => rfl
      | stop c => cases hserving
    refine ⟨?_, serving_finishRound hread s⟩
    rw [finishRound_mq]
    exact h.ordinary
  | @readAck r msg l hpc hl =>
    rw [hpc] at hserving
    refine ⟨?_, serving_finishRound hserving _⟩
    rw [finishRound_mq]
    exact h.ordinary
  | closeRead hpc =>
    rw [hpc] at hserving
    cases hserving
  | closeWrite hpc =>
    rw [hpc] at hserving
    cases hserving
  | consumer => exact ⟨h.ordinary, h.serving⟩

/-- A dispatcher at rest that has not left its loop has emptied the queue. -/
theorem Serving.emptied {s : Sys} (h : s.Serving) (hrest : s.AtRest) : s.mq = [] := by
  rcases hrest.dispatcher with ⟨_, hmq⟩ | hpc | hpc
  · exact hmq
  · have hserving := h.serving
    rw [hpc] at hserving
    cases hserving
  · have hserving := h.serving
    rw [hpc] at hserving
    cases hserving

end Sys

end Dispatch

namespace Pipeline

/-- `mq_receive` and `select` do not fail. -/
def CallsWork (l : Label) (_ : Pipeline) : Prop := l ≠ .dispatcher .error

/-- A step of the dispatcher or of a consumer; `mq_receive` does not give up. -/
def Serves (l : Label) (s : Pipeline) : Prop :=
  match l with
  | .dispatcher o => Sys.Succeeds (.dispatcher o) s.sys
  | .consumer _ => True
  | _ => False

structure Live (C : Nat) (mon₀ : Monitor) (s : Pipeline) : Prop where
  sequential : s.Sequential mon₀
  category : ∀ p, s.sending = some p → p.msg.category = FILE_ACTIVITY_MONITORING
  live : s.sys.Live C
  serving : s.sys.Serving

variable {mon₀ : Monitor} {s t : Pipeline} {M C A : Nat}

theorem Live.inner {lab : Dispatch.Label} {u : Sys} (h : s.Live C mon₀)
    (hseq : Sequential mon₀ { s with sys := u }) (hlab : ∀ msg, lab ≠ .enqueue msg)
    (hworks : lab ≠ .dispatcher .error) (hstep : Sys.step C A lab s.sys = some u) :
    Live C mon₀ { s with sys := u } where
  sequential := hseq
  category := h.category
  live := h.live.step (fun herror => absurd herror hworks) hstep
  serving := h.serving.step h.live.staged (fun msg heq => absurd heq (hlab msg)) hworks hstep

theorem Live.ordinary {p : Sending} (h : s.Live C mon₀) (hmap : mon₀.map = .builtin)
    (hsending : s.sending = some p) : Sys.Ordinary p.msg := by
  obtain ⟨es, mon, hcalls⟩ := h.sequential.calls hmap
  rcases hcalls.sending with ⟨hnone, _⟩ | ⟨q, e, hsome, _, hof, _⟩
  · rw [hnone] at hsending
    cases hsending
  · cases Option.some.inj (hsome.symm.trans hsending)
    constructor
    · rw [Sys.KnownGroup, h.category p hsending]
      decide
    · rw [IsStop, hof.op]
      exact mappedOp_ne_stop _

theorem Live.step {l : Label} (h : s.Live C mon₀) (hmap : mon₀.map = .builtin)
    (hworks : CallsWork l s) (hstep : Pipeline.step M C A l s = some t) : t.Live C mon₀ := by
  have hseq := h.sequential.step hstep
  cases moves_of_step hstep with
  | event _ _ hmsg =>
    refine ⟨hseq, ?_, h.live, h.serving⟩
    intro p hp
    cases hp
    exact buildMessage_category hmsg
  | refuse => exact ⟨hseq, fun _ hnone => (by cases hnone), h.live, h.serving⟩
  | @sent p hsending =>
    have henqueue : Sys.step C A (.enqueue p.msg) s.sys =
        some { s.sys with mq := s.sys.mq ++ [p.msg] } := rfl
    refine ⟨hseq, fun _ hnone => (by cases hnone), ?_, ?_⟩
    · exact h.live.step (fun herror => by cases herror) henqueue
    · refine h.serving.step h.live.staged ?_ (fun herror => by cases herror) henqueue
      intro msg heq
      cases heq
      exact h.ordinary hmap hsending
  | @again p hsending =>
    refine ⟨hseq, ?_, h.live, h.serving⟩
    intro q hq
    cases hq
    exact h.category p hsending
  | giveUp => exact ⟨hseq, fun _ hnone => (by cases hnone), h.live, h.serving⟩
  | error => exact ⟨hseq, fun _ hnone => (by cases hnone), h.live, h.serving⟩
  | @dispatcher o u hsys =>
    refine h.inner hseq (fun _ heq => by cases heq) ?_ hsys
    rintro heq
    cases heq
    exact hworks rfl
  | consumer hsys =>
    exact h.inner hseq (fun _ heq => by cases heq) (fun heq => by cases heq) hsys

theorem Live.start (mon : Monitor) {mq : List Message} (hmq : ∀ m ∈ mq, Sys.Ordinary m)
    (stop_msg : Message) (ack_msg : Cid → Message) :
    (Pipeline.start mon mq stop_msg ack_msg).Live C mon where
  sequential := .start mon mq stop_msg ack_msg
  category := fun _ h => by cases h
  live := Sys.Live.start C mq stop_msg ack_msg
  serving := ⟨hmq, rfl⟩

theorem work_serves {l : Label} (hserves : Serves l s) (hstep : Pipeline.step M C A l s = some t) :
    t.sys.work < s.sys.work := by
  cases moves_of_step hstep with
  | dispatcher hsys => exact Sys.work_step hserves.1 hsys
  | @consumer c u hsys => exact Sys.work_step (show Sys.Spends (.consumer c) s.sys from trivial) hsys
  | _ => exact hserves.elim

theorem frame_serves {l : Label} (hserves : Serves l s) (hstep : Pipeline.step M C A l s = some t) :
    t.sending = s.sending ∧ t.handled = s.handled ∧ t.monitor = s.monitor := by
  cases moves_of_step hstep with
  | dispatcher => exact ⟨rfl, rfl, rfl⟩
  | consumer => exact ⟨rfl, rfl, rfl⟩
  | _ => exact hserves.elim

theorem serves_callsWork {l : Label} (hserves : Serves l s) : CallsWork l s := by
  rintro rfl
  exact hserves.2 rfl

/-- While the queue is not empty some process other than the monitor can step. -/
theorem Live.moves (h : s.Live C mon₀) (hC : 1 ≤ C) (hCA : C ≤ A) :
    s.sys.mq = [] ∨ ∃ l t, Serves l s ∧ Pipeline.step M C A l s = some t := by
  rcases h.live.moves hC hCA with hrest | ⟨lab, u, hsucceeds, hstep⟩
  · exact Or.inl (h.serving.emptied hrest)
  · right
    cases lab with
    | enqueue msg => exact hsucceeds.1.elim
    | dispatcher o =>
      exact ⟨.dispatcher o, { s with sys := u }, hsucceeds, Option.map_eq_some_iff.mpr ⟨u, hstep, rfl⟩⟩
    | consumer c =>
      exact ⟨.consumer c, { s with sys := u }, trivial, Option.map_eq_some_iff.mpr ⟨u, hstep, rfl⟩⟩

end Pipeline

/-- While `handle_event` waits for room in the queue, the dispatcher and the consumers can take only
so many steps as there is work left, and however they take them, they can go on until the queue
takes the message. `mq_receive` and `select` must not fail, what an earlier run has left in the
queue must be ordinary, and the pipes of the acknowledgements must not be the smaller ones. -/
theorem send_returns {M C A : Nat} {mon₀ : Monitor} {mq : List Message} {stop_msg : Message}
    {ack_msg : Cid → Message} {ls : List Pipeline.Label} {s : Pipeline} {p : Sending} (hM : 1 ≤ M)
    (hC : 1 ≤ C) (hCA : C ≤ A) (hmon : mon₀.Initialised) (hmq : ∀ m ∈ mq, Sys.Ordinary m)
    (hrun : exec (Pipeline.step M C A) ls (.start mon₀ mq stop_msg ack_msg) = some s)
    (hcalls : Along (Pipeline.step M C A) Pipeline.CallsWork ls
      (.start mon₀ mq stop_msg ack_msg)) (hsending : s.sending = some p) :
    (∀ ks t, exec (Pipeline.step M C A) ks s = some t →
      Along (Pipeline.step M C A) Pipeline.Serves ks s → ks.length + t.sys.work ≤ s.sys.work) ∧
    ∀ ks t, exec (Pipeline.step M C A) ks s = some t →
      Along (Pipeline.step M C A) Pipeline.Serves ks s →
      ∃ ms u v, exec (Pipeline.step M C A) ms t = some u ∧
        Along (Pipeline.step M C A) Pipeline.Serves ms t ∧
        Pipeline.step M C A (.attempt .sent) u = some v ∧ v.sending = none ∧
        v.handled = s.handled ++ [⟨p.msg, p.pushed, 0, p.attempts ++ [.sent]⟩] := by
  have hmap := hmon.map_builtin
  have hlive : s.Live C mon₀ := exec_induct (fun _ _ _ h hworks hstep => h.step hmap hworks hstep)
    (Pipeline.Live.start mon₀ hmq stop_msg ack_msg) hcalls hrun
  -- the steps of the others leave the monitor where it is
  have hkeep : ∀ l u v, (u.Live C mon₀ ∧ u.sending = some p ∧ u.handled = s.handled) →
      Pipeline.Serves l u → Pipeline.step M C A l u = some v →
      v.Live C mon₀ ∧ v.sending = some p ∧ v.handled = s.handled := by
    rintro l u v ⟨hu, hsend, hhandled⟩ hserves hstep
    obtain ⟨hsend', hhandled', _⟩ := Pipeline.frame_serves hserves hstep
    exact ⟨hu.step hmap (Pipeline.serves_callsWork hserves) hstep, hsend'.trans hsend,
      hhandled'.trans hhandled⟩
  refine ⟨fun ks t hks hserves => exec_length_le (fun _ _ _ hok hstep =>
    Pipeline.work_serves hok hstep) hserves hks, ?_⟩
  intro ks t hks hserves
  have ht := exec_induct hkeep ⟨hlive, hsending, rfl⟩ hserves hks
  obtain ⟨ms, u, hms, hok, hempty⟩ := exec_settles (Q := fun u => u.sys.mq = [])
    (fun _ _ _ hok hstep => Pipeline.work_serves hok hstep) hkeep
    (fun u hu => hu.1.moves hC hCA) ht
  obtain ⟨_, hsend, hhandled⟩ := exec_induct hkeep ht hok hms
  have hroom : u.sys.mq.length < M := by
    rw [hempty]
    exact hM
  refine ⟨ms, u, u.accept (p.tried .sent), hms, hok, ?_, rfl, ?_⟩
  · simp only [Pipeline.step, Pipeline.attempt, hsend, if_pos hroom]
  · rw [← hhandled]
    rfl

/-- The queue holds one message and is full with it. -/
theorem send_returns_sample : ∃ s p,
    exec (Pipeline.step 1 1 1) (Pipeline.openProcessed.take 2)
      (.start (.fresh 0) [Message.zero] Message.zero fun _ => Message.zero) = some s ∧
    s.sending = some p ∧
    (∀ ks t, exec (Pipeline.step 1 1 1) ks s = some t →
      Along (Pipeline.step 1 1 1) Pipeline.Serves ks s → ks.length + t.sys.work ≤ s.sys.work) ∧
    ∀ ks t, exec (Pipeline.step 1 1 1) ks s = some t →
      Along (Pipeline.step 1 1 1) Pipeline.Serves ks s →
      ∃ ms u v, exec (Pipeline.step 1 1 1) ms t = some u ∧
        Along (Pipeline.step 1 1 1) Pipeline.Serves ms t ∧
        Pipeline.step 1 1 1 (.attempt .sent) u = some v ∧ v.sending = none ∧
        v.handled = s.handled ++ [⟨p.msg, p.pushed, 0, p.attempts ++ [.sent]⟩] := by
  have hruns : ((exec (Pipeline.step 1 1 1) (Pipeline.openProcessed.take 2)
      (.start (.fresh 0) [Message.zero] Message.zero fun _ => Message.zero)).bind
        Pipeline.sending).isSome := by decide +kernel
  obtain ⟨p, hp⟩ := Option.isSome_iff_exists.mp hruns
  obtain ⟨s, hrun, hsending⟩ := Option.bind_eq_some_iff.mp hp
  refine ⟨s, p, hrun, hsending, ?_⟩
  apply send_returns (by decide) (by decide) (by decide) (Monitor.fresh_initialised 0) (by decide)
    hrun _ hsending
  apply along_of_forall
  intro l hl _ herror
  rw [Pipeline.openProcessed, List.take_succ_cons, List.take_succ_cons, List.take_zero] at hl
  rcases List.mem_pair.mp hl with rfl | rfl
  · cases herror
  · cases herror

end Naarad
