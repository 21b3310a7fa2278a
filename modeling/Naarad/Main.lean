import Naarad.HandleEvent
import Naarad.Pipes.Processes

/-!
# `main` (`file_monitor.c`)

The monitor process from `initDequeue` to its return, as a function of the outcome of every call
that can fail, of the polls and of the signal flag. What is recorded is what the process leaves
behind: the children that it has forked and the messages that it has put into the POSIX queue.
-/

set_option autoImplicit false

namespace Naarad

def EINTR : Int := 4

/-- One pass of the poll loop: the flag that is tested before the poll, the records that the poll
hands to `handle_event`, and what it returns. -/
structure Poll where
  stop : Bool
  events : List (Env × data_t)
  result : Int

/-- What the environment answers to each call of a run; `true` is success. -/
structure Outcomes where
  dummy : Queue.Choice
  mq_open : Bool
  pipe_to_consumer : Nat → Nat → Bool
  pipe_to_dispatcher : Nat → Nat → Bool
  fork_consumer : Nat → Nat → Bool
  fork_dispatcher : Bool
  fopen : Bool
  log_add_fp : Bool
  bpf_open : Bool
  stat : Bool
  bpf_load : Bool
  bpf_attach : Bool
  perf_buffer_new : Bool
  signal : Bool
  pthread_create : Bool
  polls : List Poll

/-- The nested loops over the groups and their consumers. -/
def pairs : List (Nat × Nat) := Pipes.pairs NUM_GROUPS NUM_CONSUMERS_PER_GROUP

def msg_q_init (o : Outcomes) : Int := if o.mq_open then 0 else -1

def init_pipe (o : Outcomes) : Int :=
  if pairs.all fun p => o.pipe_to_consumer p.1 p.2 && o.pipe_to_dispatcher p.1 p.2 then 0 else -1

/-- The result, and the number of consumers that were forked. -/
def init_consumer (o : Outcomes) : Int × Nat :=
  let forked := pairs.takeWhile fun p => o.fork_consumer p.1 p.2
  (if forked.length = pairs.length then 0 else -1, forked.length)

def init_dispatcher (o : Outcomes) : Int := if o.fork_dispatcher then 0 else -1

def setup_logging (o : Outcomes) : Int :=
  if !o.fopen then 1 else if !o.log_add_fp then 1 else 0

/-- Whether a skeleton is returned. -/
def setup_and_load_bpf (o : Outcomes) : Bool :=
  if !o.bpf_open then false
  else if !o.stat then false
  else if !o.bpf_load then false
  else o.bpf_attach

def setup_perf_buffer (o : Outcomes) : Bool := o.perf_buffer_new

/-- `while (!stop)`; nothing is returned while the loop goes on polling. -/
def run_main_loop (err : Int) : List Poll → Monitor → Option (Int × Monitor)
  | [], _ => none
  | poll :: polls, mon =>
    if poll.stop then some (err, mon)
    else do
      let (mon, _) ← handleAll poll.events mon
      if poll.result < 0 ∧ poll.result ≠ -EINTR then pure (poll.result, mon)
      else run_main_loop poll.result polls mon

/-- How `main` returned; `cleaned` says whether it passed the `cleanup` label. -/
structure Exit where
  status : Int
  consumers : Nat
  dispatcher : Bool
  mq : List Message
  cleaned : Bool

/-- `main` behind the forks. -/
def monitor (o : Outcomes) (consumers : Nat) (mon : Monitor) : Option Exit :=
  let leave (status : Int) (cleaned : Bool) (mon : Monitor) : Exit :=
    ⟨status, consumers, true, mon.mq, cleaned⟩
  if setup_logging o ≠ 0 then some (leave 1 false mon)
  else if !setup_and_load_bpf o then some (leave 1 false mon)
  else if !setup_perf_buffer o then some (leave 1 true mon)
  else if !o.signal then some (leave 1 true mon)
  else if !o.pthread_create then some (leave 1 false mon)
  else (run_main_loop 0 o.polls mon).map fun r => leave (if r.1 ≠ 0 then 1 else 0) true r.2

/-- Nothing is returned when the first `malloc` fails, which ends the process, when the map is
misused, and while a push or the poll loop does not end. -/
def main (o : Outcomes) : Option Exit := do
  let dq ← Queue.initDequeue o.dummy
  let map ← init_operation_map .start
  let mon : Monitor := ⟨map, .zero, dq, o.mq_open, []⟩
  if msg_q_init o ≠ 0 then pure ⟨1, 0, false, mon.mq, false⟩
  else if init_pipe o ≠ 0 then pure ⟨1, 0, false, mon.mq, false⟩
  else if (init_consumer o).1 ≠ 0 then pure ⟨1, (init_consumer o).2, false, mon.mq, false⟩
  else if init_dispatcher o ≠ 0 then pure ⟨1, (init_consumer o).2, false, mon.mq, false⟩
  else monitor o (init_consumer o).2 mon

/-- The queue, every pipe and every fork came up. -/
structure Outcomes.Starts (o : Outcomes) : Prop where
  mq_open : o.mq_open = true
  pipes : ∀ p ∈ pairs, o.pipe_to_consumer p.1 p.2 = true ∧ o.pipe_to_dispatcher p.1 p.2 = true
  consumers : ∀ p ∈ pairs, o.fork_consumer p.1 p.2 = true
  dispatcher : o.fork_dispatcher = true

theorem msg_q_init_eq_zero {o : Outcomes} : msg_q_init o = 0 ↔ o.mq_open = true := by
  unfold msg_q_init
  split <;> simp_all

theorem init_pipe_eq_zero {o : Outcomes} : init_pipe o = 0 ↔
    ∀ p ∈ pairs, o.pipe_to_consumer p.1 p.2 = true ∧ o.pipe_to_dispatcher p.1 p.2 = true := by
  unfold init_pipe
  rw [ite_eq_left_iff, List.all_eq_true]
  simp only [Bool.and_eq_true]
  constructor
  · intro h
    by_contra hall
    exact absurd (h hall) (by decide)
  · exact fun hall h => absurd hall h

theorem init_consumer_eq_zero {o : Outcomes} :
    (init_consumer o).1 = 0 ↔ ∀ p ∈ pairs, o.fork_consumer p.1 p.2 = true := by
  unfold init_consumer
  simp only
  constructor
  · intro h
    split at h
    · rename_i hlength
      have hall := (List.takeWhile_prefix
        fun p : Nat × Nat => o.fork_consumer p.1 p.2).eq_of_length hlength
      intro p hp
      rw [← hall] at hp
      simpa using List.mem_takeWhile_imp hp
    · cases h
  · intro h
    rw [if_pos]
    rw [List.takeWhile_eq_self_iff.mpr h]

theorem init_dispatcher_eq_zero {o : Outcomes} :
    init_dispatcher o = 0 ↔ o.fork_dispatcher = true := by
  unfold init_dispatcher
  split <;> simp_all

/-- The messages of the monitor's own queue that are no end marks. -/
def NoStop (mon : Monitor) : Prop := ∀ m ∈ mon.mq, m.op ≠ STOP_MESSAG

theorem HandledAll.noStop {es : List (Env × data_t)} {mon mon' : Monitor} {hs : List Handled}
    (h : HandledAll es mon mon' hs) (hmon : NoStop mon) : NoStop mon' := by
  intro m hm
  rw [h.mq_eq] at hm
  rcases List.mem_append.mp hm with hm | hm
  · exact hmon m hm
  · obtain ⟨hd, hhd, hm⟩ := List.mem_flatMap.mp hm
    obtain ⟨_, _, rfl⟩ := List.mem_map.mp hm
    obtain ⟨i, hi, rfl⟩ := List.getElem_of_mem hhd
    have hof := h.messages.get (h.messages.length_eq ▸ hi) hi
    rw [List.get_eq_getElem, List.get_eq_getElem] at hof
    rw [hof.op]
    exact mappedOp_ne_stop _

theorem run_main_loop_noStop {polls : List Poll} {err err' : Int} {mon mon' : Monitor}
    (hmap : mon.map = .builtin) (hmon : NoStop mon)
    (hrun : run_main_loop err polls mon = some (err', mon')) : NoStop mon' := by
  induction polls generalizing err mon with
  | nil => cases hrun
  | cons poll polls ih =>
    rw [run_main_loop] at hrun
    split at hrun
    · obtain ⟨_, rfl⟩ := Prod.mk.inj (Option.some.inj hrun)
      exact hmon
    · obtain ⟨⟨mon₁, hs⟩, hall, hrest⟩ := Option.bind_eq_some_iff.mp hrun
      have hhandled := handleAll_spec hmap hall
      have hmon₁ := hhandled.noStop hmon
      dsimp only at hrest
      split at hrest
      · obtain ⟨_, rfl⟩ := Prod.mk.inj (Option.some.inj hrest)
        exact hmon₁
      · exact ih (hhandled.map_eq.trans hmap) hmon₁ hrest

theorem monitor_exit {o : Outcomes} {consumers : Nat} {mon : Monitor} {e : Exit}
    (hmap : mon.map = .builtin) (hmq : mon.mq = []) (h : monitor o consumers mon = some e) :
    e.dispatcher = true ∧ ∀ m ∈ e.mq, m.op ≠ STOP_MESSAG := by
  have hmon : NoStop mon := by
    intro m hm
    rw [hmq] at hm
    cases hm
  unfold monitor at h
  dsimp only at h
  split at h
  · exact Option.some.inj h ▸ ⟨rfl, hmon⟩
  split at h
  · exact Option.some.inj h ▸ ⟨rfl, hmon⟩
  split at h
  · exact Option.some.inj h ▸ ⟨rfl, hmon⟩
  split at h
  · exact Option.some.inj h ▸ ⟨rfl, hmon⟩
  split at h
  · exact Option.some.inj h ▸ ⟨rfl, hmon⟩
  obtain ⟨⟨err, mon'⟩, hloop, rfl⟩ := Option.map_eq_some_iff.mp h
  exact ⟨rfl, run_main_loop_noStop hmap hmon hloop⟩

/-- Once `main` has returned, no dispatcher is left without a stop message exactly when its fork was
not reached or failed. -/
theorem main_exit {o : Outcomes} {e : Exit} (h : main o = some e) :
    (e.dispatcher = false ∨ ∃ m ∈ e.mq, m.op = STOP_MESSAG) ↔ ¬ o.Starts := by
  obtain ⟨dq, hdq, h⟩ := Option.bind_eq_some_iff.mp h
  obtain ⟨map, hmap, h⟩ := Option.bind_eq_some_iff.mp h
  rw [init_operation_map_start] at hmap
  obtain rfl := Option.some.inj hmap
  dsimp only at h
  split at h
  · rename_i hmq
    cases h
    exact iff_of_true (Or.inl rfl) fun hs => hmq (msg_q_init_eq_zero.mpr hs.mq_open)
  split at h
  · rename_i hpipe
    cases h
    exact iff_of_true (Or.inl rfl) fun hs => hpipe (init_pipe_eq_zero.mpr hs.pipes)
  split at h
  · rename_i hconsumer
    cases h
    exact iff_of_true (Or.inl rfl) fun hs => hconsumer (init_consumer_eq_zero.mpr hs.consumers)
  split at h
  · rename_i hdispatcher
    cases h
    exact iff_of_true (Or.inl rfl) fun hs =>
      hdispatcher (init_dispatcher_eq_zero.mpr hs.dispatcher)
  rename_i hmq hpipe hconsumer hdispatcher
  obtain ⟨hforked, hnostop⟩ := monitor_exit rfl rfl h
  apply iff_of_false
  · rintro (hfalse | ⟨m, hm, hstop⟩)
    · rw [hforked] at hfalse
      cases hfalse
    · exact hnostop m hm hstop
  · exact not_not_intro ⟨msg_q_init_eq_zero.mp (not_not.mp hmq),
      init_pipe_eq_zero.mp (not_not.mp hpipe), init_consumer_eq_zero.mp (not_not.mp hconsumer),
      init_dispatcher_eq_zero.mp (not_not.mp hdispatcher)⟩

/-- Every call succeeds, and the user interrupts the first poll. -/
def interrupted : Outcomes where
  dummy := { fresh := some 0 }
  mq_open := true
  pipe_to_consumer _ _ := true
  pipe_to_dispatcher _ _ := true
  fork_consumer _ _ := true
  fork_dispatcher := true
  fopen := true
  log_add_fp := true
  bpf_open := true
  stat := true
  bpf_load := true
  bpf_attach := true
  perf_buffer_new := true
  signal := true
  pthread_create := true
  polls := [⟨false, [], -EINTR⟩, ⟨true, [], 0⟩]

theorem main_exit_sample : ∃ e, main { interrupted with fork_dispatcher := false } = some e ∧
    ((e.dispatcher = false ∨ ∃ m ∈ e.mq, m.op = STOP_MESSAG) ↔
      ¬ Outcomes.Starts { interrupted with fork_dispatcher := false }) := by
  have hruns : (main { interrupted with fork_dispatcher := false }).isSome := by decide +kernel
  obtain ⟨e, he⟩ := Option.isSome_iff_exists.mp hruns
  exact ⟨e, he, main_exit he⟩

/-- An interrupted monitor leaves its dispatcher behind, with nothing in the queue to stop it. -/
theorem main_exit_orphan : ∃ e, main interrupted = some e ∧ e.cleaned = true ∧
    e.dispatcher = true ∧ e.mq = [] := by
  have hrun : (main interrupted).map (fun e => (e.cleaned, e.dispatcher, e.mq)) =
      some (true, true, []) := by decide +kernel
  obtain ⟨e, he, hfields⟩ := Option.map_eq_some_iff.mp hrun
  simp only [Prod.mk.injEq] at hfields
  exact ⟨e, he, hfields⟩

end Naarad
