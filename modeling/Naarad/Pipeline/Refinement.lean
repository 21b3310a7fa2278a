import Naarad.Pipeline.System

/-!
# The interleaving refines the sequence of calls

However the dispatcher and the consumers are scheduled between the steps of the monitor, the monitor
ends up where the calls of `handle_event` one after another end up, for some outcomes of `mq_send`;
and the dispatcher and the consumers do what they do without a monitor when the accepted messages
come from outside.
-/

set_option autoImplicit false

namespace Naarad

open Dispatch LabelledRun

theorem handleAll_concat {es : List (Env × data_t)} {env : Env} {e : data_t}
    {mon mon' mon'' : Monitor} {hs : List Handled} {h : Handled}
    (hall : handleAll es mon = some (mon', hs)) (hone : handle_event env e mon' = some (mon'', h)) :
    handleAll (es ++ [(env, e)]) mon = some (mon'', hs ++ [h]) := by
  induction es generalizing mon hs with
  | nil =>
    obtain ⟨rfl, rfl⟩ := Prod.mk.inj (Option.some.inj hall)
    simp only [List.nil_append, handleAll, hone, Option.bind_eq_bind, Option.bind_some,
      Option.pure_def]
  | cons first es ih =>
    obtain ⟨⟨mon₁, h₁⟩, hfirst, hrest⟩ := Option.bind_eq_some_iff.mp hall
    obtain ⟨⟨mon₂, hs'⟩, htail, hrest⟩ := Option.bind_eq_some_iff.mp hrest
    obtain ⟨rfl, rfl⟩ := Prod.mk.inj (Option.some.inj hrest)
    simp only [List.cons_append, handleAll, hfirst, ih htail, Option.bind_eq_bind,
      Option.bind_some, Option.pure_def]

/-- The first `k` attempts fail with `EAGAIN`, and from then on the outcome is `o`. -/
def againThen (k : Nat) (o : SendOutcome) (i : Nat) : SendOutcome := if i < k then .again else o

theorem sendLoop_again {outcome : Nat → SendOutcome} (k left retries : Nat)
    (h : ∀ i, i < k → outcome (retries + i) = .again) :
    sendLoop outcome (k + left) retries =
      ⟨(sendLoop outcome left (retries + k)).ret,
        List.replicate k .again ++ (sendLoop outcome left (retries + k)).attempts⟩ := by
  induction k generalizing retries with
  | zero =>
    rw [Nat.zero_add]
    rfl
  | succ k ih =>
    have hfirst : outcome retries = .again := h 0 (Nat.succ_pos k)
    have hrest := ih (retries + 1) fun i hi => by
      rw [Nat.add_assoc, Nat.add_comm 1 i]
      exact h (i + 1) (Nat.succ_lt_succ hi)
    rw [Nat.succ_add, sendLoop, hfirst]
    dsimp only
    rw [hrest, Nat.add_assoc retries 1 k, Nat.add_comm 1 k, List.replicate_succ]
    rfl

theorem send_with_retry_ends {k : Nat} {o : SendOutcome} (hk : k < MAX_RETRIES) (ho : o ≠ .again) :
    send_with_retry true (againThen k o) =
      ⟨if o = .sent then 0 else -1, List.replicate k .again ++ [o]⟩ := by
  obtain ⟨left, hleft⟩ : ∃ left, MAX_RETRIES = k + (left + 1) := ⟨MAX_RETRIES - k - 1, by omega⟩
  have hagain : ∀ i, i < k → againThen k o (0 + i) = .again := by
    intro i hi
    rw [Nat.zero_add]
    exact if_pos hi
  have hlast : againThen k o (0 + k) = o := by
    rw [Nat.zero_add]
    exact if_neg (Nat.lt_irrefl k)
  rw [send_with_retry, if_pos rfl, hleft, sendLoop_again k (left + 1) 0 hagain, sendLoop, hlast]
  cases o with
  | sent => rfl
  | again => exact absurd rfl ho
  | error => rfl

theorem send_with_retry_gives_up :
    send_with_retry true (fun _ => .again) = ⟨-1, List.replicate MAX_RETRIES .again⟩ := by
  rw [send_with_retry, if_pos rfl]
  exact sendLoop_again MAX_RETRIES 0 0 fun _ _ => rfl

theorem accepted_replicate_again (k : Nat) (ret : Int) (o : SendOutcome) (msg : Message) :
    SendResult.accepted ⟨ret, List.replicate k .again ++ [o]⟩ msg =
      if o = .sent then [msg] else [] := by
  have hnone : (List.replicate k SendOutcome.again).filter (· = .sent) = [] := by
    rw [List.filter_eq_nil_iff]
    intro o ho
    rw [List.eq_of_mem_replicate ho]
    decide
  unfold SendResult.accepted
  rw [List.filter_append, hnone, List.nil_append]
  cases o <;> rfl

theorem Sending.attempts_tried {p : Sending} {k : Nat} (o : SendOutcome)
    (h : p.attempts = List.replicate k .again) :
    (p.tried o).attempts = List.replicate k .again ++ [o] := by
  rw [tried, h]

namespace Pipeline

/-- What was handled, and what is being handled, is what the calls of `handle_event` one after
another have made of the monitor that the program started with. -/
inductive Sequential (mon₀ : Monitor) (s : Pipeline) : Prop where
  | idle (es : List (Env × data_t)) : s.sending = none → es.map Prod.snd = s.events →
    handleAll es mon₀ = some (s.monitor, s.handled) → Sequential mon₀ s
  | sending (es : List (Env × data_t)) {mon : Monitor} {stack : Message}
      {push : List Queue.Choice} {e : data_t} {p : Sending} {k : Nat} : s.sending = some p →
    es.map Prod.snd ++ [e] = s.events → handleAll es mon₀ = some (mon, s.handled) →
    buildMessage mon.map stack e = some p.msg →
    (Queue.Call.pushRear p.msg).run push mon.dq = some (s.monitor.dq, p.pushed) →
    s.monitor = { mon with
      counters := increment_counter p.msg.op mon.counters, dq := s.monitor.dq } →
    mon.mq_open = true → k < MAX_RETRIES → p.attempts = List.replicate k .again →
    Sequential mon₀ s

variable {mon₀ : Monitor} {s t : Pipeline} {M C A : Nat}

/-- The end of a send: the outcomes `outcome` explain the attempts and the result. -/
theorem Sequential.finish {p q : Sending} {ret : Int} (outcome : Nat → SendOutcome)
    (h : s.Sequential mon₀) (hsending : s.sending = some p) (hmsg : q.msg = p.msg)
    (hpushed : q.pushed = p.pushed)
    (houtcome : send_with_retry true outcome = ⟨ret, q.attempts⟩) (hnone : t.sending = none)
    (hevents : t.events = s.events)
    (hhandled : t.handled = s.handled ++ [⟨q.msg, q.pushed, ret, q.attempts⟩])
    (hmonitor : t.monitor =
      { s.monitor with mq := s.monitor.mq ++ SendResult.accepted ⟨ret, q.attempts⟩ q.msg }) :
    t.Sequential mon₀ := by
  cases h with
  | idle _ hidle =>
    rw [hidle] at hsending
    cases hsending
  | @sending es mon stack push e p' k hsome hes hall hbuild hpush hmon hopen =>
    cases Option.some.inj (hsome.symm.trans hsending)
    have hone : handle_event ⟨stack, push, outcome⟩ e mon = _ := handle_event_eq hbuild hpush
    rw [hopen, houtcome] at hone
    have hboth := handleAll_concat hall hone
    refine .idle (es ++ [(⟨stack, push, outcome⟩, e)]) hnone ?_ ?_
    · rw [List.map_append, hevents, ← hes]
      rfl
    · rw [hboth, hhandled, hmonitor, hmon, hmsg, hpushed, ← hopen]

theorem Sequential.attempts {p : Sending} (h : s.Sequential mon₀) (hsending : s.sending = some p) :
    ∃ k, k < MAX_RETRIES ∧ p.attempts = List.replicate k .again := by
  cases h with
  | idle _ hidle =>
    rw [hidle] at hsending
    cases hsending
  | @sending es mon stack push e p' k hsome _ _ _ _ _ _ hk hattempts =>
    cases Option.some.inj (hsome.symm.trans hsending)
    exact ⟨k, hk, hattempts⟩

theorem Sequential.step {l : Label} (h : s.Sequential mon₀)
    (hstep : Pipeline.step M C A l s = some t) : t.Sequential mon₀ := by
  cases moves_of_step hstep with
  | @event stack push e msg dq pushed hidle hopen hmsg hpush =>
    cases h with
    | idle es _ hes hall =>
      refine .sending es (k := 0) rfl ?_ hall hmsg hpush rfl hopen (by decide) rfl
      rw [hes]
      rfl
    | sending _ hsome =>
      rw [hidle] at hsome
      cases hsome
  | @refuse stack push e msg dq pushed hidle hopen hmsg hpush =>
    cases h with
    | idle es _ hes hall =>
      have hone : handle_event ⟨stack, push, fun _ => .error⟩ e s.monitor = _ :=
        handle_event_eq hmsg hpush
      rw [hopen] at hone
      refine .idle (es ++ [(⟨stack, push, fun _ => .error⟩, e)]) rfl ?_ ?_
      · rw [List.map_append, hes]
        rfl
      · rw [handleAll_concat hall hone]
        simp only [Pipeline.finish, count, send_with_retry, SendResult.accepted, Bool.false_eq_true,
          if_false, List.filter_nil, List.map_nil, List.append_nil, hopen]
    | sending _ hsome =>
      rw [hidle] at hsome
      cases hsome
  | @sent p hsending =>
    obtain ⟨k, hk, hattempts⟩ := h.attempts hsending
    have htried := Sending.attempts_tried .sent hattempts
    refine h.finish (q := p.tried .sent) (againThen k .sent) hsending rfl rfl ?_ rfl rfl rfl ?_
    · rw [htried]
      exact send_with_retry_ends hk (by decide)
    · rw [htried, accepted_replicate_again]
      rfl
  | @again p hsending hleft =>
    cases h with
    | idle _ hidle =>
      rw [hidle] at hsending
      cases hsending
    | @sending es mon stack push e p' k hsome hes hall hbuild hpush hmon hopen hk hattempts =>
      cases Option.some.inj (hsome.symm.trans hsending)
      have htried : (p.tried .again).attempts = List.replicate (k + 1) .again := by
        rw [List.replicate_succ', Sending.attempts_tried .again hattempts]
      rw [htried, List.length_replicate] at hleft
      exact .sending es (p := p.tried .again) rfl hes hall hbuild hpush hmon hopen hleft htried
  | @giveUp p hsending hleft =>
    obtain ⟨k, hk, hattempts⟩ := h.attempts hsending
    have htried := Sending.attempts_tried .again hattempts
    -- the attempt that fails is the last one
    have hlast : k + 1 = MAX_RETRIES := by
      rw [htried, List.length_append, List.length_replicate, List.length_singleton] at hleft
      omega
    refine h.finish (q := p.tried .again) (fun _ => .again) hsending rfl rfl ?_ rfl rfl rfl ?_
    · rw [htried, send_with_retry_gives_up, ← hlast, List.replicate_succ']
    · rw [htried, accepted_replicate_again, if_neg (by decide), List.append_nil]
      rfl
  | @error p hsending =>
    obtain ⟨k, hk, hattempts⟩ := h.attempts hsending
    have htried := Sending.attempts_tried .error hattempts
    refine h.finish (q := p.tried .error) (againThen k .error) hsending rfl rfl ?_ rfl rfl rfl ?_
    · rw [htried]
      exact send_with_retry_ends hk (by decide)
    · rw [htried, accepted_replicate_again, if_neg (by decide), List.append_nil]
      rfl
  | dispatcher =>
    cases h with
    | idle es hidle hes hall => exact .idle es hidle hes hall
    | sending es hsome hes hall hbuild hpush hmon hopen hk hattempts =>
      exact .sending es hsome hes hall hbuild hpush hmon hopen hk hattempts
  | consumer =>
    cases h with
    | idle es hidle hes hall => exact .idle es hidle hes hall
    | sending es hsome hes hall hbuild hpush hmon hopen hk hattempts =>
      exact .sending es hsome hes hall hbuild hpush hmon hopen hk hattempts

theorem Sequential.start (mon : Monitor) (mq : List Message) (stop_msg : Message)
    (ack_msg : Cid → Message) : (Pipeline.start mon mq stop_msg ack_msg).Sequential mon :=
  .idle [] rfl rfl rfl

theorem inner_run {mq : List Message} {stop_msg : Message} {ack_msg : Cid → Message}
    {ls : List Label} (hrun : exec (Pipeline.step M C A) ls (.start mon₀ mq stop_msg ack_msg) = some s) :
    ∃ ks, exec (Sys.step C A) ks (.start mq stop_msg ack_msg) = some s.sys := by
  suffices h : ∃ ks u, exec (Sys.step C A) ks (.start mq stop_msg ack_msg) = some u ∧ s.sys = u by
    obtain ⟨ks, u, hks, rfl⟩ := h
    exact ⟨ks, hks⟩
  refine exec_simulated (R := fun s u => Pipeline.sys s = u) ?_ rfl hrun
  rintro l s s' u rfl hstep
  cases moves_of_step hstep with
  | event => exact ⟨[], _, rfl, rfl⟩
  | refuse => exact ⟨[], _, rfl, rfl⟩
  | @sent p => exact ⟨[.enqueue p.msg], _, rfl, rfl⟩
  | again => exact ⟨[], _, rfl, rfl⟩
  | giveUp => exact ⟨[], _, rfl, rfl⟩
  | error => exact ⟨[], _, rfl, rfl⟩
  | @dispatcher o u hsys => exact ⟨[.dispatcher o], u, exec_cons.mpr ⟨u, hsys, rfl⟩, rfl⟩
  | @consumer c u hsys => exact ⟨[.consumer c], u, exec_cons.mpr ⟨u, hsys, rfl⟩, rfl⟩

end Pipeline

/-- Every run of the processes together is, for the monitor, a sequence of calls of `handle_event`,
of which the last may be under way, and, for the dispatcher and the consumers, a run in which the
messages are put into the queue from outside. -/
theorem pipeline_refines {M C A : Nat} {mon₀ : Monitor} {mq : List Message} {stop_msg : Message}
    {ack_msg : Cid → Message} {ls : List Pipeline.Label} {s : Pipeline}
    (hrun : exec (Pipeline.step M C A) ls (.start mon₀ mq stop_msg ack_msg) = some s) :
    (∃ es mon, handleAll es mon₀ = some (mon, s.handled) ∧
      (s.sending = none → es.map Prod.snd = s.events ∧ mon = s.monitor) ∧
      ∀ p, s.sending = some p → ∃ stack push e, es.map Prod.snd ++ [e] = s.events ∧
        ∀ send, ∃ mon' h, handle_event ⟨stack, push, send⟩ e mon = some (mon', h) ∧
          h.msg = p.msg ∧ h.pushed = p.pushed ∧ mon'.counters = s.monitor.counters ∧
          mon'.dq = s.monitor.dq) ∧
    ∃ ks, exec (Sys.step C A) ks (.start mq stop_msg ack_msg) = some s.sys := by
  refine ⟨?_, Pipeline.inner_run hrun⟩
  have hseq : s.Sequential mon₀ :=
    exec_invariant (fun _ _ _ h hstep => h.step hstep) (.start mon₀ mq stop_msg ack_msg) hrun
  cases hseq with
  | idle es hidle hes hall =>
    refine ⟨es, s.monitor, hall, fun _ => ⟨hes, rfl⟩, ?_⟩
    intro p hp
    rw [hidle] at hp
    cases hp
  | @sending es mon stack push e q _ hsome hes hall hbuild hpush hmon =>
    refine ⟨es, mon, hall, ?_, ?_⟩
    · intro hnone
      rw [hsome] at hnone
      cases hnone
    · intro p hp
      cases Option.some.inj (hsome.symm.trans hp)
      refine ⟨stack, push, e, hes, ?_⟩
      intro send
      refine ⟨_, _, handle_event_eq hbuild hpush, rfl, rfl, ?_, rfl⟩
      rw [hmon]

theorem pipeline_refines_sample :
    ∃ s, exec (Pipeline.step 10 1 1) Pipeline.openProcessed Pipeline.freshStart = some s ∧
    (∃ es mon, handleAll es (.fresh 0) = some (mon, s.handled) ∧
      (s.sending = none → es.map Prod.snd = s.events ∧ mon = s.monitor) ∧
      ∀ p, s.sending = some p → ∃ stack push e, es.map Prod.snd ++ [e] = s.events ∧
        ∀ send, ∃ mon' h, handle_event ⟨stack, push, send⟩ e mon = some (mon', h) ∧
          h.msg = p.msg ∧ h.pushed = p.pushed ∧ mon'.counters = s.monitor.counters ∧
          mon'.dq = s.monitor.dq) ∧
    ∃ ks, exec (Sys.step 1 1) ks firstStart = some s.sys := by
  obtain ⟨s, hrun⟩ := Option.isSome_iff_exists.mp Pipeline.openProcessed_runs
  exact ⟨s, hrun, pipeline_refines hrun⟩

end Naarad
