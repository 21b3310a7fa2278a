import Naarad.Main

/-!
# The exit status (`file_monitor.c`)

`run_main_loop` returns what the last poll did, so the status tells more than whether the monitor
started: a poll that the signal has interrupted, or that has handled records, ends in 1 as well.
-/

set_option autoImplicit false

namespace Naarad

/-- Every call behind the forks succeeds, up to the thread. -/
structure Outcomes.Monitors (o : Outcomes) : Prop where
  fopen : o.fopen = true
  log_add_fp : o.log_add_fp = true
  bpf_open : o.bpf_open = true
  stat : o.stat = true
  bpf_load : o.bpf_load = true
  bpf_attach : o.bpf_attach = true
  perf_buffer_new : o.perf_buffer_new = true
  signal : o.signal = true
  pthread_create : o.pthread_create = true

/-- The error with which `run_main_loop` ends. -/
def Poll.Fails (poll : Poll) : Prop := poll.result < 0 ∧ poll.result ≠ -EINTR

/-- The polls that find the flag unset. -/
def polled (polls : List Poll) : List Poll := polls.takeWhile fun poll => !poll.stop

/-- No poll fails, and the last one has neither records nor the signal. -/
structure Quiet (polls : List Poll) : Prop where
  succeed : ∀ poll ∈ polls, ¬ poll.Fails
  last : ∀ poll ∈ polls.getLast?, poll.result = 0

theorem setup_logging_eq_zero {o : Outcomes} :
    setup_logging o = 0 ↔ o.fopen = true ∧ o.log_add_fp = true := by
  unfold setup_logging
  cases o.fopen <;> cases o.log_add_fp <;> simp

theorem setup_and_load_bpf_eq {o : Outcomes} : setup_and_load_bpf o = true ↔
    o.bpf_open = true ∧ o.stat = true ∧ o.bpf_load = true ∧ o.bpf_attach = true := by
  unfold setup_and_load_bpf
  cases o.bpf_open <;> cases o.stat <;> cases o.bpf_load <;> simp

theorem Quiet.nil : Quiet [] := ⟨fun _ hmem => absurd hmem List.not_mem_nil, fun _ hlast => by cases hlast⟩

theorem quiet_cons {poll : Poll} {polls : List Poll} :
    Quiet (poll :: polls) ↔ ¬ poll.Fails ∧ Quiet polls ∧ (polls = [] → poll.result = 0) := by
  cases polls with
  | nil =>
    constructor
    · intro h
      exact ⟨h.succeed poll List.mem_cons_self, .nil, fun _ => h.last poll rfl⟩
    · rintro ⟨hpoll, _, hresult⟩
      refine ⟨List.forall_mem_singleton.mpr hpoll, ?_⟩
      intro last hlast
      cases hlast
      exact hresult rfl
  | cons next polls =>
    constructor
    · intro h
      refine ⟨h.succeed poll List.mem_cons_self, ⟨?_, ?_⟩, fun hnil => by cases hnil⟩
      · exact fun p hp => h.succeed p (List.mem_cons_of_mem _ hp)
      · have hlast := h.last
        rw [List.getLast?_cons_cons] at hlast
        exact hlast
    · rintro ⟨hpoll, hquiet, _⟩
      refine ⟨List.forall_mem_cons.mpr ⟨hpoll, hquiet.succeed⟩, ?_⟩
      rw [List.getLast?_cons_cons]
      exact hquiet.last

/-- The result of the loop, over that of the poll before it. -/
theorem run_main_loop_eq_zero {polls : List Poll} {err err' : Int} {mon mon' : Monitor}
    (hrun : run_main_loop err polls mon = some (err', mon')) :
    err' = 0 ↔ Quiet (polled polls) ∧ (polled polls = [] → err = 0) := by
  induction polls generalizing err mon with
  | nil => cases hrun
  | cons poll polls ih =>
    rw [run_main_loop] at hrun
    split at hrun
    · rename_i hstop
      have hpolled : polled (poll :: polls) = [] := List.takeWhile_cons_of_neg (by simp [hstop])
      obtain ⟨rfl, _⟩ := Prod.mk.inj (Option.some.inj hrun)
      rw [hpolled]
      exact ⟨fun herr => ⟨.nil, fun _ => herr⟩, fun h => h.2 rfl⟩
    · rename_i hstop
      have hpolled : polled (poll :: polls) = poll :: polled polls :=
        List.takeWhile_cons_of_pos (by simp [hstop])
      obtain ⟨⟨mon₁, hs⟩, _, hrest⟩ := Option.bind_eq_some_iff.mp hrun
      dsimp only at hrest
      rw [hpolled, quiet_cons]
      split at hrest
      · rename_i hfails
        obtain ⟨rfl, _⟩ := Prod.mk.inj (Option.some.inj hrest)
        apply iff_of_false
        · have hneg := hfails.1
          omega
        · exact fun h => h.1.1 hfails
      · rename_i hfails
        rw [ih hrest]
        constructor
        · rintro ⟨hquiet, hresult⟩
          exact ⟨⟨hfails, hquiet, hresult⟩, fun hnil => by cases hnil⟩
        · rintro ⟨⟨_, hquiet, hresult⟩, _⟩
          exact ⟨hquiet, hresult⟩

theorem monitor_status {o : Outcomes} {consumers : Nat} {mon : Monitor} {e : Exit}
    (h : monitor o consumers mon = some e) :
    e.status = 0 ↔ o.Monitors ∧ Quiet (polled o.polls) := by
  unfold monitor at h
  dsimp only at h
  split at h
  · rename_i hlogging
    cases h
    refine iff_of_false (by simp) fun hm => hlogging ?_
    exact setup_logging_eq_zero.mpr ⟨hm.1.fopen, hm.1.log_add_fp⟩
  split at h
  · rename_i hbpf
    cases h
    refine iff_of_false (by simp) fun hm => ?_
    rw [setup_and_load_bpf_eq.mpr ⟨hm.1.bpf_open, hm.1.stat, hm.1.bpf_load, hm.1.bpf_attach⟩] at hbpf
    cases hbpf
  split at h
  · rename_i hbuffer
    cases h
    refine iff_of_false (by simp) fun hm => ?_
    rw [setup_perf_buffer, hm.1.perf_buffer_new] at hbuffer
    cases hbuffer
  split at h
  · rename_i hsignal
    cases h
    refine iff_of_false (by simp) fun hm => ?_
    rw [hm.1.signal] at hsignal
    cases hsignal
  split at h
  · rename_i hthread
    cases h
    refine iff_of_false (by simp) fun hm => ?_
    rw [hm.1.pthread_create] at hthread
    cases hthread
  rename_i hlogging hbpf hbuffer hsignal hthread
  obtain ⟨⟨err, mon'⟩, hloop, rfl⟩ := Option.map_eq_some_iff.mp h
  obtain ⟨hfopen, hfp⟩ := setup_logging_eq_zero.mp (not_not.mp hlogging)
  rw [Bool.not_eq_true, Bool.not_eq_false'] at hbpf hbuffer hsignal hthread
  obtain ⟨hopen, hstat, hload, hattach⟩ := setup_and_load_bpf_eq.mp hbpf
  have hmonitors : o.Monitors :=
    ⟨hfopen, hfp, hopen, hstat, hload, hattach, hbuffer, hsignal, hthread⟩
  have hstatus : (if err ≠ 0 then (1 : Int) else 0) = 0 ↔ err = 0 := by
    split <;> simp_all
  rw [hstatus, run_main_loop_eq_zero hloop]
  exact ⟨fun hquiet => ⟨hmonitors, hquiet.1⟩, fun hquiet => ⟨hquiet.2, fun _ => rfl⟩⟩

/-- `main` returns 0 exactly when everything has come up, no poll has failed, and the last one before
the flag was seen has timed out with no record. -/
theorem main_status {o : Outcomes} {e : Exit} (h : main o = some e) :
    e.status = 0 ↔ o.Starts ∧ o.Monitors ∧ Quiet (polled o.polls) := by
  obtain ⟨dq, hdq, h⟩ := Option.bind_eq_some_iff.mp h
  obtain ⟨map, hmap, h⟩ := Option.bind_eq_some_iff.mp h
  dsimp only at h
  split at h
  · rename_i hmq
    cases h
    exact iff_of_false (by simp) fun hs => hmq (msg_q_init_eq_zero.mpr hs.1.mq_open)
  split at h
  · rename_i hpipe
    cases h
    exact iff_of_false (by simp) fun hs => hpipe (init_pipe_eq_zero.mpr hs.1.pipes)
  split at h
  · rename_i hconsumer
    cases h
    exact iff_of_false (by simp) fun hs => hconsumer (init_consumer_eq_zero.mpr hs.1.consumers)
  split at h
  · rename_i hdispatcher
    cases h
    exact iff_of_false (by simp) fun hs =>
      hdispatcher (init_dispatcher_eq_zero.mpr hs.1.dispatcher)
  rename_i hmq hpipe hconsumer hdispatcher
  have hstarts : o.Starts :=
    ⟨msg_q_init_eq_zero.mp (not_not.mp hmq), init_pipe_eq_zero.mp (not_not.mp hpipe),
      init_consumer_eq_zero.mp (not_not.mp hconsumer),
      init_dispatcher_eq_zero.mp (not_not.mp hdispatcher)⟩
  rw [monitor_status h]
  exact ⟨fun hquiet => ⟨hstarts, hquiet⟩, fun hquiet => hquiet.2⟩

/-- The signal ends the first poll: everything went well, and the status is 1. -/
theorem main_status_sample : ∃ e, main interrupted = some e ∧
    (e.status = 0 ↔ interrupted.Starts ∧ interrupted.Monitors ∧ Quiet (polled interrupted.polls)) ∧
    e.status = 1 := by
  have hrun : (main interrupted).map (fun e => e.status) = some 1 := by decide +kernel
  obtain ⟨e, he, hstatus⟩ := Option.map_eq_some_iff.mp hrun
  exact ⟨e, he, main_status he, hstatus⟩

end Naarad
