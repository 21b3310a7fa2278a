import Naarad.Dispatch.Delivery
import Naarad.Dispatch.Phases

/-!
# Consumers that end on their own

A consumer may be killed between any two steps, and it leaves its loop when its `read` fails. The
dispatcher does not ignore `SIGPIPE`, so the branch that reports a failed `write` is never reached:
a write to a consumer that has closed its end ends the dispatcher.
-/

set_option autoImplicit false

namespace Naarad.Dispatch

open LabelledRun

inductive Happening where
  | step (lab : Label)
  | kill (c : Cid)
  | readError (c : Cid)
  deriving DecidableEq

namespace Link

def kill (l : Link) : Option Link := if l.pc.gone then none else some { l with pc := .killed }

/-- `read` returns -1 and the consumer breaks out of its loop. -/
def readError (l : Link) : Option Link :=
  match l.pc with
  | .read => some { l with pc := .closeRead }
  | _ => none

theorem kill_eq_some {l l' : Link} (h : l.kill = some l') : l' = { l with pc := .killed } := by
  unfold kill at h
  split at h
  · cases h
  · exact (Option.some.inj h).symm

theorem readError_eq_some {l l' : Link} (h : l.readError = some l') :
    l.pc = .read ∧ l' = { l with pc := .closeRead } := by
  unfold readError at h
  split at h
  case h_1 hpc => exact ⟨hpc, (Option.some.inj h).symm⟩
  case h_2 => cases h

theorem Flow.readError {l l' : Link} (h : l.Flow) (hread : l.readError = some l') : l'.Flow := by
  obtain ⟨hpc, rfl⟩ := readError_eq_some hread
  refine ⟨h.sent_eq, ?_, h.counters_eq, h.acks_op⟩
  have hgot := h.got_eq
  rw [hpc] at hgot
  exact hgot

/-- The dispatcher can read an acknowledgement or the end of file. -/
def Readable (l : Link) : Prop := l.acks ≠ [] ∨ l.pc.writes = false

theorem readable_iff {l : Link} : l.readable = true ↔ l.Readable := by
  unfold readable Readable
  rw [Bool.or_eq_true, Bool.not_eq_true', Bool.not_eq_true', List.isEmpty_eq_false_iff]

theorem Readable.taken {l : Link} (h : l.Readable) : ∃ l', l.takeAck = some l' := by
  unfold takeAck
  split
  · exact ⟨_, rfl⟩
  · rename_i hacks
    rcases h with hne | hwrites
    · exact absurd hacks hne
    · rw [hwrites]
      exact ⟨_, rfl⟩

theorem Readable.consumer {A : Nat} {l l' : Link} (h : l.Readable)
    (hstep : l.consumer A = some l') : l'.Readable := by
  rcases h with hacks | hwrites
  · apply Or.inl
    cases consumes_of_consumer hstep with
    | ack => exact List.append_ne_nil_of_left_ne_nil hacks _
    | _ => exact hacks
  · rw [consumer_of_gone hwrites] at hstep
    cases hstep

end Link

def DispatcherPc.dispatching : DispatcherPc → Bool
  | .receive | .write (.dispatch _) _ | .select (.dispatch _) _ | .readAck (.dispatch _) _ => true
  | _ => false

namespace Sys

def mortalStep (C A : Nat) : Happening → Sys → Option Sys
  | .step lab, s => step C A lab s
  | .kill c, s => (s.links c).kill.map (s.setLink c)
  | .readError c, s => (s.links c).readError.map (s.setLink c)

/-- How the system call that the dispatcher has to make answers when nothing fails. -/
def answer (s : Sys) : Outcome :=
  match s.dispatcher with
  | .select r _ => if (s.links (r.consumer s.current_consumer)).readable then .ok else .timeout
  | _ => .ok

/-- The queue is empty, or the pipe to a living consumer is full. -/
def Waits (C : Nat) (s : Sys) : Prop :=
  match s.dispatcher with
  | .receive => s.mq = []
  | .write r _ =>
    (s.links (r.consumer s.current_consumer)).pc.reads = true ∧
      C ≤ (s.links (r.consumer s.current_consumer)).data.length
  | _ => False

/-- Until the stop message the dispatcher is in its loop and not stuck there, every message received
is dealt to the consumer whose turn it is, and arrives there unless that consumer was killed. -/
structure GoesOn (C : Nat) (s : Sys) : Prop where
  loops : (∃ m ∈ s.received, IsStop m) ∨ s.dispatcher.dispatching = true
  moves : s.dispatcher.dispatching = true → s.Waits C ∨ ∃ t, s.dispatch C s.answer = some t
  dealt : s.InTurn
  arrives : ∀ c, (s.links c).pc ≠ .killed → (s.links c).Flow

/-- What is received is a stop message or belongs to a group, `mq_receive` fails with `EAGAIN` only,
and what is written goes to a consumer that still has its end of the pipe. -/
def Reaches : Happening → Sys → Prop
  | .step (.dispatcher o), s =>
    match s.dispatcher, o with
    | .receive, .ok => ∀ msg ∈ s.mq.head?, IsStop msg ∨ msg.category.toNat < NUM_GROUPS
    | .receive, .error => False
    | .write (.dispatch g) _, _ => (s.links (g, s.current_consumer g)).pc.reads = true
    | _, _ => True
  | _, _ => True

/-- What the dispatcher's loop keeps: it deals until it has seen a stop message, and when it goes to
read an acknowledgement there is something to read. -/
structure Dealing (s : Sys) : Prop where
  loops : s.dispatcher.dispatching = true ↔ ¬ ∃ m ∈ s.received, IsStop m
  readable : ∀ g msg, s.dispatcher = .readAck (.dispatch g) msg →
    (s.links (g, s.current_consumer g)).Readable
  dealt : s.InTurn
  arrives : ∀ c, (s.links c).pc ≠ .killed → (s.links c).Flow

variable {C A : Nat} {s t : Sys}

theorem receive_dispatching (msg : Message) (mq : List Message) (s : Sys) :
    (s.receive msg mq).dispatcher.dispatching = true ↔
      ¬ IsStop msg ∧ msg.category.toNat < NUM_GROUPS := by
  unfold receive startStop IsStop
  dsimp only
  split
  · rename_i hstop
    simp [DispatcherPc.dispatching, hstop]
  · rename_i hstop
    split
    · rename_i hcat
      simp [DispatcherPc.dispatching, hstop, hcat]
    · rename_i hcat
      simp [DispatcherPc.dispatching, hcat]

theorem stop_mem_concat {xs : List Message} {msg : Message} :
    (∃ m ∈ xs ++ [msg], IsStop m) ↔ (∃ m ∈ xs, IsStop m) ∨ IsStop msg := by
  constructor
  · rintro ⟨m, hm, hstop⟩
    rcases List.mem_append.mp hm with hm | hm
    · exact Or.inl ⟨m, hm, hstop⟩
    · exact Or.inr (List.mem_singleton.mp hm ▸ hstop)
  · rintro (⟨m, hm, hstop⟩ | hstop)
    · exact ⟨m, List.mem_append_left _ hm, hstop⟩
    · exact ⟨msg, List.mem_append_right _ (List.mem_singleton_self _), hstop⟩

theorem receive_not_readAck {msg : Message} {mq : List Message} {s : Sys} {r : Round}
    {msg' : Message} : (s.receive msg mq).dispatcher ≠ .readAck r msg' := by
  unfold receive startStop
  dsimp only
  split
  · intro h
    cases h
  · split <;> (intro h; cases h)

theorem finishRound_dispatching (r : Round) (msg : Message) (s : Sys) :
    (s.finishRound r).dispatcher.dispatching = (DispatcherPc.select r msg).dispatching := by
  unfold finishRound
  cases r with
  | dispatch g => rfl
  | stop c =>
    dsimp only
    split <;> rfl

theorem finishRound_not_readAck {r r' : Round} {msg : Message} {s : Sys} :
    (s.finishRound r).dispatcher ≠ .readAck r' msg := by
  unfold finishRound
  cases r with
  | dispatch g =>
    intro h
    cases h
  | stop c =>
    dsimp only
    split <;> (intro h; cases h)

theorem afterClose_dispatching (c : Cid) : (afterClose c).dispatching = false := by
  unfold afterClose
  split <;> rfl

theorem arrives_step {lab : Label} (h : ∀ c, (s.links c).pc ≠ .killed → (s.links c).Flow)
    (hstep : step C A lab s = some t) : ∀ c, (t.links c).pc ≠ .killed → (t.links c).Flow := by
  intro c
  apply links_step (P := fun l => l.pc ≠ .killed → l.Flow) c _ _ _ _ _ (h c) hstep
  · intro l l' msg hl _ hsend
    obtain ⟨_, rfl⟩ := Link.send_eq_some.mp hsend
    exact fun hpc => (hl hpc).send hsend
  · intro l l' hl htake hpc
    refine (hl ?_).takeAck htake
    rcases Link.takeAck_eq_some htake with ⟨_, _, _, rfl⟩ | ⟨_, _, rfl⟩
    · exact hpc
    · exact hpc
  · intro l l' hl hconsume _
    refine (hl ?_).consumer hconsume
    intro hkilled
    rw [Link.consumer_of_gone (by rw [hkilled]; rfl)] at hconsume
    cases hconsume
  · intro l hl hpc
    exact (hl hpc).ends l.write_open false
  · intro l hl hpc
    exact (hl hpc).ends false l.read_open

/-- A step that receives nothing and stays inside or outside of the dispatching loop. -/
theorem Dealing.of_same (h : s.Dealing) (hreceived : t.received = s.received)
    (hloop : t.dispatcher.dispatching = s.dispatcher.dispatching) :
    t.dispatcher.dispatching = true ↔ ¬ ∃ m ∈ t.received, IsStop m := by
  rw [hreceived, hloop]
  exact h.loops

theorem Dealing.step {lab : Label} (h : s.Dealing) (hok : Reaches (.step lab) s)
    (hstep : Sys.step C A lab s = some t) : t.Dealing := by
  have hdealt : t.InTurn := h.dealt.step hstep
  have harrives := arrives_step h.arrives hstep
  suffices hkept : (t.dispatcher.dispatching = true ↔ ¬ ∃ m ∈ t.received, IsStop m) ∧
      ∀ g msg, t.dispatcher = .readAck (.dispatch g) msg →
        (t.links (g, t.current_consumer g)).Readable from
    ⟨hkept.1, hkept.2, hdealt, harrives⟩
  clear hdealt harrives
  cases moves_of_step hstep with
  | enqueue => exact ⟨h.loops, h.readable⟩
  | @receive msg mq hpc hmq =>
    refine ⟨?_, fun g msg' hread => absurd hread receive_not_readAck⟩
    have hloops := h.loops
    rw [hpc] at hloops
    have hbefore := hloops.mp rfl
    simp only [Reaches, hpc, hmq, List.head?_cons, Option.mem_def, Option.some.injEq,
      forall_eq'] at hok
    rw [receive_dispatching, receive_received, stop_mem_concat, not_or]
    constructor
    · exact fun h => ⟨hbefore, h.1⟩
    · exact fun h => ⟨h.2, hok.resolve_left h.2⟩
  | again => exact ⟨h.loops, h.readable⟩
  | leave hpc =>
    simp only [Reaches, hpc] at hok
  | @write r msg l hpc =>
    refine ⟨h.of_same rfl ?_, fun g msg' hread => by cases hread⟩
    rw [hpc]
    cases r <;> rfl
  | @die r msg hpc hreads =>
    refine ⟨?_, fun g msg' hread => by cases hread⟩
    cases r with
    | dispatch g =>
      simp only [Reaches, hpc] at hok
      rw [show (s.links (g, s.current_consumer g)).pc.reads = false from hreads] at hok
      cases hok
    | stop c =>
      refine h.of_same rfl ?_
      rw [hpc]
      rfl
  | @ready r msg hpc hready =>
    constructor
    · refine h.of_same rfl ?_
      rw [hpc]
      cases r <;> rfl
    · intro g msg' hread
      cases hread
      exact Link.readable_iff.mp hready
  | @giveUp r msg o hpc =>
    refine ⟨?_, fun g msg' hread => absurd hread finishRound_not_readAck⟩
    refine h.of_same (finishRound_received r s) ?_
    rw [finishRound_dispatching r msg, hpc]
  | @readAck r msg l hpc =>
    refine ⟨?_, fun g msg' hread => absurd hread finishRound_not_readAck⟩
    refine h.of_same (finishRound_received r _) ?_
    rw [finishRound_dispatching r msg, hpc]
    cases r <;> rfl
  | @closeRead d hpc =>
    refine ⟨h.of_same rfl ?_, fun g msg' hread => by cases hread⟩
    rw [hpc]
    rfl
  | @closeWrite d hpc =>
    have hloop := afterClose_dispatching d
    constructor
    · refine h.of_same rfl ?_
      rw [hpc]
      exact hloop
    · intro g msg' hread
      rw [show afterClose d = .readAck (.dispatch g) msg' from hread] at hloop
      cases hloop
  | @consumer d l hl =>
    refine ⟨h.loops, ?_⟩
    intro g msg' hread
    have hwas := h.readable g msg' hread
    show ((s.setLink d l).links (g, s.current_consumer g)).Readable
    apply setLink_cases
    · rintro rfl
      exact hwas.consumer hl
    · exact fun _ => hwas

/-- A consumer that ends has read nothing more and leaves an end of file behind. -/
theorem Dealing.setLink {c : Cid} {l : Link} (h : s.Dealing) (hsent : l.sent = (s.links c).sent)
    (hreadable : (s.links c).Readable → l.Readable)
    (hflow : l.pc ≠ .killed → (s.links c).pc ≠ .killed ∧ ((s.links c).Flow → l.Flow)) :
    (s.setLink c l).Dealing := by
  refine ⟨h.loops, ?_, h.dealt.of_sent (update_sent hsent), ?_⟩
  · intro g msg hread
    have hwas := h.readable g msg hread
    show ((s.setLink c l).links (g, s.current_consumer g)).Readable
    apply setLink_cases
    · rintro rfl
      exact hreadable hwas
    · exact fun _ => hwas
  · intro d
    apply setLink_cases (P := fun l => l.pc ≠ .killed → l.Flow)
    · rintro rfl hpc
      obtain ⟨halive, hkeeps⟩ := hflow hpc
      exact hkeeps (h.arrives _ halive)
    · exact fun _ => h.arrives d

theorem Dealing.mortalStep {e : Happening} (h : s.Dealing) (hok : Reaches e s)
    (hstep : Sys.mortalStep C A e s = some t) : t.Dealing := by
  cases e with
  | step lab => exact h.step hok hstep
  | kill c =>
    obtain ⟨l, hl, rfl⟩ := Option.map_eq_some_iff.mp hstep
    have hkilled := Link.kill_eq_some hl
    subst hkilled
    exact h.setLink rfl (fun _ => Or.inr rfl) fun hpc => absurd rfl hpc
  | readError c =>
    obtain ⟨l, hl, rfl⟩ := Option.map_eq_some_iff.mp hstep
    obtain ⟨hpc, heq⟩ := Link.readError_eq_some hl
    have hkeeps : (s.links c).Flow → l.Flow := fun hflow => hflow.readError hl
    subst heq
    refine h.setLink rfl ?_ fun _ => ⟨?_, hkeeps⟩
    · rintro (hacks | hwrites)
      · exact Or.inl hacks
      · rw [hpc] at hwrites
        cases hwrites
    · rw [hpc]
      exact ConsumerPc.noConfusion

theorem Dealing.moves (h : s.Dealing) (hloop : s.dispatcher.dispatching = true) :
    s.Waits C ∨ ∃ t, s.dispatch C s.answer = some t := by
  unfold Waits answer dispatch
  cases hpc : s.dispatcher with
  | receive =>
    cases hmq : s.mq with
    | nil => exact Or.inl rfl
    | cons msg mq => exact Or.inr ⟨_, rfl⟩
  | write r msg =>
    dsimp only
    by_cases hreads : (s.links (r.consumer s.current_consumer)).pc.reads = true
    · rw [if_pos hreads]
      by_cases hroom : (s.links (r.consumer s.current_consumer)).data.length < C
      · apply Or.inr
        rw [Link.send_eq_some.mpr ⟨hroom, rfl⟩]
        exact ⟨_, rfl⟩
      · exact Or.inl ⟨hreads, Nat.le_of_not_lt hroom⟩
    · rw [if_neg hreads]
      exact Or.inr ⟨_, rfl⟩
  | select r msg =>
    apply Or.inr
    dsimp only
    by_cases hready : (s.links (r.consumer s.current_consumer)).readable = true
    · rw [if_pos hready]
      exact ⟨_, if_pos hready⟩
    · rw [if_neg hready]
      exact ⟨_, if_neg hready⟩
  | readAck r msg =>
    cases r with
    | dispatch g =>
      obtain ⟨l, hl⟩ := (h.readable g msg hpc).taken
      apply Or.inr
      dsimp only [Round.consumer]
      rw [hl]
      exact ⟨_, rfl⟩
    | stop c =>
      rw [hpc] at hloop
      cases hloop
  | _ =>
    rw [hpc] at hloop
    cases hloop

theorem Dealing.goesOn (h : s.Dealing) : s.GoesOn C := by
  refine ⟨?_, h.moves, h.dealt, h.arrives⟩
  by_cases hstop : ∃ m ∈ s.received, IsStop m
  · exact Or.inl hstop
  · exact Or.inr (h.loops.mpr hstop)

/-- Without a stop message, a step that the condition rules out takes the dispatcher out of its
loop. -/
theorem Dealing.stops {e : Happening} (h : s.Dealing) (hbad : ¬ Reaches e s)
    (hstep : Sys.mortalStep C A e s = some t) : ¬ t.GoesOn C := by
  suffices hleft : t.dispatcher.dispatching = false ∧ ¬ ∃ m ∈ t.received, IsStop m by
    intro hgoes
    rcases hgoes.loops with hstop | hloop
    · exact hleft.2 hstop
    · rw [hleft.1] at hloop
      cases hloop
  have hloops := h.loops
  rcases e with (msg | o | c) | c | c
  case step.dispatcher =>
    have hdispatch : s.dispatch C o = some t := hstep
    dsimp only [Reaches] at hbad
    unfold dispatch at hdispatch
    cases hpc : s.dispatcher with
    | receive =>
      rw [hpc] at hbad hloops hdispatch
      have hbefore := hloops.mp rfl
      cases o with
      | ok =>
        cases hmq : s.mq with
        | nil =>
          rw [hmq] at hdispatch
          cases hdispatch
        | cons msg mq =>
          rw [hmq] at hdispatch
          cases hdispatch
          simp only [hmq, List.head?_cons, Option.mem_def, Option.some.injEq, forall_eq',
            not_or] at hbad
          constructor
          · rw [Bool.eq_false_iff, ne_eq, receive_dispatching]
            exact fun hin => hbad.2 hin.2
          · rw [receive_received, stop_mem_concat, not_or]
            exact ⟨hbefore, hbad.1⟩
      | timeout => exact absurd trivial hbad
      | error =>
        cases hdispatch
        exact ⟨rfl, hbefore⟩
    | write r msg =>
      rw [hpc] at hbad hloops hdispatch
      cases r with
      | dispatch g =>
        cases o with
        | ok =>
          dsimp only [Round.consumer] at hdispatch
          rw [if_neg hbad] at hdispatch
          cases hdispatch
          exact ⟨rfl, hloops.mp rfl⟩
        | _ => cases hdispatch
      | stop c => exact absurd trivial hbad
    | _ =>
      rw [hpc] at hbad
      exact absurd trivial hbad
  all_goals exact absurd trivial hbad

theorem start_dealing (mq : List Message) (stop_msg : Message) (ack_msg : Cid → Message) :
    (start mq stop_msg ack_msg).Dealing := by
  refine ⟨?_, ?_, start_inTurn mq stop_msg ack_msg, fun c _ => .start _⟩
  · refine ⟨?_, fun _ => rfl⟩
    rintro - ⟨m, hm, _⟩
    cases hm
  · intro g msg hread
    cases hread

end Sys

/-- In every state of a run, whichever consumers end and when, the dispatcher goes on until the stop
message, if and only if every message that it writes goes to a consumer that still reads, none
belongs to no group, and `mq_receive` does not fail. -/
theorem goes_on_iff {C A : Nat} {mq : List Message} {stop_msg : Message}
    {ack_msg : Cid → Message} {es : List Happening} {s : Sys}
    (hrun : exec (Sys.mortalStep C A) es (.start mq stop_msg ack_msg) = some s) :
    Along (Sys.mortalStep C A) Sys.Reaches es (.start mq stop_msg ack_msg) ↔
      ∀ ks ms t, es = ks ++ ms →
        exec (Sys.mortalStep C A) ks (.start mq stop_msg ack_msg) = some t → t.GoesOn C :=
  along_iff_reached_of_inv (P := Sys.Dealing) (fun _ _ _ h hok hstep => h.mortalStep hok hstep)
    (fun _ _ _ h hbad hstep => h.stops hbad hstep) (fun _ h => h.goesOn)
    (Sys.start_dealing mq stop_msg ack_msg) hrun

/-- The first consumer dies while the dispatcher waits for its acknowledgement; the next message of
the group goes to the second one. -/
def deathInRound : List Happening :=
  (timedOutRound.take 3).map .step ++ [.kill firstConsumer] ++
    [.dispatcher .ok, .dispatcher .ok, .enqueue Message.zero, .dispatcher .ok, .dispatcher .ok,
      .consumer secondConsumer].map .step

theorem goes_on_iff_survives : ∃ s, exec (Sys.mortalStep 1 1) deathInRound firstStart = some s ∧
    Along (Sys.mortalStep 1 1) Sys.Reaches deathInRound firstStart ∧
    ∀ ks ms t, deathInRound = ks ++ ms →
      exec (Sys.mortalStep 1 1) ks firstStart = some t → t.GoesOn 1 := by
  have hrun : (exec (Sys.mortalStep 1 1) deathInRound firstStart).isSome := by decide +kernel
  obtain ⟨s, hs⟩ := Option.isSome_iff_exists.mp hrun
  have hgroup : ∀ msg ∈ some Message.zero, IsStop msg ∨ msg.category.toNat < NUM_GROUPS := by
    simp only [Option.mem_def, Option.some.injEq, forall_eq']
    exact Or.inr (by decide)
  have hreaches : Along (Sys.mortalStep 1 1) Sys.Reaches deathInRound firstStart :=
    ⟨trivial, hgroup, rfl, trivial, trivial, trivial, trivial, hgroup, rfl, trivial, trivial⟩
  exact ⟨s, hs, hreaches, (goes_on_iff hs).mp hreaches⟩

/-- The same death before the first message: the dispatcher is killed with a message of another
group in the queue, while all the other consumers live. -/
def deathBefore : List Happening :=
  [.kill firstConsumer] ++ [.enqueue Message.zero, .enqueue { Message.zero with category := 1 },
    .dispatcher .ok, .dispatcher .ok].map .step

theorem dead_consumer_stops_dispatcher :
    ∃ s, exec (Sys.mortalStep 1 1) deathBefore firstStart = some s ∧
      s.dispatcher = .killed ∧ s.mq = [{ Message.zero with category := 1 }] ∧
      (∀ c, c ≠ firstConsumer → (s.links c).pc = .read) ∧ ¬ s.GoesOn 1 := by
  refine ⟨_, rfl, rfl, rfl, ?_, ?_⟩
  · intro c hc
    have hlink : ∀ l, (firstStart.setLink firstConsumer l).links c = firstStart.links c :=
      fun l => Sys.setLink_of_ne hc
    exact congrArg Link.pc (hlink { Link.start Message.zero with pc := .killed })
  · intro hgoes
    rcases hgoes.loops with ⟨m, hm, hstop⟩ | hloop
    · rw [List.mem_singleton.mp hm] at hstop
      exact absurd hstop (by decide)
    · cases hloop

end Naarad.Dispatch
