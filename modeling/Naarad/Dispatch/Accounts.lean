import Naarad.Dispatch.Phases
import Naarad.Lib.Tally
import Mathlib.Data.Fintype.Prod

/-!
# Every message received is accounted for

A message that the dispatcher has taken from the queue is still in its hand, is on its way to one
consumer, or has been processed by that consumer, and each is in one of these places only.
-/

set_option autoImplicit false

namespace Naarad.Dispatch

open Function (update)
open LabelledRun Tally

/-- What was taken from the queue and is not yet written to a pipe. -/
def DispatcherPc.hand : DispatcherPc → List Message
  | .write (.dispatch _) msg => [msg]
  | _ => []

/-- What was written to the pipe and is not yet processed. -/
def Link.pending (l : Link) : List Message := l.pc.inHand ++ l.data

variable {p : Message → Bool}

theorem Link.Flow.countP_sent {l : Link} (h : l.Flow) :
    l.sent.countP p = l.processed.countP p + l.pending.countP p := by
  rw [← h.processed_append, List.countP_append, pending]

namespace Sys

/-- No message of the queue is for a group that does not exist. -/
def KnownGroup (msg : Message) : Prop := msg.category.toNat < NUM_GROUPS

def SendsKnown (lab : Label) (_ : Sys) : Prop := ∀ msg, lab = .enqueue msg → KnownGroup msg

structure Accounted (s : Sys) : Prop where
  known : ∀ m ∈ s.mq, KnownGroup m
  received : ∀ p : Message → Bool, (∀ m, IsStop m → p m = false) → s.received.countP p =
    s.dispatcher.hand.countP p + total (fun l => l.sent.countP p) s.links

theorem hand_finishRound (r : Round) (s : Sys) : (s.finishRound r).dispatcher.hand = [] := by
  unfold finishRound
  cases r with
  | dispatch g => rfl
  | stop c =>
    dsimp only
    split <;> rfl

theorem hand_afterClose (c : Cid) : (afterClose c).hand = [] := by
  unfold afterClose
  split <;> rfl

theorem hand_receive {s : Sys} {msg : Message} {mq : List Message} (hgroup : KnownGroup msg)
    (hstop : ∀ m, IsStop m → p m = false) :
    (s.receive msg mq).dispatcher.hand.countP p = [msg].countP p := by
  unfold receive
  dsimp only
  by_cases hop : msg.op = STOP_MESSAG
  · rw [if_pos hop, List.countP_singleton, hstop msg hop]
    rfl
  · rw [if_neg hop, dif_pos (show msg.category.toNat < NUM_GROUPS from hgroup)]
    rfl

theorem receive_mq (msg : Message) (mq : List Message) (s : Sys) :
    (s.receive msg mq).mq = mq := by
  unfold receive
  dsimp only
  split
  · rfl
  · split <;> rfl

theorem finishRound_mq (r : Round) (s : Sys) : (s.finishRound r).mq = s.mq := by
  unfold finishRound
  cases r with
  | dispatch g => rfl
  | stop c =>
    dsimp only
    split <;> rfl

/-- The step leaves what was received, what is in the hand and what was sent as they are. -/
theorem Accounted.of_same {s t : Sys} (h : s.Accounted) (hmq : t.mq = s.mq)
    (hreceived : t.received = s.received) (hand : t.dispatcher.hand = s.dispatcher.hand)
    (hsent : ∀ c, (t.links c).sent = (s.links c).sent) : t.Accounted := by
  refine ⟨?_, ?_⟩
  · rw [hmq]
    exact h.known
  · intro p hstop
    rw [hreceived, hand, h.received p hstop]
    congr 1
    exact total_congr fun c => congrArg _ (hsent c).symm

theorem Accounted.step {C A : Nat} {lab : Label} {s t : Sys} (h : s.Accounted) (hstaged : s.Staged)
    (hknown : SendsKnown lab s) (hstep : Sys.step C A lab s = some t) : t.Accounted := by
  cases moves_of_step hstep with
  | enqueue msg =>
    refine ⟨?_, h.received⟩
    exact List.forall_mem_append.mpr ⟨h.known, List.forall_mem_singleton.mpr (hknown msg rfl)⟩
  | @receive msg mq hpc hmq =>
    have hall := h.known
    rw [hmq] at hall
    obtain ⟨hmsg, hrest⟩ := List.forall_mem_cons.mp hall
    refine ⟨?_, ?_⟩
    · rw [receive_mq]
      exact hrest
    · intro p hstop
      have hwas := h.received p hstop
      rw [hpc, show DispatcherPc.receive.hand = [] from rfl, List.countP_nil, Nat.zero_add] at hwas
      rw [receive_received, List.countP_append, hand_receive hmsg hstop, receive_links, hwas,
        Nat.add_comm]
  | again => exact h
  | leave hpc =>
    refine h.of_same rfl rfl ?_ fun _ => rfl
    rw [hpc]
    rfl
  | @write r msg l hpc _ hl =>
    refine ⟨h.known, ?_⟩
    intro p hstop
    have hwas := h.received p hstop
    have htotal := total_update (fun l => l.sent.countP p) s.links (r.consumer s.current_consumer) l
    have hgrows : l.sent.countP p =
        (s.links (r.consumer s.current_consumer)).sent.countP p + [msg].countP p := by
      rw [Link.send_sent hl, List.countP_append]
    have hhand : (DispatcherPc.write r msg).hand.countP p = [msg].countP p := by
      cases r with
      | dispatch g => rfl
      | stop c =>
        -- a stop message is counted nowhere
        have hsends := hstaged.sends
        rw [hpc] at hsends
        rw [List.countP_singleton, hstop msg (hsends.mpr ⟨c, rfl⟩)]
        rfl
    rw [hpc, hhand] at hwas
    show s.received.countP p = 0 + total (fun l => l.sent.countP p) (update s.links _ l)
    omega
  | @die r msg hpc hreads =>
    exfalso
    have hstage := hstaged.stage (r.consumer s.current_consumer)
    rw [hpc, phase_write_self] at hstage
    rw [hstage.running_reads] at hreads
    cases hreads
  | ready hpc =>
    refine h.of_same rfl rfl ?_ fun _ => rfl
    rw [hpc]
    rfl
  | @giveUp r msg o hpc =>
    refine h.of_same (finishRound_mq r s) (finishRound_received r s) ?_ ?_
    · rw [hand_finishRound, hpc]
      rfl
    · intro c
      rw [finishRound_links]
  | @readAck r msg l hpc hl =>
    refine h.of_same (finishRound_mq r _) (finishRound_received r _) ?_ ?_
    · rw [hand_finishRound, hpc]
      rfl
    · intro c
      rw [finishRound_links]
      exact update_sent (Link.takeAck_sent hl) c
  | @closeRead c hpc =>
    refine h.of_same rfl rfl ?_ (update_sent rfl)
    rw [hpc]
    rfl
  | @closeWrite c hpc =>
    refine h.of_same rfl rfl ?_ (update_sent rfl)
    rw [hpc]
    exact hand_afterClose c
  | @consumer c l hl => exact h.of_same rfl rfl rfl (update_sent (Link.consumer_sent hl))

/-- The dispatcher takes the messages from the front of the queue. -/
theorem received_append_mq {C A : Nat} {lab : Label} {s t : Sys} (hlab : ∀ msg, lab ≠ .enqueue msg)
    (hstep : Sys.step C A lab s = some t) : t.received ++ t.mq = s.received ++ s.mq := by
  cases moves_of_step hstep with
  | enqueue msg => exact absurd rfl (hlab msg)
  | receive _ hmq => rw [receive_received, receive_mq, hmq, List.append_assoc, List.singleton_append]
  | giveUp => rw [finishRound_received, finishRound_mq]
  | readAck =>
    rw [finishRound_received, finishRound_mq]
    rfl
  | _ => rfl

theorem Accounted.start {mq : List Message} (h : ∀ m ∈ mq, KnownGroup m) (stop_msg : Message)
    (ack_msg : Cid → Message) : (Sys.start mq stop_msg ack_msg).Accounted := by
  refine ⟨h, ?_⟩
  intro p _
  have hnone : total (fun l => l.sent.countP p) (Sys.start mq stop_msg ack_msg).links = 0 :=
    total_eq_zero fun _ => rfl
  rw [hnone]
  rfl

end Sys

end Naarad.Dispatch
