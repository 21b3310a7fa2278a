import Naarad.Message

/-!
# Sending to the POSIX queue (`message_queue/message.c`, `producer.c`)

`mq_send` is the environment's: its outcome at each attempt is given by a function of the attempt's
number. A successful attempt puts the message into the queue once.
-/

set_option autoImplicit false

namespace Naarad

/-- What one `mq_send` does: it succeeds, fails with `EAGAIN`, or fails otherwise. -/
inductive SendOutcome where
  | sent
  | again
  | error
  deriving DecidableEq

structure SendResult where
  ret : Int
  attempts : List SendOutcome

/-- The retry loop; `left` is `MAX_RETRIES - retries`. -/
def sendLoop (outcome : Nat → SendOutcome) : (left retries : Nat) → SendResult
  | 0, _ => ⟨-1, []⟩
  | left + 1, retries =>
    match outcome retries with
    | .sent => ⟨0, [.sent]⟩
    | .error => ⟨-1, [.error]⟩
    | .again =>
      let r := sendLoop outcome left (retries + 1)
      ⟨r.ret, .again :: r.attempts⟩

/-- `mq_open` is `MQ != (mqd_t)-1`. -/
def send_with_retry (mq_open : Bool) (outcome : Nat → SendOutcome) : SendResult :=
  if mq_open then sendLoop outcome MAX_RETRIES 0 else ⟨-1, []⟩

def SendResult.accepted (r : SendResult) (msg : Message) : List Message :=
  (r.attempts.filter (· = .sent)).map fun _ => msg

/-- At most `bound` attempts were made, only the last of them can be anything but `EAGAIN`, and the
call reports `0` exactly when that one succeeded. -/
structure SendResult.Disciplined (bound : Nat) (r : SendResult) : Prop where
  length_le : r.attempts.length ≤ bound
  last_only : ∀ xs o ys, r.attempts = xs ++ o :: ys → ys ≠ [] → o = .again
  ret_eq : r.ret = if .sent ∈ r.attempts then 0 else -1

theorem SendResult.Disciplined.single {bound : Nat} {r : SendResult} (o : SendOutcome)
    (hbound : 0 < bound) (hattempts : r.attempts = [o])
    (hret : r.ret = if .sent ∈ r.attempts then 0 else -1) : r.Disciplined bound := by
  refine ⟨by rw [hattempts]; exact hbound, ?_, hret⟩
  intro xs o' ys heq hne
  rw [hattempts] at heq
  have hlen := congrArg List.length heq
  simp only [List.length_cons, List.length_nil, List.length_append] at hlen
  exact absurd (List.length_eq_zero_iff.mp (by omega)) hne

theorem sendLoop_disciplined (outcome : Nat → SendOutcome) (left retries : Nat) :
    (sendLoop outcome left retries).Disciplined left := by
  induction left generalizing retries with
  | zero => exact ⟨Nat.le_refl _, fun xs o ys h => by simp [sendLoop] at h, rfl⟩
  | succ left ih =>
    cases ho : outcome retries with
    | sent => exact .single .sent (Nat.succ_pos _) (by simp [sendLoop, ho]) (by simp [sendLoop, ho])
    | error =>
      exact .single .error (Nat.succ_pos _) (by simp [sendLoop, ho]) (by simp [sendLoop, ho])
    | again =>
      obtain ⟨hlen, hlast, hret⟩ := ih (retries + 1)
      have hloop : sendLoop outcome (left + 1) retries =
          ⟨(sendLoop outcome left (retries + 1)).ret,
            .again :: (sendLoop outcome left (retries + 1)).attempts⟩ := by
        simp [sendLoop, ho]
      rw [hloop]
      refine ⟨Nat.succ_le_succ hlen, ?_, ?_⟩
      · intro xs o ys heq hne
        cases xs with
        | nil => exact (List.cons.inj heq).1.symm
        | cons x xs => exact hlast xs o ys (List.cons.inj heq).2 hne
      · rw [hret]
        simp

theorem send_with_retry_disciplined (mq_open : Bool) (outcome : Nat → SendOutcome) :
    (send_with_retry mq_open outcome).Disciplined MAX_RETRIES := by
  cases mq_open with
  | true => exact sendLoop_disciplined outcome MAX_RETRIES 0
  | false => exact ⟨Nat.zero_le _, fun xs o ys h => by simp [send_with_retry] at h, rfl⟩

theorem SendResult.Disciplined.accepted {bound : Nat} {r : SendResult} (h : r.Disciplined bound)
    (msg : Message) : r.accepted msg = if r.ret = 0 then [msg] else [] := by
  by_cases hsent : SendOutcome.sent ∈ r.attempts
  · obtain ⟨xs, ys, hxs⟩ := List.append_of_mem hsent
    -- a success is the last attempt, and every attempt before it failed with EAGAIN
    have hys : ys = [] := by
      by_contra hne
      exact absurd (h.last_only xs .sent ys hxs hne) (by decide)
    subst hys
    have hbefore : xs.filter (· = SendOutcome.sent) = [] := by
      rw [List.filter_eq_nil_iff]
      intro o ho
      obtain ⟨as, bs, rfl⟩ := List.append_of_mem ho
      have := h.last_only as o (bs ++ [.sent]) (by rw [hxs]; simp) (by simp)
      simp [this]
    rw [if_pos (by rw [h.ret_eq, if_pos hsent])]
    simp [SendResult.accepted, hxs, hbefore]
  · have hret : r.ret ≠ 0 := by
      rw [h.ret_eq, if_neg hsent]
      decide
    have hnone : r.attempts.filter (· = SendOutcome.sent) = [] := by
      rw [List.filter_eq_nil_iff]
      intro o ho
      have hne : o ≠ .sent := ne_of_mem_of_not_mem ho hsent
      simp [hne]
    rw [if_neg hret, SendResult.accepted, hnone]
    rfl

end Naarad
