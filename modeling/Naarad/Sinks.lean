import Naarad.HandleEvent

/-!
# The three sinks of `handle_event`

The counters, the display queue and the POSIX queue after any sequence of events: they speak of the
same messages in the same order, and a send that fails is seen by the POSIX queue alone.
-/

set_option autoImplicit false

namespace Naarad

open CharArray

/-- Pushing the messages onto the tail of a history keeps the tail of the longer history. -/
theorem specCalls_pushes {es : List (Env × data_t)} {hs : List Handled}
    (hlen : es.length = hs.length) (halloc : ∀ e ∈ es, Queue.allocates e.1.push = true)
    (xs : List Message) :
    (Queue.specCalls (pushes es hs) (xs.drop (xs.length - Queue.MAX_ENTRIES))).1 =
      (xs ++ hs.map Handled.msg).drop ((xs ++ hs.map Handled.msg).length - Queue.MAX_ENTRIES) := by
  induction es generalizing hs xs with
  | nil =>
    obtain rfl : hs = [] := List.length_eq_zero_iff.mp hlen.symm
    simp [pushes, Queue.specCalls]
  | cons e es ih =>
    cases hs with
    | nil => cases hlen
    | cons h hs =>
      have hstep := ih (Nat.succ.inj hlen) (fun e' he' => halloc e' (List.mem_cons_of_mem _ he'))
        (xs ++ [h.msg])
      rw [← BoundedFifo.push_last (by decide)] at hstep
      have hhead := halloc e List.mem_cons_self
      simp only [pushes, List.zipWith_cons_cons, Queue.specCalls, Queue.Call.spec, hhead, if_true]
      rw [show List.zipWith _ es hs = pushes es hs from rfl, hstep, List.map_cons,
        List.append_assoc]
      rfl

theorem HandledAll.display {es : List (Env × data_t)} {mon mon' : Monitor} {hs : List Handled}
    (h : HandledAll es mon mon' hs) (hmon : mon.Initialised)
    (halloc : ∀ e ∈ es, Queue.allocates e.1.push = true) :
    ∃ ns, Queue.Represents mon'.dq ns
      ((hs.drop (hs.length - Queue.MAX_ENTRIES)).map Handled.msg) := by
  obtain ⟨c, hinit⟩ := hmon.dq_eq
  obtain ⟨ns, hempty⟩ := Queue.initDequeue_represents hinit
  obtain ⟨hfinal, _⟩ := hempty.calls h.pushes_eq
  have hspec := specCalls_pushes h.messages.length_eq halloc []
  simp only [List.nil_append, List.drop_nil, List.length_map] at hspec
  rw [hspec] at hfinal
  rw [List.map_drop]
  exact hfinal

theorem HandledAll.count {es : List (Env × data_t)} {mon mon' : Monitor} {hs : List Handled}
    (h : HandledAll es mon mon' hs) (code : UInt8) :
    (hs.map fun h => h.msg.op).count code =
      es.countP fun e => mappedOp e.2.operation.str = code := by
  have hmsgs := h.messages
  clear h
  induction hmsgs with
  | nil => rfl
  | cons hmsg _ ih =>
    rw [List.map_cons, List.count_cons, List.countP_cons, ih, hmsg.op]
    simp

theorem HandledAll.disciplined {es : List (Env × data_t)} {mon mon' : Monitor} {hs : List Handled}
    (h : HandledAll es mon mon' hs) : ∀ x ∈ hs, x.sent.Disciplined MAX_RETRIES := by
  have hsent := h.sent_eq
  clear h
  induction hsent with
  | nil => intro x hx; cases hx
  | cons hone _ ih =>
    intro x hx
    rcases List.mem_cons.mp hx with rfl | hx
    · rw [hone]
      exact send_with_retry_disciplined _ _
    · exact ih x hx

theorem flatMap_accepted {hs : List Handled} (h : ∀ x ∈ hs, x.sent.Disciplined MAX_RETRIES) :
    (hs.flatMap fun x => x.sent.accepted x.msg) =
      (hs.filter fun x => x.sent.ret = 0).map Handled.msg := by
  induction hs with
  | nil => rfl
  | cons x hs ih =>
    rw [List.flatMap_cons, ih fun y hy => h y (List.mem_cons_of_mem _ hy),
      (h x List.mem_cons_self).accepted, List.filter_cons]
    by_cases hret : x.sent.ret = 0
    · simp [hret]
    · simp [hret]

end Naarad
