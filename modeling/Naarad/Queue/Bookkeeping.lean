import Naarad.Queue.Pool

/-!
# What a call has done when it returns

A pop first searches, then takes its message off the list, lowers the counter and frees the old
dummy; a push allocates, links its node, raises the counter, and may evict.
-/

set_option autoImplicit false

namespace Naarad.Queue

open LinkedHeap

variable {c : Choice} {m m' : Shared}

/-- The pop has not taken anything off the list. -/
def PopPc.searching : PopPc → Bool
  | .fetchSub _ _ => false
  | .free _ _ => false
  | .done (some _) => false
  | .crash => false
  | _ => true

theorem PopPc.share_cases {pc pc' : PopPc} (hstep : pc.share c m = some (m', pc')) :
    (pc.searching = true ∧ pc'.searching = true ∧ pc.delivers c m.dq = [] ∧
      m'.dq.size = m.dq.size) ∨
    (∃ head next msg, pc = .casHead head next msg ∧ pc' = .fetchSub head msg ∧
      pc.delivers c m.dq = [msg] ∧ m'.dq.size = m.dq.size) ∨
    (∃ head msg, pc = .fetchSub head msg ∧ pc' = .free head msg ∧
      m'.dq.size = m.dq.size - 1) ∨
    (∃ head msg, pc = .free head msg ∧ pc' = .done (some msg) ∧ m'.dq.size = m.dq.size) ∨
    pc' = .crash := by
  cases pc with
  | loadHead =>
    obtain ⟨rfl, rfl⟩ := Prod.mk.inj (Option.some.inj hstep)
    exact Or.inl ⟨rfl, rfl, rfl, rfl⟩
  | loadTail head =>
    obtain ⟨rfl, rfl⟩ := Prod.mk.inj (Option.some.inj hstep)
    exact Or.inl ⟨rfl, rfl, rfl, rfl⟩
  | loadNext head tail =>
    simp only [PopPc.share, PopPc.step] at hstep
    split at hstep <;> obtain ⟨rfl, rfl⟩ := Prod.mk.inj (Option.some.inj hstep)
    · exact Or.inl ⟨rfl, rfl, rfl, rfl⟩
    · simp
  | recheck head tail next =>
    left
    simp only [PopPc.share, PopPc.step] at hstep
    split at hstep
    · split at hstep
      · split at hstep <;> obtain ⟨rfl, rfl⟩ := Prod.mk.inj (Option.some.inj hstep)
        · exact ⟨rfl, rfl, rfl, rfl⟩
        · exact ⟨rfl, rfl, rfl, rfl⟩
      · obtain ⟨rfl, rfl⟩ := Prod.mk.inj (Option.some.inj hstep)
        exact ⟨rfl, rfl, rfl, rfl⟩
    · obtain ⟨rfl, rfl⟩ := Prod.mk.inj (Option.some.inj hstep)
      exact ⟨rfl, rfl, rfl, rfl⟩
  | help tail next =>
    left
    simp only [PopPc.share, PopPc.step] at hstep
    split at hstep <;> obtain ⟨rfl, rfl⟩ := Prod.mk.inj (Option.some.inj hstep)
    · exact ⟨rfl, rfl, rfl, rfl⟩
    · exact ⟨rfl, rfl, rfl, rfl⟩
  | copyMsg head next =>
    simp only [PopPc.share, PopPc.step] at hstep
    split at hstep <;> obtain ⟨rfl, rfl⟩ := Prod.mk.inj (Option.some.inj hstep)
    · exact Or.inl ⟨rfl, rfl, rfl, rfl⟩
    · simp
  | casHead head next msg =>
    simp only [PopPc.share, PopPc.step] at hstep
    split at hstep <;> obtain ⟨rfl, rfl⟩ := Prod.mk.inj (Option.some.inj hstep)
    · rename_i hex
      exact Or.inr (Or.inl ⟨head, next, msg, rfl, rfl, if_pos hex, rfl⟩)
    · rename_i hex
      exact Or.inl ⟨rfl, rfl, if_neg hex, rfl⟩
  | fetchSub head msg =>
    obtain ⟨rfl, rfl⟩ := Prod.mk.inj (Option.some.inj hstep)
    exact Or.inr (Or.inr (Or.inl ⟨head, msg, rfl, rfl, rfl⟩))
  | free head msg =>
    right; right; right
    cases head with
    | none =>
      obtain ⟨rfl, rfl⟩ := Prod.mk.inj (Option.some.inj hstep)
      exact Or.inl ⟨none, msg, rfl, rfl, rfl⟩
    | some a =>
      simp only [PopPc.share] at hstep
      split at hstep <;> obtain ⟨rfl, rfl⟩ := Prod.mk.inj (Option.some.inj hstep)
      · exact Or.inr rfl
      · exact Or.inl ⟨some a, msg, rfl, rfl, rfl⟩
  | done ret => cases hstep
  | crash => cases hstep

/-- The message that the pop has taken off the list. -/
def PopPc.took : PopPc → List Message
  | .fetchSub _ msg => [msg]
  | .free _ msg => [msg]
  | .done ret => ret.toList
  | _ => []

theorem PopPc.took_searching {pc : PopPc} (h : pc.searching = true) : pc.took = [] := by
  cases pc with
  | done ret =>
    cases ret with
    | none => rfl
    | some msg => cases h
  | fetchSub head msg => cases h
  | free head msg => cases h
  | _ => rfl

theorem PopPc.took_share {pc pc' : PopPc} (hstep : pc.share c m = some (m', pc'))
    (hcrash : pc' ≠ .crash) : pc'.took = pc.took ++ pc.delivers c m.dq := by
  rcases PopPc.share_cases hstep with ⟨hpc, hpc', hnone, _⟩ | ⟨head, next, msg, rfl, rfl, hmsg, _⟩ |
    ⟨head, msg, rfl, rfl, _⟩ | ⟨head, msg, rfl, rfl, _⟩ | h
  · rw [took_searching hpc, took_searching hpc', hnone]
    rfl
  · rw [hmsg]
    rfl
  · rfl
  · rfl
  · exact absurd h hcrash

theorem PopPc.took_length (pc : PopPc) : pc.took.length ≤ 1 := by
  cases pc with
  | done ret => cases ret <;> simp [PopPc.took]
  | _ => simp [PopPc.took]

/-- Whether the node of the push is linked. -/
def PushPc.put : PushPc → Bool
  | .swing _ _ => true
  | .fetchAdd => true
  | .evict _ => true
  | .done ret => ret
  | _ => false

/-- Where a push goes on after a step of its eviction, whose result it ignores. -/
def PushPc.afterEvict : PopPc → PushPc
  | .done _ => .done true
  | .crash => .crash
  | pop => .evict pop

theorem PushPc.share_evict (pop : PopPc) : (PushPc.evict pop).share c m =
    (pop.share c m).map fun r => (r.1, .afterEvict r.2) := by
  simp only [PushPc.share]
  cases hp : pop.share c m with
  | none => rfl
  | some r =>
    obtain ⟨m', pop'⟩ := r
    cases pop' <;> rfl

theorem PushPc.share_cases {pc pc' : PushPc}
    (hnew : ∀ n t, pc = .casNext n t → (m.dq.heap n).isSome)
    (hstep : pc.share c m = some (m', pc')) :
    (pc.put = false ∧ pc'.put = false ∧ pc.links c m.dq = [] ∧ pc.delivers c m.dq = [] ∧
      m'.dq.size = m.dq.size) ∨
    (∃ n t node, pc = .casNext n t ∧ pc' = .swing n t ∧ pc.links c m.dq = [node] ∧
      m'.dq.size = m.dq.size) ∨
    (∃ n t, pc = .swing n t ∧ pc' = .fetchAdd ∧ m'.dq.size = m.dq.size) ∨
    (pc = .fetchAdd ∧ m'.dq.size = m.dq.size + 1 ∧
      pc' = if (MAX_ENTRIES : Int) ≤ m.dq.size then .evict .loadHead else .done true) ∨
    (∃ pop pop', pc = .evict pop ∧ pop.share c m = some (m', pop') ∧ pc' = .afterEvict pop') ∨
    pc' = .crash := by
  cases pc with
  | malloc msg =>
    left
    simp only [PushPc.share] at hstep
    split at hstep
    · obtain ⟨rfl, rfl⟩ := Prod.mk.inj (Option.some.inj hstep)
      exact ⟨rfl, rfl, rfl, rfl, rfl⟩
    · split at hstep
      · obtain ⟨rfl, rfl⟩ := Prod.mk.inj (Option.some.inj hstep)
        exact ⟨rfl, rfl, rfl, rfl, rfl⟩
      · cases hstep
  | setMsg msg n =>
    simp only [PushPc.share, PushPc.step] at hstep
    split at hstep <;> obtain ⟨rfl, rfl⟩ := Prod.mk.inj (Option.some.inj hstep)
    · exact Or.inl ⟨rfl, rfl, rfl, rfl, rfl⟩
    · simp
  | setNext n =>
    simp only [PushPc.share, PushPc.step] at hstep
    split at hstep <;> obtain ⟨rfl, rfl⟩ := Prod.mk.inj (Option.some.inj hstep)
    · exact Or.inl ⟨rfl, rfl, rfl, rfl, rfl⟩
    · simp
  | loadTail n =>
    obtain ⟨rfl, rfl⟩ := Prod.mk.inj (Option.some.inj hstep)
    exact Or.inl ⟨rfl, rfl, rfl, rfl, rfl⟩
  | loadNext n tail =>
    simp only [PushPc.share, PushPc.step] at hstep
    split at hstep <;> obtain ⟨rfl, rfl⟩ := Prod.mk.inj (Option.some.inj hstep)
    · exact Or.inl ⟨rfl, rfl, rfl, rfl, rfl⟩
    · simp
  | recheck n tail next =>
    left
    simp only [PushPc.share, PushPc.step] at hstep
    split at hstep
    · split at hstep <;> obtain ⟨rfl, rfl⟩ := Prod.mk.inj (Option.some.inj hstep)
      · exact ⟨rfl, rfl, rfl, rfl, rfl⟩
      · exact ⟨rfl, rfl, rfl, rfl, rfl⟩
    · obtain ⟨rfl, rfl⟩ := Prod.mk.inj (Option.some.inj hstep)
      exact ⟨rfl, rfl, rfl, rfl, rfl⟩
  | casNext n tail =>
    obtain ⟨new, hn⟩ := Option.isSome_iff_exists.mp (hnew n tail rfl)
    cases tail with
    | none =>
      obtain ⟨rfl, rfl⟩ := Prod.mk.inj (Option.some.inj hstep)
      simp
    | some t =>
      simp only [PushPc.share, PushPc.step] at hstep
      split at hstep
      · rename_i cell hcell
        have hlinks : (PushPc.casNext n (some t)).links c m.dq =
            if exchanges c cell.next none then [(n, new.val)] else [] := by
          simp only [PushPc.links, hcell, hn]
        split at hstep <;> obtain ⟨rfl, rfl⟩ := Prod.mk.inj (Option.some.inj hstep)
        · rename_i hex
          exact Or.inr (Or.inl ⟨n, some t, _, rfl, rfl, hlinks.trans (if_pos hex), rfl⟩)
        · rename_i hex
          exact Or.inl ⟨rfl, rfl, hlinks.trans (if_neg hex), rfl, rfl⟩
      · obtain ⟨rfl, rfl⟩ := Prod.mk.inj (Option.some.inj hstep)
        simp
  | help n tail next =>
    left
    simp only [PushPc.share, PushPc.step] at hstep
    split at hstep <;> obtain ⟨rfl, rfl⟩ := Prod.mk.inj (Option.some.inj hstep)
    · exact ⟨rfl, rfl, rfl, rfl, rfl⟩
    · exact ⟨rfl, rfl, rfl, rfl, rfl⟩
  | swing n tail =>
    right; right; left
    simp only [PushPc.share, PushPc.step] at hstep
    split at hstep <;> obtain ⟨rfl, rfl⟩ := Prod.mk.inj (Option.some.inj hstep)
    · exact ⟨n, tail, rfl, rfl, rfl⟩
    · exact ⟨n, tail, rfl, rfl, rfl⟩
  | fetchAdd =>
    obtain ⟨rfl, rfl⟩ := Prod.mk.inj (Option.some.inj hstep)
    exact Or.inr (Or.inr (Or.inr (Or.inl ⟨rfl, rfl, rfl⟩)))
  | evict pop =>
    rw [PushPc.share_evict] at hstep
    obtain ⟨⟨m₁, pop'⟩, hp, hr⟩ := Option.map_eq_some_iff.mp hstep
    obtain ⟨rfl, rfl⟩ := Prod.mk.inj hr
    exact Or.inr (Or.inr (Or.inr (Or.inr (Or.inl ⟨pop, pop', rfl, hp, rfl⟩))))
  | done ret => cases hstep
  | crash => cases hstep

/-- The effects of a call, by where it stands. -/
def EffectsOk : PoolCall → Prop
  | .idle => True
  | .push msg pc e => e.links = (if pc.put then [msg] else []) ∧
    match pc with
    | .evict pop => e.takes = pop.took
    | .done ret => e.takes.length ≤ ret.toNat
    | _ => e.takes = []
  | .pop pc e _ => e.links = [] ∧ e.takes = pc.took

theorem PushPc.effects_share {pc pc' : PushPc} {msg : Message} {e : Effects}
    (hnew : ∀ n t, pc = .casNext n t → (m.dq.heap n).isSome)
    (hstep : pc.share c m = some (m', pc')) (hcrash : pc' ≠ .crash)
    (h : EffectsOk (.push msg pc e)) :
    EffectsOk (.push msg pc' ⟨e.links ++ (pc.links c m.dq).map fun _ => msg,
      e.takes ++ pc.delivers c m.dq⟩) := by
  obtain ⟨hlinks, htakes⟩ := h
  rcases PushPc.share_cases hnew hstep with ⟨hpc, hpc', hnolink, hnone, _⟩ |
    ⟨n, t, node, rfl, rfl, hlink, _⟩ | ⟨n, t, rfl, rfl, _⟩ | ⟨rfl, _, rfl⟩ |
    ⟨pop, pop', rfl, hp, rfl⟩ | h
  · rw [hnolink, hnone, List.map_nil, List.append_nil, List.append_nil]
    have hnil : e.takes = [] := by
      cases pc with
      | evict pop => cases hpc
      | done ret => cases hstep
      | _ => exact htakes
    refine ⟨?_, ?_⟩
    · rw [hlinks, hpc, hpc']
    · cases pc' with
      | evict pop => cases hpc'
      | done ret => simp [hnil]
      | _ => exact hnil
  · rw [hlink]
    exact ⟨by rw [hlinks]; rfl, by rw [htakes]; rfl⟩
  · exact ⟨by rw [hlinks]; rfl, by rw [htakes]; rfl⟩
  · split
    · exact ⟨by rw [hlinks]; rfl, by rw [htakes]; rfl⟩
    · exact ⟨by rw [hlinks]; rfl, by rw [htakes]; exact Nat.zero_le _⟩
  · have hpop' : pop' ≠ .crash := by
      rintro rfl
      exact hcrash rfl
    have htook := pop.took_share hp hpop'
    have htakes' : e.takes ++ pop.delivers c m.dq = pop'.took := by
      rw [htook]
      exact congrArg (· ++ _) htakes
    refine ⟨?_, ?_⟩
    · cases pop' with
      | crash => exact absurd rfl hpop'
      | _ => exact (List.append_nil _).trans hlinks
    · cases pop' with
      | crash => exact absurd rfl hpop'
      | done ret =>
        have hlen := PopPc.took_length (.done ret)
        rw [← htakes'] at hlen
        exact hlen
      | _ => exact htakes'
  · exact absurd h hcrash

end Naarad.Queue
