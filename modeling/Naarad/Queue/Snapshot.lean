import Naarad.Queue.Threads

/-!
# What `displayEntries` sees

The reader walks nodes that the main thread frees without asking. As long as the main thread never
frees the node the reader is about to access, and the reader enters the list only while `dq.head`
points at an allocated node, the reader stays on allocated nodes and copies a contiguous run of
the linked messages. A single step against that condition lets the reader's next step crash.
-/

set_option autoImplicit false

namespace Naarad.Queue

open LinkedHeap LabelledRun

/-- The unreleased nodes form one path, and an allocated head lies on it. -/
structure Memory (s : Dequeue) (live : List Node) : Prop where
  seg : Seg s.heap (live.head?.map Prod.fst) live none
  head_live : ∀ cell, deref s.heap s.head = some cell →
    ∃ xs h ys, live = xs ++ h :: ys ∧ s.head = some h.1

theorem Linked.memory {s : Dequeue} {ns : List Node} (h : Linked s ns) : Memory s ns := by
  obtain ⟨dummy, rest, next, rfl, hhead, _, _⟩ := h.head_cell
  refine ⟨?_, fun _ _ => ⟨[], dummy, rest, rfl, hhead⟩⟩
  have hchain := h.chain
  rw [hhead] at hchain
  exact hchain

theorem Unlinked.memory {s : Dequeue} {live ns : List Node} {q : List Message}
    {head : Option Addr} {msg : Message} (h : Unlinked s live q head msg ns) : Memory s live := by
  obtain ⟨v, a, _, rfl, hcell⟩ := h.live_eq
  obtain ⟨dummy, rest, next, hns, hhead, _, _⟩ := h.linked.head_cell
  refine ⟨⟨rfl, s.head, hcell, h.linked.chain⟩, fun _ _ => ⟨[(a, v)], dummy, rest, ?_, hhead⟩⟩
  rw [hns]
  rfl

theorem PopInv.memory {q : List Message} {s : Dequeue} {live : List Node} {pc : PopPc}
    (h : PopInv q s live pc) : Memory s live := by
  cases pc with
  | loadHead => exact h.linked.memory
  | fetchSub head msg =>
    obtain ⟨ns, hns, _⟩ := h
    exact hns.memory
  | free head msg =>
    obtain ⟨ns, hns, _⟩ := h
    exact hns.memory
  | crash => cases h
  | _ => exact h.1.linked.memory

theorem PushInv.memory {q : List Message} {msg : Message} {s : Dequeue} {live : List Node}
    {pc : PushPc} (h : PushInv q msg s live pc) : Memory s live := by
  cases pc with
  | swing n tail => exact h.1.memory
  | fetchAdd => exact h.1.memory
  | evict pop => exact h.2.2.memory
  | done ok =>
    cases ok with
    | true => exact Holds.linked h |>.memory
    | false => exact Holds.linked h |>.memory
  | crash => cases h
  | _ => exact h.1.linked.memory

/-- `freeDequeue`: the nodes before `current` are released, the others still linked. -/
def FreeInv (s : Dequeue) (live : List Node) : FreePc → Prop
  | .loadHead => ∃ q, Holds s live q
  | .loadNext current => Memory s live ∧ ∃ v rest, live = (current, v) :: rest
  | .free current next => Memory s live ∧
      ∃ v rest, live = (current, v) :: rest ∧ s.heap current = some ⟨v, next⟩
  | .crash => False
  | _ => Memory s live ∧ live = []

def MainInv (s : Dequeue) (live : List Node) : MainPc → Prop
  | .idle => ∃ q, Holds s live q
  | .push pc => ∃ q msg, PushInv q msg s live pc
  | .free pc => FreeInv s live pc

theorem MainInv.memory {s : Dequeue} {live : List Node} {main : MainPc}
    (h : MainInv s live main) : Memory s live := by
  cases main with
  | idle =>
    obtain ⟨q, hq⟩ := h
    exact hq.linked.memory
  | push pc =>
    obtain ⟨q, msg, hpush⟩ := h
    exact hpush.memory
  | free pc =>
    cases pc with
    | loadHead =>
      obtain ⟨q, hq⟩ := h
      exact hq.linked.memory
    | crash => cases h
    | _ => exact h.1

theorem FreeInv.loop {s : Dequeue} {live : List Node} {next : Option Addr} (hmem : Memory s live)
    (hseg : Seg s.heap next live none) : FreeInv s live (.loop next) := by
  cases live with
  | nil =>
    obtain rfl : next = none := hseg
    exact ⟨hmem, rfl⟩
  | cons n rest =>
    obtain rfl : next = some n.1 := hseg.1
    exact ⟨hmem, n.2, rest, rfl⟩

theorem Memory.release {s : Dequeue} {a : Addr} {v : Message} {rest : List Node}
    {next : Option Addr} (h : Memory s ((a, v) :: rest)) (hcell : s.heap a = some ⟨v, next⟩) :
    Memory { s with heap := release s.heap a } rest ∧ Seg (release s.heap a) next rest none := by
  have hout : a ∉ addrs rest := (List.nodup_cons.mp h.seg.nodup).1
  have hrest : Seg (LinkedHeap.release s.heap a) next rest none :=
    (Seg.last_next (show Seg _ _ ([] ++ (a, v) :: rest) none from h.seg) hcell).release_frame hout
  refine ⟨⟨?_, ?_⟩, hrest⟩
  · cases rest with
    | nil => rfl
    | cons n rest =>
      obtain rfl : next = some n.1 := hrest.1
      exact hrest
  · intro cell hhead
    -- an allocated head is not the node just released
    cases hs : s.head with
    | none =>
      rw [show ({ s with heap := LinkedHeap.release s.heap a } : Dequeue).head = none from hs]
        at hhead
      cases hhead
    | some b =>
      have hb : LinkedHeap.release s.heap a b = some cell := by
        rw [show ({ s with heap := LinkedHeap.release s.heap a } : Dequeue).head = some b from hs]
          at hhead
        exact hhead
      have hne : b ≠ a := by
        rintro rfl
        rw [release_self] at hb
        cases hb
      rw [release_of_ne hne] at hb
      obtain ⟨xs, h', ys, hlive, hhead'⟩ := h.head_live cell (by rw [hs]; exact hb)
      obtain rfl : b = h'.1 := Option.some.inj (hs.symm.trans hhead')
      cases xs with
      | nil => exact absurd (congrArg Prod.fst (List.cons.inj hlive).1).symm hne
      | cons x xs => exact ⟨xs, h', ys, (List.cons.inj hlive).2, rfl⟩

theorem FreeInv.step {s s' : Dequeue} {live : List Node} {pc pc' : FreePc}
    (h : FreeInv s live pc) (hstep : pc.step s = some (s', pc')) :
    ∃ freed live', live = freed ++ live' ∧ addrs freed = pc.releases s ∧
      FreeInv s' live' pc' := by
  cases pc with
  | loadHead =>
    obtain ⟨q, hq⟩ := h
    obtain ⟨rfl, rfl⟩ := Prod.mk.inj (Option.some.inj hstep)
    exact ⟨[], live, rfl, rfl, .loop hq.linked.memory hq.linked.chain⟩
  | loadNext current =>
    obtain ⟨hmem, v, rest, rfl⟩ := h
    obtain ⟨_, next, hcell, _⟩ := hmem.seg
    simp only [FreePc.step, hcell] at hstep
    obtain ⟨rfl, rfl⟩ := Prod.mk.inj (Option.some.inj hstep)
    exact ⟨[], _, rfl, rfl, hmem, v, rest, rfl, hcell⟩
  | free current next =>
    obtain ⟨hmem, v, rest, rfl, hcell⟩ := h
    simp only [FreePc.step, hcell] at hstep
    obtain ⟨rfl, rfl⟩ := Prod.mk.inj (Option.some.inj hstep)
    obtain ⟨hmem', hrest⟩ := hmem.release hcell
    exact ⟨[(current, v)], rest, rfl, by simp [FreePc.releases, hcell], .loop hmem' hrest⟩
  | storeHead =>
    obtain ⟨hmem, rfl⟩ := h
    obtain ⟨rfl, rfl⟩ := Prod.mk.inj (Option.some.inj hstep)
    exact ⟨[], [], rfl, rfl, ⟨rfl, fun _ hcell => by cases hcell⟩, rfl⟩
  | storeTail =>
    obtain ⟨hmem, rfl⟩ := h
    obtain ⟨rfl, rfl⟩ := Prod.mk.inj (Option.some.inj hstep)
    exact ⟨[], [], rfl, rfl, ⟨hmem.seg, hmem.head_live⟩, rfl⟩
  | storeSize =>
    obtain ⟨hmem, rfl⟩ := h
    obtain ⟨rfl, rfl⟩ := Prod.mk.inj (Option.some.inj hstep)
    exact ⟨[], [], rfl, rfl, ⟨hmem.seg, hmem.head_live⟩, rfl⟩
  | done => cases hstep
  | crash => cases h

/-- Where the reader is: on a live node, with a run of messages copied that ends right before the
messages still ahead of it. -/
def ReadInv (linked : List Message) (live : List Node) : ReadPc → Prop
  | .loadHead => True
  | .loadNext head => ∃ xs h ys, live = xs ++ h :: ys ∧ head = some h.1
  | .copy current copied => ∃ xs v ys before, live = xs ++ (current, v) :: ys ∧
      linked = before ++ copied ++ v :: vals ys
  | .next current copied => ∃ xs v ys before, live = xs ++ (current, v) :: ys ∧
      linked = before ++ copied ++ vals ys
  | .loadSize copied => copied <:+: linked
  | .done copied => copied <:+: linked
  | .crash => False

theorem ReadInv.exit {linked copied : List Message} {live : List Node}
    (h : copied <:+: linked) : ReadInv linked live (.exit copied) := by
  unfold ReadPc.exit
  split
  · exact List.nil_infix
  · exact h

theorem ReadInv.loop {linked before copied : List Message} {s : Dequeue} {live xs ys : List Node}
    {next : Option Addr} (hseg : Seg s.heap next ys none) (hlive : live = xs ++ ys)
    (hlinked : linked = before ++ copied ++ vals ys) :
    ReadInv linked live (.loop next copied) := by
  have hinfix : copied <:+: linked := ⟨before, vals ys, hlinked.symm⟩
  cases ys with
  | nil =>
    obtain rfl : next = none := hseg
    exact .exit hinfix
  | cons y ys =>
    obtain rfl : next = some y.1 := hseg.1
    simp only [ReadPc.loop]
    split
    · exact ⟨xs, y.2, ys, before, hlive, hlinked⟩
    · exact .exit hinfix

/-- The messages of the live nodes behind the first one end the history of linked messages. -/
def Recorded (linked : List Message) (live : List Node) : Prop :=
  ∃ gone, linked = gone ++ vals live.tail

theorem ReadInv.step {linked : List Message} {s : Dequeue} {live : List Node} {pc pc' : ReadPc}
    (h : ReadInv linked live pc) (hmem : Memory s live) (hrec : Recorded linked live)
    (hhead : pc.entering → (deref s.heap s.head).isSome) (hstep : pc.step s = some pc') :
    ReadInv linked live pc' := by
  cases pc with
  | loadHead =>
    obtain ⟨cell, hcell⟩ := Option.isSome_iff_exists.mp (hhead rfl)
    obtain rfl := Option.some.inj hstep
    exact hmem.head_live cell hcell
  | loadNext head =>
    obtain ⟨xs, h, ys, rfl, rfl⟩ := h
    obtain ⟨_, _, _, next, hcell, hys⟩ := seg_append.mp hmem.seg
    obtain rfl : ReadPc.loop next [] = pc' := by simpa [ReadPc.step, hcell] using hstep
    obtain ⟨gone, hlinked⟩ := hrec
    have htail : (xs ++ h :: ys).tail = (xs ++ [h]).tail ++ ys := by
      cases xs <;> simp
    rw [htail, vals_append, ← List.append_assoc] at hlinked
    exact .loop hys (show _ = (xs ++ [h]) ++ ys by simp)
      (show _ = (gone ++ vals (xs ++ [h]).tail) ++ [] ++ vals ys by simpa using hlinked)
  | copy current copied =>
    obtain ⟨xs, v, ys, before, rfl, rfl⟩ := h
    obtain ⟨_, _, _, next, hcell, _⟩ := seg_append.mp hmem.seg
    simp only [ReadPc.step, hcell] at hstep
    obtain rfl := Option.some.inj hstep
    exact ⟨xs, v, ys, before, rfl, by simp⟩
  | next current copied =>
    obtain ⟨xs, v, ys, before, rfl, rfl⟩ := h
    obtain ⟨_, _, _, next, hcell, hys⟩ := seg_append.mp hmem.seg
    simp only [ReadPc.step, hcell] at hstep
    obtain rfl := Option.some.inj hstep
    exact .loop hys (show _ = (xs ++ [(current, v)]) ++ ys by simp) rfl
  | loadSize copied =>
    obtain rfl := Option.some.inj hstep
    exact h
  | done copied => cases hstep
  | crash => cases h

theorem live_keeps {live freed live' new xs ys : List Node} {n : Node}
    (hchange : live ++ new = freed ++ live') (hlive : live = xs ++ n :: ys)
    (hn : n.1 ∉ addrs freed) : ∃ zs, live' = zs ++ n :: (ys ++ new) := by
  rw [hlive, List.append_assoc, List.cons_append] at hchange
  rcases List.append_eq_append_iff.mp hchange with ⟨zs, hfreed, _⟩ | ⟨zs, _, hlive'⟩
  · cases zs with
    | nil =>
      rw [List.append_nil] at hfreed
      exact ⟨[], by simp_all⟩
    | cons z zs =>
      rename_i hrest
      obtain ⟨rfl, _⟩ := List.cons.inj hrest
      exact absurd (by rw [hfreed]; simp) hn
  · exact ⟨zs, hlive'⟩

theorem ReadInv.main {linked : List Message} {live freed live' new : List Node} {pc : ReadPc}
    (h : ReadInv linked live pc) (hchange : live ++ new = freed ++ live')
    (hheld : ∀ a ∈ addrs freed, pc.held ≠ some (some a)) :
    ReadInv (linked ++ vals new) live' pc := by
  have hinfix : ∀ copied, copied <:+: linked → copied <:+: linked ++ vals new :=
    fun copied hc => hc.trans (List.prefix_append _ _).isInfix
  cases pc with
  | loadHead => trivial
  | loadNext head =>
    obtain ⟨xs, n, ys, hlive, rfl⟩ := h
    obtain ⟨zs, hlive'⟩ := live_keeps hchange hlive fun hm => hheld _ hm rfl
    exact ⟨zs, n, ys ++ new, hlive', rfl⟩
  | copy current copied =>
    obtain ⟨xs, v, ys, before, hlive, rfl⟩ := h
    obtain ⟨zs, hlive'⟩ := live_keeps hchange hlive fun hm => hheld _ hm rfl
    exact ⟨zs, v, ys ++ new, before, hlive', by simp⟩
  | next current copied =>
    obtain ⟨xs, v, ys, before, hlive, rfl⟩ := h
    obtain ⟨zs, hlive'⟩ := live_keeps hchange hlive fun hm => hheld _ hm rfl
    exact ⟨zs, v, ys ++ new, before, hlive', by simp⟩
  | loadSize copied => exact hinfix copied h
  | done copied => exact hinfix copied h
  | crash => cases h

structure System.Inv (s : System) : Prop where
  threads : ∃ live, MainInv s.dq live s.main ∧ Recorded s.linked live ∧
    ReadInv s.linked live s.tui

/-- The condition on one step, in the state before it: the main thread does not free the node that
`displayEntries` accesses next, and `displayEntries` loads `dq.head` only while that pointer leads
to an allocated node. -/
def Undisturbed : Label → System → Prop
  | .main _, s => ∀ a ∈ s.releases, s.tui.held ≠ some (some a)
  | .tui, s => s.tui.entering → (deref s.dq.heap s.dq.head).isSome
  | _, _ => True

instance : ∀ l s, Decidable (Undisturbed l s)
  | .main _, s => inferInstanceAs (Decidable (∀ a ∈ s.releases, s.tui.held ≠ some (some a)))
  | .tui, s => inferInstanceAs (Decidable (s.tui.entering → (deref s.dq.heap s.dq.head).isSome))
  | .pushRear _, _ => .isTrue trivial
  | .freeDequeue, _ => .isTrue trivial
  | .display _, _ => .isTrue trivial

theorem Recorded.change {linked : List Message} {live freed live' new : List Node}
    (h : Recorded linked live) (hne : live ≠ [] ∨ new = []) (hchange : live ++ new = freed ++ live') :
    Recorded (linked ++ vals new) live' := by
  obtain ⟨gone, rfl⟩ := h
  have htail : live.tail ++ new = (freed ++ live').tail := by
    rw [← hchange]
    rcases hne with hne | rfl
    · rw [List.tail_append_of_ne_nil hne]
    · rw [List.append_nil, List.append_nil]
  have hvals : gone ++ vals live.tail ++ vals new = gone ++ vals (freed ++ live').tail := by
    rw [List.append_assoc, ← vals_append, htail]
  rw [hvals]
  cases freed with
  | nil => exact ⟨gone, rfl⟩
  | cons f freed =>
    cases live' with
    | nil => exact ⟨gone ++ vals freed, by simp⟩
    | cons n live' => exact ⟨gone ++ vals (freed ++ [n]), by simp⟩

theorem PushInv.links_live {q : List Message} {msg : Message} {s : Dequeue} {live : List Node}
    {pc : PushPc} (h : PushInv q msg s live pc) (c : Choice) : live ≠ [] ∨ pc.links c s = [] := by
  cases pc with
  | casNext n tail => exact Or.inl h.1.linked.ne_nil
  | _ => exact Or.inr rfl

theorem MainInv.step {s t : System} {live : List Node} {c : Choice}
    (h : MainInv s.dq live s.main) (hrec : Recorded s.linked live)
    (hstep : System.step (.main c) s = some t) :
    ∃ freed live' new, live ++ new = freed ++ live' ∧ addrs freed = s.releases ∧
      t.linked = s.linked ++ vals new ∧ t.tui = s.tui ∧ MainInv t.dq live' t.main ∧
      Recorded t.linked live' := by
  cases hmain : s.main with
  | idle => simp [System.step, hmain] at hstep
  | push pc =>
    rw [hmain] at h
    obtain ⟨q, msg, hpush⟩ := h
    simp only [System.step, hmain] at hstep
    obtain ⟨⟨dq', pc'⟩, hr, rfl⟩ := Option.map_eq_some_iff.mp hstep
    obtain ⟨freed, live', hchange, hfreed, hpush'⟩ := hpush.step hr
    refine ⟨freed, live', pc.links c s.dq, hchange, ?_, rfl, rfl, ?_, hrec.change (hpush.links_live c) hchange⟩
    · simp only [System.releases, hmain, hfreed]
    · cases pc' with
      | done ok =>
        cases ok with
        | true => exact ⟨_, hpush'⟩
        | false => exact ⟨_, hpush'⟩
      | _ => exact ⟨q, msg, hpush'⟩
  | free pc =>
    rw [hmain] at h
    simp only [System.step, hmain] at hstep
    obtain ⟨⟨dq', pc'⟩, hr, rfl⟩ := Option.map_eq_some_iff.mp hstep
    obtain ⟨freed, live', hchange, hfreed, hfree'⟩ := FreeInv.step h hr
    have hchange' : live ++ [] = freed ++ live' := by rw [List.append_nil, hchange]
    have hrec' := hrec.change (Or.inr rfl) hchange'
    rw [vals_nil, List.append_nil] at hrec'
    refine ⟨freed, live', [], hchange', ?_, (List.append_nil _).symm, rfl, hfree', hrec'⟩
    simp only [System.releases, hmain, hfreed]

theorem System.Inv.step {l : Label} {s t : System} (h : s.Inv) (hl : Undisturbed l s)
    (hstep : System.step l s = some t) : t.Inv := by
  obtain ⟨live, hmain, hrec, hread⟩ := h
  cases l with
  | pushRear msg =>
    cases hpc : s.main with
    | idle =>
      rw [hpc] at hmain
      obtain ⟨q, hq⟩ := hmain
      simp only [System.step, hpc] at hstep
      obtain rfl := Option.some.inj hstep
      exact ⟨live, ⟨q, msg, hq, rfl⟩, hrec, hread⟩
    | _ => simp [System.step, hpc] at hstep
  | freeDequeue =>
    cases hpc : s.main with
    | idle =>
      rw [hpc] at hmain
      simp only [System.step, hpc] at hstep
      obtain rfl := Option.some.inj hstep
      exact ⟨live, hmain, hrec, hread⟩
    | _ => simp [System.step, hpc] at hstep
  | main c =>
    obtain ⟨freed, live', new, hchange, hfreed, hlinked, htui, hmain', hrec'⟩ :=
      hmain.step hrec hstep
    refine ⟨live', hmain', hrec', ?_⟩
    rw [hlinked, htui]
    exact hread.main hchange (hfreed ▸ hl)
  | display allocated =>
    cases hpc : s.tui with
    | done copied =>
      simp only [System.step, hpc] at hstep
      obtain rfl := Option.some.inj hstep
      refine ⟨live, hmain, hrec, ?_⟩
      cases allocated with
      | true => trivial
      | false => exact List.nil_infix
    | _ => simp [System.step, hpc] at hstep
  | tui =>
    obtain ⟨pc, hpc, rfl⟩ := Option.map_eq_some_iff.mp hstep
    exact ⟨live, hmain, hrec, hread.step hmain.memory hrec hl hpc⟩

theorem System.start_inv {c : Choice} {dq : Dequeue} (h : initDequeue c = some dq) :
    (System.start dq).Inv := by
  obtain ⟨dummy, hq⟩ := initDequeue_holds h
  exact ⟨[dummy], ⟨[], hq⟩, ⟨[], rfl⟩, List.nil_infix⟩

/-- The reader has not crashed, and what it copied is a contiguous run of the messages linked. -/
def SnapshotOk (s : System) : Prop := s.tui ≠ .crash ∧ s.tui.copied <:+: s.linked

theorem System.Inv.snapshotOk {s : System} (h : s.Inv) : SnapshotOk s := by
  obtain ⟨live, _, _, hread⟩ := h
  cases hpc : s.tui with
  | crash =>
    rw [hpc] at hread
    cases hread
  | copy current copied =>
    rw [hpc] at hread
    obtain ⟨_, v, ys, before, _, hlinked⟩ := hread
    exact ⟨by simp [hpc], by rw [hpc]; exact ⟨before, v :: vals ys, hlinked.symm⟩⟩
  | next current copied =>
    rw [hpc] at hread
    obtain ⟨_, v, ys, before, _, hlinked⟩ := hread
    exact ⟨by simp [hpc], by rw [hpc]; exact ⟨before, vals ys, hlinked.symm⟩⟩
  | loadSize copied =>
    rw [hpc] at hread
    exact ⟨by simp [hpc], by rw [hpc]; exact hread⟩
  | done copied =>
    rw [hpc] at hread
    exact ⟨by simp [hpc], by rw [hpc]; exact hread⟩
  | _ => exact ⟨by simp [hpc], by rw [hpc]; exact List.nil_infix⟩

theorem PopPc.releases_none {c : Choice} {s : Dequeue} {pc : PopPc} {r : Dequeue × PopPc} {a : Addr}
    (ha : a ∈ pc.releases s) (hstep : pc.step c s = some r) : r.1.heap a = none := by
  cases pc with
  | free head msg =>
    cases head with
    | none => cases ha
    | some b =>
      simp only [PopPc.releases] at ha
      split at ha
      · rename_i hb
        obtain ⟨cell, hcell⟩ := Option.isSome_iff_exists.mp hb
        obtain rfl := List.mem_singleton.mp ha
        simp only [PopPc.step, hcell] at hstep
        obtain rfl := Option.some.inj hstep
        exact release_self ..
      · cases ha
  | _ => cases ha

theorem PushPc.releases_none {c : Choice} {s : Dequeue} {pc : PushPc} {r : Dequeue × PushPc}
    {a : Addr} (ha : a ∈ pc.releases s) (hstep : pc.step c s = some r) : r.1.heap a = none := by
  cases pc with
  | evict pop =>
    simp only [PushPc.step] at hstep
    split at hstep
    all_goals first | (obtain rfl := Option.some.inj hstep) | (cases hstep)
    all_goals exact PopPc.releases_none ha (by assumption)
  | _ => cases ha

theorem FreePc.releases_none {s : Dequeue} {pc : FreePc} {r : Dequeue × FreePc} {a : Addr}
    (ha : a ∈ pc.releases s) (hstep : pc.step s = some r) : r.1.heap a = none := by
  cases pc with
  | free current next =>
    simp only [FreePc.releases] at ha
    split at ha
    · rename_i hb
      obtain ⟨cell, hcell⟩ := Option.isSome_iff_exists.mp hb
      obtain rfl := List.mem_singleton.mp ha
      simp only [FreePc.step, hcell] at hstep
      obtain rfl := Option.some.inj hstep
      exact release_self ..
    · cases ha
  | _ => cases ha

theorem ReadPc.eq_of_entering {pc : ReadPc} (h : pc.entering = true) : pc = .loadHead := by
  cases pc with
  | loadHead => rfl
  | _ => cases h

theorem ReadPc.step_crash {s : Dequeue} {pc : ReadPc} {p : Option Addr} (hheld : pc.held = some p)
    (hp : deref s.heap p = none) : pc.step s = some .crash := by
  cases pc with
  | loadNext head =>
    obtain rfl := Option.some.inj hheld
    simp only [ReadPc.step, hp]
  | copy current copied =>
    obtain rfl := Option.some.inj hheld
    have hcell : s.heap current = none := hp
    simp only [ReadPc.step, hcell]
  | next current copied =>
    obtain rfl := Option.some.inj hheld
    have hcell : s.heap current = none := hp
    simp only [ReadPc.step, hcell]
  | _ => cases hheld

theorem disturbed_crashes {l : Label} {s t : System} (hl : ¬ Undisturbed l s)
    (hstep : System.step l s = some t) : System.step .tui t = some { t with tui := .crash } := by
  suffices hcrash : t.tui.step t.dq = some .crash by simp [System.step, hcrash]
  cases l with
  | main c =>
    simp only [Undisturbed, not_forall] at hl
    obtain ⟨a, ha, hheld⟩ := hl
    have hheld := Decidable.not_not.mp hheld
    cases hmain : s.main with
    | idle => simp [System.step, hmain] at hstep
    | push pc =>
      simp only [System.releases, hmain] at ha
      simp only [System.step, hmain] at hstep
      obtain ⟨r, hr, rfl⟩ := Option.map_eq_some_iff.mp hstep
      exact ReadPc.step_crash hheld (PushPc.releases_none ha hr)
    | free pc =>
      simp only [System.releases, hmain] at ha
      simp only [System.step, hmain] at hstep
      obtain ⟨r, hr, rfl⟩ := Option.map_eq_some_iff.mp hstep
      exact ReadPc.step_crash hheld (FreePc.releases_none ha hr)
  | tui =>
    simp only [Undisturbed, Classical.not_imp] at hl
    obtain ⟨hpc, hhead⟩ := hl
    obtain ⟨pc, hr, rfl⟩ := Option.map_eq_some_iff.mp hstep
    rw [ReadPc.eq_of_entering hpc] at hr
    obtain rfl := Option.some.inj hr
    exact ReadPc.step_crash rfl (Option.not_isSome_iff_eq_none.mp hhead)
  | _ => exact absurd trivial hl

/-- While every step is undisturbed, `displayEntries` stays on allocated nodes and copies a
contiguous run of the linked messages; the first disturbed step makes its next access crash. -/
theorem reader_snapshot {c : Choice} {dq : Dequeue} {ls : List Label} {s : System}
    (hinit : initDequeue c = some dq) (hrun : exec System.step ls (.start dq) = some s)
    (hok : Along System.step Undisturbed ls (.start dq)) :
    SnapshotOk s ∧ ∀ l t, ¬ Undisturbed l s → System.step l s = some t →
      ∃ u, System.step .tui t = some u ∧ ¬ SnapshotOk u := by
  constructor
  · exact (exec_induct (fun _ _ _ h hl hstep => h.step hl hstep) (System.start_inv hinit)
      hok hrun).snapshotOk
  · intro l t hl hstep
    exact ⟨_, disturbed_crashes hl hstep, fun h => h.1 rfl⟩

/-- The steps of push number `i`, but for an eviction. -/
def pushed (i : Nat) : List Label :=
  .pushRear { Message.zero with op := UInt8.ofNat i } :: .main { fresh := some i } ::
    List.replicate 8 (.main { fresh := none })

def eviction : List Label := List.replicate 8 (.main { fresh := none })

/-- On a full queue `displayEntries` copies the first two messages, while a push begins. The eviction
of this push, and that of the next one, free the dummy and the node of the first message; then the
reader goes on. -/
def sampleRun : List Label :=
  (List.range 60).flatMap (fun i => pushed (i + 1)) ++ [.display true] ++ List.replicate 4 .tui ++
    pushed 61 ++ List.replicate 2 .tui ++ eviction ++ pushed 62 ++ eviction ++
    List.replicate 117 .tui

theorem reader_snapshot_sample : ∃ dq s, initDequeue { fresh := some 0 } = some dq ∧
    exec System.step sampleRun (.start dq) = some s ∧
    s.dq.heap 0 = none ∧ s.dq.heap 1 = none ∧
    s.tui.copied.map Message.op = (List.range 60).map (fun i => UInt8.ofNat (i + 1)) ∧
    SnapshotOk s ∧ ∀ l t, ¬ Undisturbed l s → System.step l s = some t →
      ∃ u, System.step .tui t = some u ∧ ¬ SnapshotOk u := by
  have hruns : ((initDequeue { fresh := some 0 }).bind fun dq =>
      (exec System.step sampleRun (.start dq)).map fun s =>
        (s.dq.heap 0, s.dq.heap 1, s.tui.copied.map Message.op)) =
      some (none, none, (List.range 60).map fun i => UInt8.ofNat (i + 1)) := by
    decide +kernel
  have hok : ∀ dq ∈ initDequeue { fresh := some 0 },
      Along System.step Undisturbed sampleRun (.start dq) := by
    decide +kernel
  obtain ⟨dq, hinit, hrun⟩ := Option.bind_eq_some_iff.mp hruns
  obtain ⟨s, hs, heq⟩ := Option.map_eq_some_iff.mp hrun
  simp only [Prod.mk.injEq] at heq
  exact ⟨dq, s, hinit, hs, heq.1, heq.2.1, heq.2.2, reader_snapshot hinit hs (hok dq hinit)⟩

/-- `displayEntries` has loaded `dq.head` when the main thread, at its exit, frees that node. -/
def shutdownRun : List Label :=
  [.display true, .tui, .freeDequeue] ++ List.replicate 3 (.main { fresh := none }) ++ [.tui]

/-- The same for an eviction: the reader holds the dummy while the 61st push pops it. -/
def evictionRun : List Label :=
  [.display true, .tui] ++
    (List.range 61).flatMap (fun i => pushed (i + 1)) ++ eviction ++ [.tui]

def ReadPc.crashed : ReadPc → Bool
  | .crash => true
  | _ => false

def crashesAfter (ls : List Label) : Bool :=
  ((initDequeue { fresh := some 0 }).bind fun dq =>
    (exec System.step ls (.start dq)).map fun s => s.tui.crashed) = some true

theorem not_snapshotOk_of_crashesAfter {ls : List Label} (h : crashesAfter ls = true) :
    ∃ dq s, initDequeue { fresh := some 0 } = some dq ∧
      exec System.step ls (.start dq) = some s ∧ ¬ SnapshotOk s := by
  obtain ⟨dq, hinit, hrun⟩ := Option.bind_eq_some_iff.mp (of_decide_eq_true h)
  obtain ⟨s, hs, hread⟩ := Option.map_eq_some_iff.mp hrun
  refine ⟨dq, s, hinit, hs, ?_⟩
  intro hok
  cases hpc : s.tui with
  | crash => exact hok.1 hpc
  | _ =>
    rw [hpc] at hread
    cases hread

/-- Neither run keeps `displayEntries` on allocated nodes: it follows the node that the exit, or
the eviction, has just freed. -/
theorem reader_crashes :
    (∃ dq s, initDequeue { fresh := some 0 } = some dq ∧
      exec System.step shutdownRun (.start dq) = some s ∧ ¬ SnapshotOk s) ∧
    (∃ dq s, initDequeue { fresh := some 0 } = some dq ∧
      exec System.step evictionRun (.start dq) = some s ∧ ¬ SnapshotOk s) := by
  constructor
  · exact not_snapshotOk_of_crashesAfter (by decide +kernel)
  · exact not_snapshotOk_of_crashesAfter (by decide +kernel)

end Naarad.Queue
