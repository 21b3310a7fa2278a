import Naarad.Queue.Acts

/-!
# What the locals of a running call still say

`PopOk` and `PushOk` say, for every program counter, which entries of the log the pointers of the
call belong to. They hold on while other calls step, as long as the nodes that the call expects
stand. `Moves` is what a step of the call itself does.
-/

set_option autoImplicit false

namespace Naarad.Queue

open LinkedHeap

namespace View

def At (v : View) (k : Nat) (p : Option Addr) : Prop := ∃ a, p = some a ∧ Stands v.heap v.log k a

/-- The pointer leads to the entry behind `k`, which exists. -/
def Next (v : View) (k : Nat) (p : Option Addr) : Prop :=
  ∃ a, p = some a ∧ (addrs v.log)[k + 1]? = some a

def Ready (v : View) (msg : Message) (n : Addr) : Prop := v.heap n = some ⟨msg, none⟩

end View

def PopOk (v : View) : PopPc → Prop
  | .loadTail head => ∃ k ≤ v.hd, v.At k head
  | .loadNext head tail => ∃ k ≤ v.hd, ∃ j ≤ v.tl, k ≤ j ∧ v.At k head ∧ v.At j tail
  | .recheck head tail next => ∃ k ≤ v.hd, ∃ j ≤ v.tl, k ≤ j ∧ v.At k head ∧ v.At j tail ∧
      (next = none ∧ k = j ∨ v.Next k next)
  | .help tail next => ∃ j ≤ v.tl, v.At j tail ∧ v.Next j next
  | .copyMsg head next => ∃ k ≤ v.hd, k < v.tl ∧ v.At k head ∧ v.Next k next
  | .casHead head next msg => ∃ k ≤ v.hd, k < v.tl ∧ v.At k head ∧ v.Next k next ∧
      (k = v.hd → (vals v.log)[k + 1]? = some msg)
  | .crash => False
  | _ => True

def PushOk (v : View) (msg : Message) : PushPc → Prop
  | .malloc m => m = msg
  | .setMsg m _ => m = msg
  | .setNext n => ∃ next, v.heap n = some ⟨msg, next⟩
  | .loadTail n => v.Ready msg n
  | .loadNext n tail => v.Ready msg n ∧ ∃ j ≤ v.tl, v.At j tail
  | .recheck n tail next => v.Ready msg n ∧ ∃ j ≤ v.tl, v.At j tail ∧ (next = none ∨ v.Next j next)
  | .casNext n tail => v.Ready msg n ∧ ∃ j ≤ v.tl, v.At j tail
  | .help n tail next => v.Ready msg n ∧ ∃ j ≤ v.tl, v.At j tail ∧ v.Next j next
  | .swing n tail => ∃ j ≤ v.tl, v.At j tail ∧ v.Next j (some n)
  | .evict pop => PopOk v pop
  | .crash => False
  | _ => True

def PopPc.own : PopPc → Own
  | .fetchSub head _ => ⟨none, head⟩
  | .free head _ => ⟨none, head⟩
  | _ => .none

def PushPc.own : PushPc → Own
  | .setMsg _ n => ⟨some n, none⟩
  | .setNext n => ⟨some n, none⟩
  | .loadTail n => ⟨some n, none⟩
  | .loadNext n _ => ⟨some n, none⟩
  | .recheck n _ _ => ⟨some n, none⟩
  | .casNext n _ => ⟨some n, none⟩
  | .help n _ _ => ⟨some n, none⟩
  | .evict pop => pop.own
  | _ => .none

/-- While other calls step, the nodes in `es` stand and the list only grows. -/
structure Kept (v w : View) (es : List Addr) : Prop where
  hd_le : v.hd ≤ w.hd
  tl_le : v.tl ≤ w.tl
  log : v.log <+: w.log
  stands : ∀ a ∈ es, ∀ k, Stands v.heap v.log k a → Stands w.heap w.log k a

namespace Kept
variable {v w : View} {es : List Addr} {k : Nat} {p : Option Addr}

theorem stays (h : Kept v w es) (hp : p.toList ⊆ es) (hat : v.At k p) : w.At k p := by
  obtain ⟨a, rfl, hs⟩ := hat
  exact ⟨a, rfl, h.stands a (hp (by simp)) k hs⟩

theorem next (h : Kept v w es) (hnext : v.Next k p) : w.Next k p := by
  obtain ⟨a, rfl, ha⟩ := hnext
  refine ⟨a, rfl, ?_⟩
  obtain ⟨rest, hlog⟩ := h.log
  rw [← hlog, addrs_append, List.getElem?_append_left (List.getElem?_eq_some_iff.mp ha).1, ha]

theorem val (h : Kept v w es) {msg : Message} (hmsg : (vals v.log)[k]? = some msg) :
    (vals w.log)[k]? = some msg := by
  obtain ⟨rest, hlog⟩ := h.log
  rw [← hlog, vals_append, List.getElem?_append_left (List.getElem?_eq_some_iff.mp hmsg).1, hmsg]

end Kept

theorem PopOk.kept {v w : View} {pc : PopPc} (h : PopOk v pc) (hk : Kept v w pc.expects) :
    PopOk w pc := by
  have hhd := hk.hd_le
  have htl := hk.tl_le
  cases pc with
  | loadTail head =>
    obtain ⟨k, hkh, hhead⟩ := h
    exact ⟨k, by omega, hk.stays (by simp [PopPc.expects]) hhead⟩
  | loadNext head tail =>
    obtain ⟨k, hkh, j, hjt, hkj, hhead, htail⟩ := h
    exact ⟨k, by omega, j, by omega, hkj, hk.stays (by simp [PopPc.expects]) hhead,
      hk.stays (by simp [PopPc.expects]) htail⟩
  | recheck head tail next =>
    obtain ⟨k, hkh, j, hjt, hkj, hhead, htail, hnext⟩ := h
    exact ⟨k, by omega, j, by omega, hkj, hk.stays (by simp [PopPc.expects]) hhead,
      hk.stays (by simp [PopPc.expects]) htail, hnext.imp_right hk.next⟩
  | help tail next =>
    obtain ⟨j, hjt, htail, hnext⟩ := h
    exact ⟨j, by omega, hk.stays (by simp [PopPc.expects]) htail, hk.next hnext⟩
  | copyMsg head next =>
    obtain ⟨k, hkh, hkt, hhead, hnext⟩ := h
    exact ⟨k, by omega, by omega, hk.stays (by simp [PopPc.expects]) hhead, hk.next hnext⟩
  | casHead head next msg =>
    obtain ⟨k, hkh, hkt, hhead, hnext, hmsg⟩ := h
    exact ⟨k, by omega, by omega, hk.stays (by simp [PopPc.expects]) hhead, hk.next hnext,
      fun heq => hk.val (hmsg (by omega))⟩
  | crash => exact h
  | _ => trivial

theorem PushOk.kept {v w : View} {msg : Message} {pc : PushPc} (h : PushOk v msg pc)
    (hk : Kept v w pc.expects) (hnew : ∀ n, pc.own.new_node = some n → w.heap n = v.heap n) :
    PushOk w msg pc := by
  have htl := hk.tl_le
  have hready : ∀ n, pc.own.new_node = some n → v.Ready msg n → w.Ready msg n :=
    fun n hn hr => (hnew n hn).trans hr
  cases pc with
  | malloc m => exact h
  | setMsg m n => exact h
  | setNext n =>
    obtain ⟨next, hcell⟩ := h
    exact ⟨next, (hnew n rfl).trans hcell⟩
  | loadTail n => exact hready n rfl h
  | loadNext n tail =>
    obtain ⟨hr, j, hjt, htail⟩ := h
    exact ⟨hready n rfl hr, j, by omega, hk.stays (by simp [PushPc.expects]) htail⟩
  | recheck n tail next =>
    obtain ⟨hr, j, hjt, htail, hnext⟩ := h
    exact ⟨hready n rfl hr, j, by omega, hk.stays (by simp [PushPc.expects]) htail,
      hnext.imp_right hk.next⟩
  | casNext n tail =>
    obtain ⟨hr, j, hjt, htail⟩ := h
    exact ⟨hready n rfl hr, j, by omega, hk.stays (by simp [PushPc.expects]) htail⟩
  | help n tail next =>
    obtain ⟨hr, j, hjt, htail, hnext⟩ := h
    exact ⟨hready n rfl hr, j, by omega, hk.stays (by simp [PushPc.expects]) htail, hk.next hnext⟩
  | swing n tail =>
    obtain ⟨j, hjt, htail, hnext⟩ := h
    exact ⟨j, by omega, hk.stays (by simp [PushPc.expects]) htail, hk.next hnext⟩
  | evict pop => exact PopOk.kept h hk
  | crash => exact h
  | _ => trivial

theorem PushOk.casNext_isSome {v : View} {msg : Message} {pc : PushPc} (h : PushOk v msg pc)
    (n : Addr) (t : Option Addr) (hpc : pc = .casNext n t) : (v.heap n).isSome := by
  subst hpc
  obtain ⟨hr, _⟩ := h
  have hcell : v.heap n = some ⟨msg, none⟩ := hr
  rw [hcell]
  rfl

end Naarad.Queue
