import Mathlib.Data.List.TakeWhile

/-!
# Fixed-size C character arrays

An array of `n` bytes read as a C string: the bytes before the first NUL. The bounded copies write
a string and one NUL and leave the bytes behind it as they were.
-/

set_option autoImplicit false

/-- `char a[n]`, with all of its bytes. -/
structure CharArray (n : Nat) where
  bytes : List UInt8
  size_eq : bytes.length = n
  deriving DecidableEq

namespace CharArray

variable {n : Nat}

def ascii (s : String) : List UInt8 := s.toList.map Char.toUInt8

def zero (n : Nat) : CharArray n := ⟨List.replicate n 0, List.length_replicate⟩

/-- The C string that the array holds. -/
def str (a : CharArray n) : List UInt8 := a.bytes.takeWhile (· ≠ 0)

/-- `snprintf(a, sizeof(a), "%s", s)`. -/
def snprintf (a : CharArray n) (s : List UInt8) : CharArray n where
  bytes := (s.take (n - 1) ++ 0 :: a.bytes.drop ((s.take (n - 1)).length + 1)).take n
  size_eq := by
    have := a.size_eq
    simp only [List.length_take, List.length_append, List.length_cons, List.length_drop]
    omega

/-- `memcpy(a, s, sizeof(a))` from a string literal: the literal, its NUL, and whatever bytes
`pad` the program image holds behind it. -/
def memcpy (n : Nat) (s : List UInt8) (pad : Nat → UInt8) : CharArray n where
  bytes := (s ++ 0 :: (List.range n).map pad).take n
  size_eq := by
    simp only [List.length_take, List.length_append, List.length_cons, List.length_map,
      List.length_range]
    omega

theorem nul_notMem_str (a : CharArray n) : 0 ∉ a.str := by
  intro h
  simpa using List.mem_takeWhile_imp h

theorem str_eq_nil (a : CharArray n) (hn : 0 < n) : a.str = [] ↔ a.bytes.head? = some 0 := by
  have hsize := a.size_eq
  unfold str
  cases hbytes : a.bytes with
  | nil =>
    rw [hbytes, List.length_nil] at hsize
    omega
  | cons b bs =>
    rw [List.takeWhile_cons, List.head?_cons, Option.some.injEq]
    by_cases hb : b = 0 <;> simp [hb]

theorem takeWhile_nul {s t : List UInt8} (hs : 0 ∉ s) : (s ++ 0 :: t).takeWhile (· ≠ 0) = s := by
  rw [List.takeWhile_append_of_pos]
  · simp
  · intro b hb
    simpa using ne_of_mem_of_not_mem hb hs

theorem str_snprintf (a : CharArray n) {s : List UInt8} (hn : 0 < n) (hs : 0 ∉ s) :
    (a.snprintf s).str = s.take (n - 1) := by
  have hlen : (s.take (n - 1)).length < n := by
    simp only [List.length_take]
    omega
  obtain ⟨k, hk⟩ : ∃ k, n - (s.take (n - 1)).length = k + 1 := ⟨n - (s.take (n - 1)).length - 1,
    by omega⟩
  have htake : (s.take (n - 1)).take n = s.take (n - 1) := List.take_of_length_le (by omega)
  simp only [str, snprintf]
  rw [List.take_append, htake, hk, List.take_succ_cons]
  exact takeWhile_nul fun h => hs (List.mem_of_mem_take h)

/-- The bytes that a bounded copy of `s` into the array leaves as they were. -/
def behind (a : CharArray n) (s : List UInt8) : List UInt8 :=
  a.bytes.drop ((s.take (n - 1)).length + 1)

theorem bytes_snprintf (a : CharArray n) (s : List UInt8) (hn : 0 < n) :
    (a.snprintf s).bytes = s.take (n - 1) ++ 0 :: a.behind s := by
  have hsize := a.size_eq
  refine List.take_of_length_le ?_
  simp only [List.length_append, List.length_take, List.length_cons, List.length_drop]
  omega

theorem snprintf_eq_iff {a b : CharArray n} {s : List UInt8} (hn : 0 < n) :
    a.snprintf s = b.snprintf s ↔ a.behind s = b.behind s := by
  constructor
  · intro h
    have hbytes := congrArg bytes h
    rw [bytes_snprintf a s hn, bytes_snprintf b s hn] at hbytes
    exact (List.cons.inj (List.append_cancel_left hbytes)).2
  · intro h
    have hbytes : (a.snprintf s).bytes = (b.snprintf s).bytes := by
      rw [bytes_snprintf a s hn, bytes_snprintf b s hn, h]
    exact CharArray.mk.injEq .. ▸ hbytes

theorem str_memcpy {s : List UInt8} (pad : Nat → UInt8) (hlen : s.length < n) (hs : 0 ∉ s) :
    (memcpy n s pad).str = s := by
  obtain ⟨k, hk⟩ : ∃ k, n - s.length = k + 1 := ⟨n - s.length - 1, by omega⟩
  have htake : s.take n = s := List.take_of_length_le (by omega)
  simp only [str, memcpy]
  rw [List.take_append, htake, hk, List.take_succ_cons]
  exact takeWhile_nul hs

end CharArray
