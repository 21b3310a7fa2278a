import Naarad.Dispatch.Bytes
import Mathlib.Data.Nat.Digits.Defs

/-!
# The bytes of a message (`message_queue/message.h`)

Every process takes the bytes in its buffer for a `Message`. The six bytes of padding apart, a buffer
and its message determine each other.
-/

set_option autoImplicit false

namespace Naarad.Dispatch

/-- The value of bytes in memory, the lowest first. -/
def littleEndian (bs : List UInt8) : Nat := Nat.ofDigits 256 (bs.map UInt8.toNat)

theorem digits_lt (bs : List UInt8) : ∀ d ∈ bs.map UInt8.toNat, d < 256 := by
  intro d hd
  obtain ⟨b, _, rfl⟩ := List.mem_map.mp hd
  exact b.toNat_lt

theorem littleEndian_lt (bs : List UInt8) : littleEndian bs < 256 ^ bs.length := by
  have hlt := Nat.ofDigits_lt_base_pow_length (b := 256) (by decide) (digits_lt bs)
  rwa [List.length_map] at hlt

theorem littleEndian_injective {as bs : List UInt8} (hlength : as.length = bs.length)
    (heq : littleEndian as = littleEndian bs) : as = bs := by
  have hmap : (as.map UInt8.toNat).length = (bs.map UInt8.toNat).length := by
    rw [List.length_map, List.length_map, hlength]
  apply (List.map_inj_right fun _ _ => UInt8.toNat_inj.mp).mp
  exact Nat.ofDigits_inj_of_len_eq (by decide) hmap (digits_lt as) (digits_lt bs) heq

theorem littleEndian_littleEndian32 (x : UInt32) : littleEndian (littleEndian32 x) = x.toNat := by
  have hx := x.toNat_lt
  simp only [littleEndian, littleEndian32, List.map_cons, List.map_nil, UInt32.toNat_toUInt8,
    UInt32.toNat_shiftRight, UInt32.reduceToNat, Nat.reduceMod, Nat.reducePow,
    Nat.shiftRight_eq_div_pow, Nat.ofDigits_cons, Nat.ofDigits_nil]
  omega

theorem littleEndian_littleEndian64 (x : UInt64) : littleEndian (littleEndian64 x) = x.toNat := by
  have hx := x.toNat_lt
  have happend : littleEndian (littleEndian64 x) = littleEndian (littleEndian32 x.toUInt32) +
      256 ^ 4 * littleEndian (littleEndian32 (x >>> 32).toUInt32) := by
    unfold littleEndian littleEndian64
    rw [List.map_append, Nat.ofDigits_append]
    rfl
  rw [happend, littleEndian_littleEndian32, littleEndian_littleEndian32]
  simp only [UInt64.toNat_toUInt32, UInt64.toNat_shiftRight, UInt64.reduceToNat, Nat.reduceMod,
    Nat.reducePow, Nat.shiftRight_eq_div_pow]
  omega

theorem littleEndian32_ofNat {bs : List UInt8} (hlength : bs.length = 4) :
    littleEndian32 (.ofNat (littleEndian bs)) = bs := by
  refine littleEndian_injective (hlength ▸ rfl) ?_
  have hlt := littleEndian_lt bs
  rw [hlength] at hlt
  rw [littleEndian_littleEndian32, UInt32.toNat_ofNat_of_lt' hlt]

theorem littleEndian64_ofNat {bs : List UInt8} (hlength : bs.length = 8) :
    littleEndian64 (.ofNat (littleEndian bs)) = bs := by
  refine littleEndian_injective (hlength ▸ rfl) ?_
  have hlt := littleEndian_lt bs
  rw [hlength] at hlt
  rw [littleEndian_littleEndian64, UInt64.toNat_ofNat_of_lt' hlt]

theorem littleEndian32_injective {x y : UInt32} (h : littleEndian32 x = littleEndian32 y) :
    x = y := by
  apply UInt32.toNat_inj.mp
  rw [← littleEndian_littleEndian32, h, littleEndian_littleEndian32]

theorem littleEndian64_injective {x y : UInt64} (h : littleEndian64 x = littleEndian64 y) :
    x = y := by
  apply UInt64.toNat_inj.mp
  rw [← littleEndian_littleEndian64, h, littleEndian_littleEndian64]

theorem encodeMessage_injective {pad pad' : Fin 6 → UInt8} {m m' : Message}
    (h : encodeMessage pad m = encodeMessage pad' m') : pad = pad' ∧ m = m' := by
  have hsize {n : Nat} (a b : CharArray n) : a.bytes.length = b.bytes.length :=
    a.size_eq.trans b.size_eq.symm
  unfold encodeMessage at h
  obtain ⟨h, hnew_file⟩ := List.append_inj' h (hsize _ _)
  obtain ⟨h, hfile⟩ := List.append_inj' h (hsize _ _)
  obtain ⟨h, hcomm⟩ := List.append_inj' h (hsize _ _)
  obtain ⟨h, htimestamp⟩ := List.append_inj' h rfl
  obtain ⟨hids, h⟩ := List.append_inj h rfl
  obtain ⟨hgid, huid⟩ := List.append_inj hids rfl
  obtain ⟨hcategory, h⟩ := List.cons.inj h
  obtain ⟨hop, hpad⟩ := List.cons.inj h
  refine ⟨List.ofFn_injective hpad, ?_⟩
  cases m
  cases m'
  simp only [Message.mk.injEq]
  exact ⟨littleEndian32_injective hgid, littleEndian32_injective huid, hcategory, hop,
    littleEndian64_injective htimestamp, CharArray.mk.injEq .. ▸ hcomm,
    CharArray.mk.injEq .. ▸ hfile, CharArray.mk.injEq .. ▸ hnew_file⟩

namespace MessageBuffer

variable (b : MessageBuffer)

/-- `n` bytes of the record, from the offset `i` on. -/
def slice (i n : Nat) : List UInt8 := (b.bytes.drop i).take n

theorem length_slice {i n : Nat} (h : i + n ≤ SIZEOF_MESSAGE) : (b.slice i n).length = n := by
  rw [slice, List.length_take, List.length_drop, b.size_eq]
  omega

theorem slice_append (i n : Nat) : b.slice i n ++ b.bytes.drop (i + n) = b.bytes.drop i := by
  rw [slice, ← List.drop_drop, List.take_append_drop]

theorem lt_size {i : Nat} (h : i < SIZEOF_MESSAGE) : i < b.bytes.length := by
  rw [b.size_eq]
  exact h

def chars (i n : Nat) (h : i + n ≤ SIZEOF_MESSAGE) : CharArray n := ⟨b.slice i n, b.length_slice h⟩

/-- The fields that the processes read from the buffer, each at its offset. -/
def message : Message where
  gid := .ofNat (littleEndian (b.slice 0 4))
  uid := .ofNat (littleEndian (b.slice 4 4))
  category := b.category
  op := b.op
  timestamp := .ofNat (littleEndian (b.slice 16 8))
  comm := b.chars 24 16 (by decide)
  file := b.chars 40 128 (by decide)
  new_file := b.chars 168 128 (by decide)

/-- What lies between `op` and `timestamp`. -/
def padding (i : Fin 6) : UInt8 :=
  b.bytes.get ⟨10 + i.val, b.lt_size (by unfold SIZEOF_MESSAGE; omega)⟩

/-- The buffer that holds a message. -/
def ofMessage (pad : Fin 6 → UInt8) (m : Message) : MessageBuffer :=
  ⟨encodeMessage pad m, length_encodeMessage pad m⟩

theorem encodeMessage_message : encodeMessage b.padding b.message = b.bytes := by
  have hgid : littleEndian32 b.message.gid = b.slice 0 4 :=
    littleEndian32_ofNat (b.length_slice (by decide))
  have huid : littleEndian32 b.message.uid = b.slice 4 4 :=
    littleEndian32_ofNat (b.length_slice (by decide))
  have htimestamp : littleEndian64 b.message.timestamp = b.slice 16 8 :=
    littleEndian64_ofNat (b.length_slice (by decide))
  have hpad : List.ofFn b.padding = b.slice 10 6 := by
    apply List.ext_getElem
    · rw [List.length_ofFn, b.length_slice (by decide)]
    · intro i hi _
      rw [List.getElem_ofFn]
      simp only [padding, slice, List.get_eq_getElem, List.getElem_take, List.getElem_drop]
  have hcategory : b.message.category :: b.bytes.drop 9 = b.bytes.drop 8 :=
    (List.drop_eq_getElem_cons (b.lt_size (by decide))).symm
  have hop : b.message.op :: b.bytes.drop 10 = b.bytes.drop 9 :=
    (List.drop_eq_getElem_cons (b.lt_size (by decide))).symm
  have hend : b.slice 168 128 = b.bytes.drop 168 := by
    apply List.take_of_length_le
    rw [List.length_drop, b.size_eq]
    decide
  calc encodeMessage b.padding b.message
      = b.slice 0 4 ++ (b.slice 4 4 ++ b.message.category :: b.message.op ::
          (b.slice 10 6 ++ (b.slice 16 8 ++ (b.slice 24 16 ++ (b.slice 40 128 ++
            b.slice 168 128))))) := by
        rw [encodeMessage, hgid, huid, htimestamp, hpad]
        simp only [List.append_assoc, List.cons_append]
        rfl
    _ = b.bytes := by
        rw [hend, b.slice_append 40 128, b.slice_append 24 16, b.slice_append 16 8,
          b.slice_append 10 6, hop, hcategory, b.slice_append 4 4, b.slice_append 0 4,
          List.drop_zero]

theorem message_ofMessage (pad : Fin 6 → UInt8) (m : Message) : (ofMessage pad m).message = m :=
  (encodeMessage_injective (ofMessage pad m).encodeMessage_message).2

/-- `b.op = x`. -/
def setOp (x : UInt8) : MessageBuffer :=
  ⟨b.bytes.set 9 x, by rw [List.length_set, b.size_eq]⟩

theorem message_setOp (x : UInt8) : (b.setOp x).message = { b.message with op := x } := by
  have hset : b.setOp x = ofMessage b.padding { b.message with op := x } := by
    rw [setOp, MessageBuffer.mk.injEq, ← b.encodeMessage_message]
    rfl
  rw [hset, message_ofMessage]

end MessageBuffer

/-- A message and its padding determine the bytes of the buffer, and the bytes determine both. -/
theorem encodeMessage_eq_iff (pad : Fin 6 → UInt8) (m : Message) (b : MessageBuffer) :
    encodeMessage pad m = b.bytes ↔ pad = b.padding ∧ m = b.message := by
  constructor
  · intro h
    rw [← b.encodeMessage_message] at h
    exact encodeMessage_injective h
  · rintro ⟨rfl, rfl⟩
    exact b.encodeMessage_message

end Naarad.Dispatch
