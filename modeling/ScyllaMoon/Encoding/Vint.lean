import Mathlib

/-!
# Variable-length integers

The leading ones of the first byte count the bytes that follow it. The rest of the first byte and the
others hold the value, the most significant bits first. A signed value is mapped to an unsigned one, which
is small if the value is near zero.
-/

namespace ScyllaMoon.Encoding

open List Option

abbrev Byte := BitVec 8

variable (n : BitVec 64)

/-- `count_leading_zero_bits` -/
def countLeadingZeroBits : Nat := if n = 0 then 64 else 63 - n.toNat.log2

/-- `encode_zigzag` -/
def encodeZigzag : BitVec 64 := n <<< 1 ^^^ n.sshiftRight 63

/-- `decode_zigzag` -/
def decodeZigzag : BitVec 64 := n >>> 1 ^^^ -(n &&& 1#64)

/-- `first_byte_value_mask` -/
def firstByteValueMask (extraBytesSize : Nat) : BitVec 64 := 0xff >>> extraBytesSize

/-- `count_extra_bytes` -/
def countExtraBytes (firstByte : Byte) : Nat := countLeadingZeroBits (~~~firstByte.signExtend 64) - 56

/-- The buffer of `encode`. Byte `n` of the value is the last one after `n` shifts. -/
def buffer (value : BitVec 64) : Nat → List Byte
  | 0 => []
  | n + 1 => (value >>> (8 * n)).setWidth 8 :: buffer value n

variable (value : BitVec 64)

/-- `encode` -/
def encode (size : Nat) : List Byte :=
  (buffer value size).modifyHead (· ||| (~~~firstByteValueMask (size - 1)).setWidth 8)

namespace UnsignedVint

/-- `serialized_size` -/
def serializedSize : Nat := 9 - ((countLeadingZeroBits (value ||| 1#64) - 1 : Int).tdiv 7).toNat

/-- `serialize` -/
def serialize : List Byte :=
  if serializedSize value = 1 then [value.setWidth 8] else encode value (serializedSize value)

/-- The next byte in the loop of `deserialize` -/
def append (result : BitVec 64) (b : Byte) : BitVec 64 := result <<< 8 ||| (b.signExtend 64 &&& 0xff)

/-- `deserialize`: the value and its size, if the view holds all its bytes. -/
def deserialize : List Byte → Option (BitVec 64 × Nat)
  | [] => none
  | firstByte :: v =>
    if 0 ≤ firstByte.toInt then some (firstByte.signExtend 64, 1)
    else if v.length < countExtraBytes firstByte then none
    else
      let result := firstByte.signExtend 64 &&& firstByteValueMask (countExtraBytes firstByte)
      some ((v.take (countExtraBytes firstByte)).foldl append result, countExtraBytes firstByte + 1)

end UnsignedVint

namespace SignedVint

/-- `serialized_size` -/
def serializedSize : Nat := UnsignedVint.serializedSize (encodeZigzag value)

/-- `serialize` -/
def serialize : List Byte := UnsignedVint.serialize (encodeZigzag value)

/-- `deserialize` -/
def deserialize (v : List Byte) : Option (BitVec 64 × Nat) :=
  (UnsignedVint.deserialize v).map fun un => (decodeZigzag un.1, un.2)

end SignedVint

theorem toNat_encodeZigzag :
    (encodeZigzag n).toNat = if n.toNat < 2 ^ 63 then 2 * n.toNat else 2 ^ 65 - 1 - 2 * n.toNat := by
  have sign : n.sshiftRight 63 = if n.toNat < 2 ^ 63 then 0#64 else BitVec.allOnes 64 := by
    apply BitVec.eq_of_toInt_eq
    rw [BitVec.toInt_sshiftRight, Int.shiftRight_eq_div_pow, BitVec.toInt_eq_toNat_cond]
    split <;> split <;> simp <;> omega
  have bound := n.isLt
  rw [encodeZigzag, sign]
  split
  · simp [Nat.shiftLeft_eq]
    omega
  · rw [BitVec.xor_allOnes, BitVec.toNat_not, BitVec.toNat_shiftLeft, Nat.shiftLeft_eq]
    omega

theorem toNat_decodeZigzag :
    (decodeZigzag n).toNat = if n.toNat % 2 = 0 then n.toNat / 2 else 2 ^ 64 - 1 - n.toNat / 2 := by
  have low : n &&& 1#64 = BitVec.ofNat 64 (n.toNat % 2) := by
    apply BitVec.eq_of_toNat_eq
    simp
    omega
  have sign : -(n &&& 1#64) = if n.toNat % 2 = 0 then 0#64 else BitVec.allOnes 64 := by
    rw [low]
    rcases Nat.mod_two_eq_zero_or_one n.toNat with h | h <;> rw [h] <;> rfl
  rw [decodeZigzag, sign]
  split
  · simp [Nat.shiftRight_eq_div_pow]
  · rw [BitVec.xor_allOnes, BitVec.toNat_not, BitVec.toNat_ushiftRight, Nat.shiftRight_eq_div_pow]

theorem decodeZigzag_encodeZigzag : decodeZigzag (encodeZigzag n) = n := by
  apply BitVec.eq_of_toNat_eq
  have bound := n.isLt
  rw [toNat_decodeZigzag, toNat_encodeZigzag]
  split <;> split <;> omega

theorem encodeZigzag_decodeZigzag : encodeZigzag (decodeZigzag n) = n := by
  apply BitVec.eq_of_toNat_eq
  have bound := n.isLt
  rw [toNat_encodeZigzag, toNat_decodeZigzag]
  split <;> split <;> omega

namespace UnsignedVint

variable (v : BitVec 64)

theorem append_setWidth : append (v >>> 8) (v.setWidth 8) = v := by
  have unsigned : ∀ b : Byte, b.signExtend 64 &&& 0xff = b.setWidth 64 := by decide +kernel
  rw [append, unsigned]
  ext i hi
  by_cases low : i < 8
  · simp [low, BitVec.getLsbD_eq_getElem hi]
  · simp [low, show 8 + (i - 8) = i by omega, BitVec.getLsbD_eq_getElem hi]

theorem foldl_buffer (n : Nat) : (buffer v n).foldl append (v >>> (8 * n)) = v := by
  induction n with
  | zero => simp [buffer]
  | succ n ih =>
    rw [buffer, foldl_cons, Nat.mul_succ, BitVec.shiftRight_add, append_setWidth]
    exact ih

@[simp] theorem length_buffer (n : Nat) : (buffer v n).length = n := by
  induction n with
  | zero => rfl
  | succ n ih => rw [buffer, length_cons, ih]

/-- The first byte can be read without a look at its sign. -/
theorem deserialize_cons (b : Byte) (v : List Byte) : deserialize (b :: v) =
    if v.length < countExtraBytes b then none
    else some ((v.take (countExtraBytes b)).foldl append (b.signExtend 64 &&& firstByteValueMask (countExtraBytes b)),
      countExtraBytes b + 1) := by
  have positive : ∀ b : Byte, 0 ≤ b.toInt →
      countExtraBytes b = 0 ∧ b.signExtend 64 &&& firstByteValueMask 0 = b.signExtend 64 := by decide +kernel
  rw [deserialize]
  split
  next sign =>
    simp [positive b sign]
  · rfl

/-- A value of at most `7 * n` bits has a size of at most `n` bytes. -/
theorem serializedSize_le_iff {v : BitVec 64} {n : Nat} (lt : n < 9) : serializedSize v ≤ n ↔ 0 < n ∧ v.toNat < 2 ^ (7 * n) := by
  have sizes : ∀ m : Fin 64, ∀ n : Fin 9, 9 - (((63 - m.1 : Nat) - 1 : Int).tdiv 7).toNat ≤ n.1 ↔ 0 < n.1 ∧ m.1 < 7 * n.1 := by
    decide +kernel
  have one : (v ||| 1#64).toNat = v.toNat ||| 1 := by simp
  have ne : v.toNat ||| 1 ≠ 0 := by simp [Nat.or_eq_zero_iff]
  have log : (v.toNat ||| 1).log2 < 64 := (Nat.log2_lt ne).2 (Nat.or_lt_two_pow v.isLt (by decide))
  rw [serializedSize, countLeadingZeroBits, if_neg fun h => ne (one ▸ congrArg BitVec.toNat h), one,
    sizes ⟨_, log⟩ ⟨n, lt⟩, Nat.log2_lt ne]
  refine and_congr_right fun pos => ⟨Nat.lt_of_le_of_lt Nat.left_le_or, fun h => Nat.or_lt_two_pow h ?_⟩
  exact Nat.one_lt_two_pow (Nat.mul_ne_zero (by decide) (Nat.ne_of_gt pos))

theorem serializedSize_range : 1 ≤ serializedSize v ∧ serializedSize v ≤ 9 :=
  ⟨not_lt.1 fun h => absurd ((serializedSize_le_iff (by decide)).1 (Nat.le_of_lt_succ h)).1 (by decide), Nat.sub_le ..⟩

/-- The first byte of an encoding holds the number of the others and the highest bits. -/
theorem first_byte : ∀ e < 9, ∀ high < 2 ^ (7 - e),
    countExtraBytes (BitVec.ofNat 8 high ||| (~~~firstByteValueMask e).setWidth 8) = e ∧
      (BitVec.ofNat 8 high ||| (~~~firstByteValueMask e).setWidth 8).signExtend 64 &&& firstByteValueMask e = BitVec.ofNat 64 high := by
  decide +kernel

theorem serialize_eq : serialize v = encode v (serializedSize v) := by
  rw [serialize]
  split
  next one =>
    simp [one, encode, buffer, firstByteValueMask]
  · rfl

theorem deserialize_serialize (rest : List Byte) :
    deserialize (serialize v ++ rest) = some (v, serializedSize v) := by
  obtain ⟨pos, le⟩ := serializedSize_range v
  obtain ⟨e, size⟩ : ∃ e, serializedSize v = e + 1 := ⟨_, (Nat.succ_pred_eq_of_pos pos).symm⟩
  have high : (v >>> (8 * e)).toNat < 2 ^ (7 - e) := by
    rw [BitVec.toNat_ushiftRight, Nat.shiftRight_eq_div_pow]
    refine Nat.div_lt_of_lt_mul ?_
    rw [← Nat.pow_add]
    rcases Nat.lt_or_ge e 8 with lt | ge
    · have := ((serializedSize_le_iff (v := v) (n := e + 1) (by omega)).1 size.le).2
      rwa [show 8 * e + (7 - e) = 7 * (e + 1) by omega]
    · obtain rfl : e = 8 := by omega
      exact v.isLt
  obtain ⟨extra, value⟩ := first_byte e (by omega) _ high
  rw [serialize_eq, size, encode, buffer, modifyHead_cons, cons_append, deserialize_cons, Nat.add_sub_cancel,
    ← BitVec.ofNat_toNat, extra, value, BitVec.ofNat_toNat, BitVec.setWidth_eq, take_left' (length_buffer v e), foldl_buffer,
    if_neg (by simp)]

theorem foldl_append_lt {r : BitVec 64} {k : Nat} (h : r.toNat < 2 ^ k) (l : List Byte) :
    (l.foldl append r).toNat < 2 ^ (k + 8 * l.length) := by
  induction l generalizing r k with
  | nil => exact h
  | cons b l ih =>
    have next : (append r b).toNat < 2 ^ (k + 8) := by
      rw [append, BitVec.toNat_or, BitVec.toNat_shiftLeft, Nat.shiftLeft_eq, BitVec.toNat_and]
      refine Nat.or_lt_two_pow (Nat.lt_of_le_of_lt (Nat.mod_le ..) ?_) (Nat.lt_of_le_of_lt Nat.and_le_right ?_)
      · rw [Nat.pow_add]
        exact Nat.mul_lt_mul_of_pos_right h (by decide)
      · exact Nat.lt_of_lt_of_le (show _ < 2 ^ 8 by decide) (Nat.pow_le_pow_right (by decide) (Nat.le_add_left ..))
    rw [length_cons, show k + 8 * (l.length + 1) = k + 8 + 8 * l.length by omega]
    exact ih next

/-- A code of fewer bytes does not have enough bits. -/
theorem serializedSize_le_of_deserialize {w : List Byte} {v : BitVec 64} {n : Nat} (h : deserialize w = some (v, n)) :
    serializedSize v ≤ n := by
  have header : ∀ b : Byte, countExtraBytes b ≤ 8 ∧
      (b.signExtend 64 &&& firstByteValueMask (countExtraBytes b)).toNat < 2 ^ (7 - countExtraBytes b) := by decide +kernel
  cases w with
  | nil => cases h
  | cons b w =>
    rw [deserialize_cons, ite_none_left_eq_some] at h
    obtain ⟨enough, h⟩ := h
    cases h
    have value := foldl_append_lt (header b).2 (w.take (countExtraBytes b))
    rw [length_take, Nat.min_eq_left (not_lt.1 enough)] at value
    rcases Nat.lt_or_ge (countExtraBytes b) 8 with lt | ge
    · refine (serializedSize_le_iff (by omega)).2 ⟨Nat.succ_pos _, ?_⟩
      rwa [show 7 * (countExtraBytes b + 1) = 7 - countExtraBytes b + 8 * countExtraBytes b by omega]
    · exact (serializedSize_range _).2.trans (by omega)

end UnsignedVint

/-- The bytes are a whole code. -/
def IsCode {V : Type} (deserialize : List Byte → Option (V × Nat)) (w : List Byte) : Prop :=
  ∃ v, deserialize w = some (v, w.length)

/-- What `serialize` writes, `deserialize` reads. -/
structure Faithful {V : Type} (serializedSize : V → Nat) (serialize : V → List Byte)
    (deserialize : List Byte → Option (V × Nat)) : Prop where
  returns : ∀ v rest, deserialize (serialize v ++ rest) = some (v, serializedSize v)
  size : ∀ v, (serialize v).length = serializedSize v
  range : ∀ v, 1 ≤ serializedSize v ∧ serializedSize v ≤ 9
  minimal : ∀ w v n, deserialize w = some (v, n) → serializedSize v ≤ n
  prefixFree : ∀ a b, IsCode deserialize a → IsCode deserialize b → a <+: b → a = b

/-- The first byte of a code tells its length. -/
theorem UnsignedVint.eq_of_isPrefix {a b : List Byte} (ha : IsCode deserialize a) (hb : IsCode deserialize b) (h : a <+: b) :
    a = b := by
  obtain ⟨⟨_, ha⟩, _, hb⟩ := And.intro ha hb
  cases a with
  | nil => cases ha
  | cons x a =>
    obtain ⟨rest, rfl⟩ := h
    rw [cons_append, deserialize_cons, ite_none_left_eq_some] at hb
    rw [deserialize_cons, ite_none_left_eq_some] at ha
    have length := (Prod.mk.inj (some.inj ha.2)).2.symm.trans (Prod.mk.inj (some.inj hb.2)).2
    exact (prefix_append ..).eq_of_length length

open SignedVint (serializedSize serialize deserialize)

theorem vint_faithful : Faithful UnsignedVint.serializedSize UnsignedVint.serialize UnsignedVint.deserialize ∧
    Faithful serializedSize serialize deserialize := by
  have size (v) : (UnsignedVint.serialize v).length = UnsignedVint.serializedSize v := by
    simp [UnsignedVint.serialize_eq, encode]
  constructor
  · constructor
    · exact UnsignedVint.deserialize_serialize
    · exact size
    · exact UnsignedVint.serializedSize_range
    · exact fun _ _ _ => UnsignedVint.serializedSize_le_of_deserialize
    · exact fun _ _ => UnsignedVint.eq_of_isPrefix
  · have code {w} (h : IsCode deserialize w) : IsCode UnsignedVint.deserialize w := by
      obtain ⟨_, h⟩ := h
      obtain ⟨un, read, eq⟩ := map_eq_some_iff.1 h
      exact ⟨un.1, read.trans (congrArg (fun n => some (un.1, n)) (Prod.mk.inj eq).2)⟩
    constructor
    · intro v rest
      simp [deserialize, serialize, UnsignedVint.deserialize_serialize, decodeZigzag_encodeZigzag,
        serializedSize]
    · exact fun v => size _
    · exact fun v => UnsignedVint.serializedSize_range _
    · intro w v n h
      obtain ⟨un, read, eq⟩ := map_eq_some_iff.1 h
      cases eq
      rw [serializedSize, encodeZigzag_decodeZigzag]
      exact UnsignedVint.serializedSize_le_of_deserialize read
    · exact fun _ _ ha hb => UnsignedVint.eq_of_isPrefix (code ha) (code hb)

end ScyllaMoon.Encoding
