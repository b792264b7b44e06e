import Mathlib

/-!
# Numbers and strings as bytes

Fixed-width numbers are written with the most significant byte first, strings after their length. What
is written in such a way can be read back, also when something follows.
-/

namespace ScyllaMoon.Lib

abbrev Bytes := List UInt8

/-- The last `w` bytes of a number, the most significant one first. -/
def bigEndian : Nat → Int → Bytes
  | 0, _ => []
  | w + 1, n => bigEndian w (n / 256) ++ [UInt8.ofNat (n % 256).toNat]

@[simp] theorem length_bigEndian (w : Nat) (n : Int) : (bigEndian w n).length = w := by
  induction w generalizing n with
  | zero => rfl
  | succ w ih => rw [bigEndian, List.length_append, ih, List.length_singleton]

variable {n m : Int}

/-- The lowest byte tells the remainder. -/
theorem emod_of_byte_eq (h : UInt8.ofNat (n % 256).toNat = UInt8.ofNat (m % 256).toNat) :
    n % 256 = m % 256 := by
  have same := congrArg UInt8.toNat h
  rw [UInt8.toNat_ofNat', UInt8.toNat_ofNat'] at same
  omega

/-- Numbers of the same bytes agree up to the width. -/
theorem dvd_of_bigEndian_eq {w : Nat} (h : bigEndian w n = bigEndian w m) : (256 ^ w : Int) ∣ n - m := by
  induction w generalizing n m with
  | zero => exact one_dvd _
  | succ w ih =>
    obtain ⟨high, low⟩ := List.append_inj h (by simp)
    have rest := emod_of_byte_eq (List.singleton_inj.1 low)
    obtain ⟨k, hk⟩ := ih high
    refine ⟨k, ?_⟩
    have split : n - m = 256 * (n / 256 - m / 256) := by omega
    rw [split, hk]
    ring

/-- Four bytes hold a number of `int32_t`. -/
theorem bigEndian_four_inj (hn : -2147483648 ≤ n ∧ n < 2147483648) (hm : -2147483648 ≤ m ∧ m < 2147483648)
    (h : bigEndian 4 n = bigEndian 4 m) : n = m := by
  have dvd := dvd_of_bigEndian_eq h
  omega

/-- Eight bytes hold a number of `int64_t`. -/
theorem bigEndian_eight_inj (hn : -9223372036854775808 ≤ n ∧ n < 9223372036854775808)
    (hm : -9223372036854775808 ≤ m ∧ m < 9223372036854775808) (h : bigEndian 8 n = bigEndian 8 m) : n = m := by
  have dvd := dvd_of_bigEndian_eq h
  omega

/-- A string after its length. -/
def sized (b : List UInt8) : List UInt8 := bigEndian 4 b.length ++ b

theorem sized_append_inj {a b r s : List UInt8} (ha : a.length < 4294967296) (hb : b.length < 4294967296)
    (h : sized a ++ r = sized b ++ s) : a = b ∧ r = s := by
  unfold sized at h
  rw [List.append_assoc, List.append_assoc] at h
  obtain ⟨lengths, rest⟩ := List.append_inj h (by simp)
  have dvd := dvd_of_bigEndian_eq lengths
  exact List.append_inj rest (by omega)

/-- Codes that can be read back one after the other can be read back as a list, if none is empty. -/
theorem flatMap_inj {α : Type} {code : α → List UInt8} {ok : α → Prop} (nonempty : ∀ a, code a ≠ [])
    (one : ∀ a b r s, ok a → ok b → code a ++ r = code b ++ s → a = b ∧ r = s) {l m : List α} (hl : ∀ a ∈ l, ok a)
    (hm : ∀ a ∈ m, ok a) (h : l.flatMap code = m.flatMap code) : l = m := by
  induction l generalizing m with
  | nil => cases m with
    | nil => rfl
    | cons b m => exact absurd (List.append_eq_nil_iff.1 h.symm).1 (nonempty b)
  | cons a l ih => cases m with
    | nil => exact absurd (List.append_eq_nil_iff.1 h).1 (nonempty a)
    | cons b m =>
      obtain ⟨okA, okL⟩ := List.forall_mem_cons.1 hl
      obtain ⟨okB, okM⟩ := List.forall_mem_cons.1 hm
      obtain ⟨rfl, rest⟩ := one a b _ _ okA okB h
      rw [ih okL okM rest]

end ScyllaMoon.Lib
