import Mathlib

/-!
# Midpoints of the byte-ordered partitioner

Tokens are byte strings in lexicographic order. `midpoint` takes the mean of two numbers that have the
bytes of the tokens as their last ones, so the first bytes of tokens of different lengths do not meet.
`convert_to<int8_t>` of Boost's `cpp_int` is a parameter.
-/

namespace ScyllaMoon.Dht.ByteOrdered

open List

/-- The bytes of a token -/
abbrev Data := List (Fin 256)

/-- `cppint_token` -/
def cppintToken (t : Data) : Nat := t.foldl (fun ret d => ret * 256 + d.1) 0

/-- What the loop of `midpoint` takes `convert_to<int8_t>` to give: the lowest byte, also of a number that is none -/
def Truncates (convertTo : Nat → Fin 256) : Prop := ∀ n, (convertTo n).1 = n % 256

variable (convertTo : Nat → Fin 256)

/-- The loop that takes the bytes of a number below `256 ^ sigbytes`, the lowest one first -/
def lowBytes : (sigbytes mid : Nat) → Data
  | 0, _ => []
  | n + 1, mid => if mid = 0 then [] else convertTo mid :: lowBytes n (mid / 256)

/-- The bytes of the number after as many zeros as it needs -/
def padded (sigbytes mid : Nat) : Data :=
  (lowBytes convertTo sigbytes mid ++ replicate (sigbytes - (lowBytes convertTo sigbytes mid).length) 0).reverse

/-- `mid` in `midpoint`, where `max` is the number of all strings of `sigbytes` bytes -/
def mid (t1 t2 : Data) (max : Nat) : Nat :=
  let sum := cppintToken t1 + cppintToken t2
  if t1 ≤ t2 then sum / 2 else (sum / 2 + max / 2) % max

/-- `midpoint`. Of two empty tokens it is the minimum token. -/
def midpoint (t1 t2 : Data) : Option Data :=
  let sigbytes := max t1.length t2.length
  if sigbytes = 0 then none
  else
    let remainder := (cppintToken t1 + cppintToken t2) % 2 = 1
    some (padded convertTo sigbytes (mid t1 t2 (256 ^ sigbytes)) ++ if remainder then [0x80] else [])

theorem foldl_eq_cppintToken (n : Nat) (t : Data) :
    t.foldl (fun ret d => ret * 256 + d.1) n = n * 256 ^ t.length + cppintToken t := by
  induction t generalizing n with
  | nil => simp [cppintToken]
  | cons b t ih =>
    rw [cppintToken, foldl_cons, foldl_cons, ih, ih, length_cons, pow_succ]
    ring

theorem cppintToken_cons (b : Fin 256) (t : Data) : cppintToken (b :: t) = b.1 * 256 ^ t.length + cppintToken t := by
  simpa [cppintToken] using foldl_eq_cppintToken b.1 t

theorem cppintToken_append (s t : Data) : cppintToken (s ++ t) = cppintToken s * 256 ^ t.length + cppintToken t := by
  rw [cppintToken, foldl_append, foldl_eq_cppintToken]
  rfl

/-- The number of a token with zeros behind it, up to `n` bytes -/
def scaled (n : Nat) (t : Data) : Nat := cppintToken t * 256 ^ (n - t.length)

variable {n : Nat} {t : Data}

theorem scaled_cons {b : Fin 256} (le : t.length ≤ n) :
    scaled (n + 1) (b :: t) = b.1 * 256 ^ n + scaled n t := by
  rw [scaled, scaled, cppintToken_cons, length_cons, Nat.add_sub_add_right, add_mul, mul_assoc, ← pow_add,
    Nat.add_sub_cancel' le]

theorem scaled_lt (le : t.length ≤ n) : scaled n t < 256 ^ n := by
  induction t generalizing n with
  | nil => simp [scaled, cppintToken]
  | cons b t ih =>
    obtain ⟨n, rfl⟩ := Nat.exists_eq_add_one_of_ne_zero (Nat.ne_zero_of_lt le)
    have := Nat.mul_le_mul_right (256 ^ n) b.isLt
    have := ih (Nat.le_of_succ_le_succ le)
    rw [scaled_cons (Nat.le_of_succ_le_succ le), pow_succ]
    rw [Nat.succ_mul] at *
    omega

/-- Tokens are ordered as these numbers, and a token comes before those that it begins. -/
theorem lt_iff_scaled {s t : Data} (hs : s.length ≤ n) (ht : t.length ≤ n) :
    s < t ↔ scaled n s < scaled n t ∨ scaled n s = scaled n t ∧ s.length < t.length := by
  induction s generalizing t n with
  | nil => cases t with
    | nil => simp
    | cons b t => simp [scaled, cppintToken, Nat.pos_iff_ne_zero, eq_comm, em']
  | cons a s ih => cases t with
    | nil => simp [scaled, cppintToken]
    | cons b t =>
      obtain ⟨n, rfl⟩ := Nat.exists_eq_add_one_of_ne_zero (Nat.ne_zero_of_lt hs)
      have hs := Nat.le_of_succ_le_succ hs
      have ht := Nat.le_of_succ_le_succ ht
      have := scaled_lt hs
      have := scaled_lt ht
      rw [cons_lt_cons_iff, ih hs ht, scaled_cons hs, scaled_cons ht, length_cons, length_cons, Fin.lt_def, Fin.ext_iff]
      rcases lt_trichotomy a.1 b.1 with lt | eq | gt
      · have := Nat.mul_le_mul_right (256 ^ n) lt
        rw [Nat.succ_mul] at this
        omega
      · simp [eq]
      · have := Nat.mul_le_mul_right (256 ^ n) gt
        rw [Nat.succ_mul] at this
        omega

theorem length_lowBytes_le (n mid : Nat) : (lowBytes convertTo n mid).length ≤ n := by
  induction n generalizing mid with
  | zero => exact le_rfl
  | succ n ih =>
    unfold lowBytes
    split
    · exact Nat.zero_le _
    · exact Nat.succ_le_succ (ih _)

@[simp] theorem length_padded (n mid : Nat) : (padded convertTo n mid).length = n := by
  simp only [padded, length_reverse, length_append, length_replicate]
  exact Nat.add_sub_cancel' (length_lowBytes_le convertTo n mid)

variable {convertTo}

/-- The loop takes all bytes. -/
theorem cppintToken_padded (truncates : Truncates convertTo) {n mid : Nat} (lt : mid < 256 ^ n) :
    cppintToken (padded convertTo n mid) = mid := by
  induction n generalizing mid with
  | zero => simp [padded, lowBytes, cppintToken, show mid = 0 by simpa using lt]
  | succ n ih =>
    unfold padded lowBytes
    split
    · have zeros (k) : cppintToken (replicate k 0) = 0 := by
        induction k with
        | zero => rfl
        | succ k ih => simp [replicate_succ, cppintToken_cons, ih]
      rw [nil_append, reverse_replicate, zeros]
      exact Eq.symm ‹_›
    · have rest := @ih (mid / 256) (by rw [pow_succ] at lt; omega)
      rw [padded] at rest
      rw [cons_append, reverse_cons, length_cons, Nat.add_sub_add_right, cppintToken_append, rest]
      simp [cppintToken, truncates mid]
      omega

/-- The midpoint lies between the tokens, or outside of them if the range wraps around. -/
def Between (convertTo : Nat → Fin 256) (t1 t2 : Data) : Prop :=
  (t1 < t2 → ∃ m, midpoint convertTo t1 t2 = some m ∧ t1 ≤ m ∧ m ≤ t2) ∧
    (t2 < t1 → ∃ m, midpoint convertTo t1 t2 = some m ∧ ¬(t2 < m ∧ m < t1))

/-- The numbers of tokens of different lengths are far enough apart. -/
def Apart (t1 t2 : Data) : Prop :=
  (t1.length < t2.length → 2 * scaled t2.length t1 ≤
    cppintToken t1 + cppintToken t2 + if t2 < t1 then 256 ^ t2.length else 0) ∧
    (t2.length < t1.length → t1 < t2 → cppintToken t1 ≤ cppintToken t2)

/-- The numbers of a token with as many bytes as it has and with `n` bytes -/
theorem scaled_cases (le : t.length ≤ n) : scaled (n + 1) t = 256 * scaled n t ∧ scaled n t < 256 ^ n ∧
    (t.length = n ∧ scaled n t = cppintToken t ∨ t.length < n ∧ 256 * cppintToken t ≤ scaled n t) := by
  refine ⟨?_, scaled_lt le, ?_⟩
  · rw [scaled, scaled, Nat.sub_add_comm le, pow_succ]
    ring
  · rcases le.eq_or_lt with rfl | lt
    · exact .inl ⟨rfl, by simp [scaled]⟩
    · refine .inr ⟨lt, ?_⟩
      rw [mul_comm]
      exact Nat.mul_le_mul_left _ (Nat.le_self_pow (by omega) 256)

theorem mod_cases {x y : Nat} (lt : x < 2 * y) : x % y = x ∧ x < y ∨ x % y + y = x := by
  rcases Nat.lt_or_ge x y with small | ge
  · exact .inl ⟨Nat.mod_eq_of_lt small, small⟩
  · rw [Nat.mod_eq_sub_mod ge, Nat.mod_eq_of_lt (by omega)]
    omega

/-- The length of the midpoint and its number with one byte for the remainder -/
theorem midpoint_spec (truncates : Truncates convertTo) {t1 t2 : Data} {n sum : Nat} (hn : n = max t1.length t2.length)
    (pos : n ≠ 0) (hs : sum = cppintToken t1 + cppintToken t2) (lt : mid t1 t2 (256 ^ n) < 256 ^ n) :
    ∃ m, midpoint convertTo t1 t2 = some m ∧ m.length = n + sum % 2 ∧ scaled (n + 1) m = 256 * mid t1 t2 (256 ^ n) + 128 * (sum % 2) := by
  refine ⟨_, if_neg (hn ▸ pos), ?_, ?_⟩
  · rw [← hn, ← hs]
    rcases Nat.mod_two_eq_zero_or_one sum with h | h <;> simp [h]
  · rw [← hn, ← hs, scaled, cppintToken_append, cppintToken_padded truncates lt]
    rcases Nat.mod_two_eq_zero_or_one sum with h | h <;> simp [h, cppintToken, mul_comm]

theorem midpoint_between_iff (truncates : Truncates convertTo) (t1 t2 : Data) :
    Between convertTo t1 t2 ↔ Apart t1 t2 := by
  rcases eq_or_ne t1 t2 with rfl | ne
  · simp [Between, Apart]
  obtain ⟨n, hn⟩ : ∃ n, n = max t1.length t2.length := ⟨_, rfl⟩
  have le1 : t1.length ≤ n := hn ▸ le_max_left ..
  have le2 : t2.length ≤ n := hn ▸ le_max_right ..
  obtain ⟨one1, lt1, length1⟩ := scaled_cases le1
  obtain ⟨one2, lt2, length2⟩ := scaled_cases le2
  have pos : n ≠ 0 := by
    rintro rfl
    exact ne ((length_eq_zero_iff.1 (by omega)).trans (length_eq_zero_iff.1 (by omega)).symm)
  have even : 2 ∣ 256 ^ n := dvd_pow (by decide) pos
  obtain ⟨sum, hs⟩ : ∃ sum, sum = cppintToken t1 + cppintToken t2 := ⟨_, rfl⟩
  have wrapped := mod_cases (x := sum / 2 + 256 ^ n / 2) (y := 256 ^ n) (by omega)
  have lt : mid t1 t2 (256 ^ n) < 256 ^ n := by
    dsimp only [mid]
    split <;> omega
  obtain ⟨m, some, length, value⟩ := midpoint_spec truncates hn pos hs lt
  have le : m.length ≤ n + 1 ∧ t1.length ≤ n + 1 ∧ t2.length ≤ n + 1 := by omega
  have shorter : t1.length < t2.length → scaled t2.length t1 = scaled n t1 ∧ 256 ^ t2.length = 256 ^ n := fun lt => by
    rw [show t2.length = n by omega]
    exact ⟨rfl, rfl⟩
  simp only [Between, Apart, some, Option.some.injEq, exists_eq_left', ← not_lt, lt_iff_scaled le.1 le.2.1,
    lt_iff_scaled le.2.2 le.1]
  rw [length, value, mid, ← hs]
  rcases lt_or_gt_of_ne ne with less | greater
  · have order := (lt_iff_scaled le.2.1 le.2.2).1 less
    simp only [less, not_lt_of_gt less, if_pos less.le, if_false]
    simp
    omega
  · have order := (lt_iff_scaled le.2.2 le.2.1).1 greater
    simp only [greater, not_lt_of_gt greater, if_neg greater.not_ge, if_true]
    simp
    omega

theorem midpoint_between_iff_short : Between (Fin.ofNat 256) [1] [2, 0] :=
  (midpoint_between_iff (fun _ => rfl) [1] [2, 0]).2 ⟨by decide, by decide⟩

/-- The midpoint of 01 and 0100 comes before both of them, whatever `convert_to` makes of the byte 128. -/
theorem midpoint_before_both : ¬∃ convertTo, Between convertTo [1] [1, 0] := by
  rintro ⟨convertTo, between, -⟩
  obtain ⟨m, eq, le, -⟩ := between (by decide)
  have value : midpoint convertTo [1] [1, 0] = some [0, convertTo 128, 128] := by
    have le : ([1] : Data) ≤ [1, 0] := by decide
    simp [midpoint, mid, cppintToken, padded, lowBytes, le]
  cases value.symm.trans eq
  exact absurd le (not_le.2 (Lex.rel (by decide)))

end ScyllaMoon.Dht.ByteOrdered
