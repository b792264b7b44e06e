import ScyllaMoon.Dht.Partitioner

/-!
# The murmur3 partitioner

The tokens are 64-bit numbers. Without the most significant bits, which are ignored, a token is read as a fraction
of the ring, and the shard is that fraction of the shards. `token_for_next_shard` goes the other way with a table
of the first tokens of the shards.
-/

namespace ScyllaMoon.Dht

open BitVec (intMin ofNat)

/-- The data of a token of kind `key`. Since the tokens are normalized, the least number is not one of them. -/
structure Murmur3Key where
  data : BitVec 64
  normal : data ≠ intMin 64
  deriving DecidableEq

namespace Murmur3Key

theorem toInt_injective : Function.Injective fun k : Murmur3Key => k.data.toInt := by
  rintro ⟨x, _⟩ ⟨y, _⟩ eq
  have : x = y := BitVec.eq_of_toInt_eq eq
  subst this
  rfl

/-- `murmur3_partitioner::tri_compare` -/
instance : LinearOrder Murmur3Key := LinearOrder.lift' (fun k => k.data.toInt) toInt_injective

/-- `get_token(value)` with `normalize` -/
def getToken (value : BitVec 64) : Murmur3Key :=
  if h : value = intMin 64 then ⟨BitVec.intMax 64, by decide⟩ else ⟨value, h⟩

/-- `unbias` -/
def unbias (k : Murmur3Key) : Nat := (k.data + intMin 64).toNat

/-- `bias` -/
def bias (n : Nat) : Murmur3Key := getToken (ofNat 64 n - intMin 64)

end Murmur3Key

/-- `zero_based_shard_of` -/
def zeroBasedShardOf (token shards shardingIgnoreMsbBits : Nat) : Nat :=
  let token := (token <<< shardingIgnoreMsbBits) % 2 ^ 64
  (token * shards) >>> 64

/-- The loop that looks for the first token of a shard. `none` means that it has not ended within so many rounds. -/
def findShardStart (shards shardingIgnoreMsbBits s : Nat) : (rounds token : Nat) → Option Nat
  | 0, _ => none
  | rounds + 1, token =>
    if zeroBasedShardOf token shards shardingIgnoreMsbBits = s then some token
    else findShardStart shards shardingIgnoreMsbBits s rounds ((token + 1) % 2 ^ 64)

/-- `init_zero_based_shard_start` -/
def initZeroBasedShardStart (rounds shards shardingIgnoreMsbBits : Nat) : Option (List Nat) :=
  if shards = 1 then some [0]
  else (List.range shards).mapM fun s =>
    findShardStart shards shardingIgnoreMsbBits s rounds (((s <<< 64) / shards) >>> shardingIgnoreMsbBits)

/-- `murmur3_partitioner` -/
structure Murmur3Partitioner where
  shardCount : Nat
  shardingIgnoreMsbBits : Nat
  shardStart : List Nat

namespace Murmur3Partitioner

/-- The constructor. With one shard, the bits are not ignored. -/
def make (rounds shardCount shardingIgnoreMsbBits : Nat) : Option Murmur3Partitioner := do
  let bits := if shardCount > 1 then shardingIgnoreMsbBits else 0
  let shardStart ← initZeroBasedShardStart rounds shardCount bits
  some ⟨shardCount, bits, shardStart⟩

variable (p : Murmur3Partitioner)

/-- `shard_of` -/
def shardOf : Token Murmur3Key → Nat
  | ⊥ => 0
  | WithBot.some ⊤ => p.shardCount - 1
  | WithBot.some (WithTop.some k) => zeroBasedShardOf k.unbias p.shardCount p.shardingIgnoreMsbBits

/-- `token_for_next_shard`, where `n` is the number of the token -/
def tokenForNextShardFrom (n shard spans : Nat) : Token Murmur3Key :=
  let s := zeroBasedShardOf n p.shardCount p.shardingIgnoreMsbBits
  if p.shardingIgnoreMsbBits = 0 then
    let n := p.shardStart.getD shard 0
    if spans > 1 ∨ shard ≤ s then ⊤ else keyToken (Murmur3Key.bias n)
  else
    let leftPart := (n >>> (64 - p.shardingIgnoreMsbBits)) + (spans - if shard > s then 1 else 0)
    if leftPart ≥ 1 <<< p.shardingIgnoreMsbBits then ⊤
    else
      let leftPart := leftPart <<< (64 - p.shardingIgnoreMsbBits)
      let rightPart := p.shardStart.getD shard 0
      keyToken (Murmur3Key.bias (leftPart ||| rightPart))

/-- `token_for_next_shard` -/
def tokenForNextShard (t : Token Murmur3Key) (shard spans : Nat) : Token Murmur3Key :=
  match t with
  | ⊥ => p.tokenForNextShardFrom 0 shard spans
  | WithBot.some ⊤ => ⊤
  | WithBot.some (WithTop.some k) => p.tokenForNextShardFrom k.unbias shard spans

/-- The partitioner as others see it -/
def toPartitioner : Partitioner Murmur3Key := ⟨p.shardCount, p.shardOf, p.tokenForNextShard⟩

end Murmur3Partitioner

namespace Murmur3Key

theorem unbias_lt (k : Murmur3Key) : k.unbias < 2 ^ 64 := BitVec.isLt _

theorem toInt_eq (x : BitVec 64) : x.toInt = ((x + intMin 64).toNat : Int) - 2 ^ 63 := by
  rw [BitVec.toNat_add, BitVec.toInt_eq_toNat_cond]
  have min : (intMin 64).toNat = 2 ^ 63 := by decide
  split <;> omega

theorem lt_iff {k l : Murmur3Key} : k < l ↔ k.unbias < l.unbias := by
  change k.data.toInt < l.data.toInt ↔ _
  rw [toInt_eq, toInt_eq, unbias, unbias]
  omega

theorem le_iff {k l : Murmur3Key} : k ≤ l ↔ k.unbias ≤ l.unbias := by rw [← not_lt, lt_iff, not_lt]

/-- Only the number zero is not that of a token. -/
theorem unbias_bias {n : Nat} (pos : 0 < n) (lt : n < 2 ^ 64) : (bias n).unbias = n := by
  have back : (ofNat 64 n - intMin 64 + intMin 64).toNat = n := by
    rw [BitVec.sub_add_cancel, BitVec.toNat_ofNat, Nat.mod_eq_of_lt lt]
  have normal : ofNat 64 n - intMin 64 ≠ intMin 64 := by
    intro eq
    rw [eq] at back
    have zero : (intMin 64 + intMin 64).toNat = 0 := by decide
    omega
  unfold bias getToken unbias
  rw [dif_neg normal]
  exact back

end Murmur3Key

section Numbers

variable {n m : Nat}

/-- The first number of the `i`-th run, when `2 ^ (64 - m)` numbers are divided among `n` shards over and over -/
def firstNumber (n m i : Nat) : Nat := (i * 2 ^ (64 - m) + (n - 1)) / n

/-- The run that a number is in -/
def runOf (n m u : Nat) : Nat := u * n / 2 ^ (64 - m)

theorem two_pow_split (bits : m < 32) : 2 ^ 64 = 2 ^ (64 - m) * 2 ^ m := by
  rw [← Nat.pow_add, Nat.sub_add_cancel (by omega)]

/-- The shards take turns in the runs. -/
theorem zeroBasedShardOf_eq (bits : m < 32) (u : Nat) : zeroBasedShardOf u n m = runOf n m u % n := by
  have pos : 0 < 2 ^ (64 - m) := Nat.two_pow_pos _
  have whole : u * n / 2 ^ (64 - m) = u / 2 ^ (64 - m) * n + u % 2 ^ (64 - m) * n / 2 ^ (64 - m) := by
    conv_lhs => rw [← Nat.div_add_mod u (2 ^ (64 - m)), Nat.add_mul, Nat.mul_assoc]
    rw [Nat.mul_add_div pos]
  unfold zeroBasedShardOf runOf
  rw [Nat.shiftRight_eq_div_pow, Nat.shiftLeft_eq, two_pow_split bits, Nat.mul_mod_mul_right, Nat.mul_right_comm,
    Nat.mul_div_mul_right _ _ (Nat.two_pow_pos m), whole, Nat.mul_add_mod_self_right]
  rcases Nat.eq_zero_or_pos n with rfl | hn
  · simp
  · refine (Nat.mod_eq_of_lt (Nat.div_lt_of_lt_mul ?_)).symm
    exact Nat.mul_lt_mul_of_pos_right (Nat.mod_lt u pos) hn

theorem firstNumber_le_iff (pos : 0 < n) {i u : Nat} : firstNumber n m i ≤ u ↔ i ≤ runOf n m u := by
  unfold firstNumber runOf
  rw [Nat.div_le_iff_le_mul_add_pred pos, Nat.le_div_iff_mul_le (Nat.two_pow_pos _), Nat.mul_comm u n]
  omega

theorem runOf_firstNumber (pos : 0 < n) (fits : n ≤ 2 ^ (64 - m)) (i : Nat) : runOf n m (firstNumber n m i) = i := by
  refine Nat.le_antisymm ?_ ((firstNumber_le_iff pos).1 le_rfl)
  have le : firstNumber n m i * n ≤ i * 2 ^ (64 - m) + (n - 1) := Nat.div_mul_le_self _ _
  refine Nat.lt_succ_iff.1 ((Nat.div_lt_iff_lt_mul (Nat.two_pow_pos _)).2 ?_)
  rw [Nat.succ_mul]
  omega

theorem firstNumber_add (pos : 0 < n) (l s : Nat) : firstNumber n m (l * n + s) = l * 2 ^ (64 - m) + firstNumber n m s := by
  unfold firstNumber
  rw [Nat.add_mul, Nat.mul_comm l n, Nat.mul_assoc, Nat.add_assoc, Nat.mul_add_div pos]

theorem firstNumber_lt (pos : 0 < n) (fits : n ≤ 2 ^ (64 - m)) {s : Nat} (lt : s < n) : firstNumber n m s < 2 ^ (64 - m) := by
  by_contra far
  have := runOf_firstNumber pos fits s
  have beyond : n ≤ runOf n m (firstNumber n m s) := by
    unfold runOf
    rw [Nat.le_div_iff_mul_le (Nat.two_pow_pos _), Nat.mul_comm]
    exact Nat.mul_le_mul_right n (not_lt.1 far)
  omega

theorem firstNumber_pos (pos : 0 < n) {i : Nat} (hi : 0 < i) : 0 < firstNumber n m i := by
  by_contra zero
  have := (firstNumber_le_iff pos).1 (le_of_eq (Nat.eq_zero_of_not_pos zero))
  unfold runOf at this
  rw [Nat.zero_mul, Nat.zero_div] at this
  omega

/-- The search starts right at the first token of the shard or one before it. -/
theorem findShardStart_eq (bits : m < 32) (pos : 0 < n) (fits : n ≤ 2 ^ (64 - m)) {s rounds : Nat} (lt : s < n)
    (enough : 2 ≤ rounds) : findShardStart n m s rounds (((s <<< 64) / n) >>> m) = some (firstNumber n m s) := by
  have guess : ((s <<< 64) / n) >>> m = s * 2 ^ (64 - m) / n := by
    rw [Nat.shiftRight_eq_div_pow, Nat.shiftLeft_eq, two_pow_split bits, Nat.div_div_eq_div_mul, ← Nat.mul_assoc,
      Nat.mul_div_mul_right _ _ (Nat.two_pow_pos m)]
  have own : zeroBasedShardOf (firstNumber n m s) n m = s := by
    rw [zeroBasedShardOf_eq bits, runOf_firstNumber pos fits, Nat.mod_eq_of_lt lt]
  obtain ⟨rounds, rfl⟩ := Nat.exists_eq_add_of_le' enough
  rw [guess]
  have low : s * 2 ^ (64 - m) / n ≤ firstNumber n m s := Nat.div_le_div_right (Nat.le_add_right _ _)
  have high : firstNumber n m s ≤ s * 2 ^ (64 - m) / n + 1 := by
    unfold firstNumber
    rw [Nat.div_le_iff_le_mul_add_pred pos]
    have := Nat.lt_mul_div_succ (s * 2 ^ (64 - m)) pos
    omega
  rcases low.lt_or_eq with before | here
  · have here : firstNumber n m s = s * 2 ^ (64 - m) / n + 1 := by omega
    have other : zeroBasedShardOf (s * 2 ^ (64 - m) / n) n m ≠ s := by
      have short : runOf n m (s * 2 ^ (64 - m) / n) < s := not_le.1 fun le => absurd ((firstNumber_le_iff pos).2 le) (by omega)
      rw [zeroBasedShardOf_eq bits, Nat.mod_eq_of_lt (by omega)]
      omega
    have small : firstNumber n m s < 2 ^ 64 := (firstNumber_lt pos fits lt).trans_le (Nat.pow_le_pow_right (by omega) (by omega))
    rw [findShardStart, if_neg other, ← here, Nat.mod_eq_of_lt small, findShardStart, if_pos own]
  · rw [here, findShardStart, if_pos own]

end Numbers

namespace Murmur3Partitioner

/-- The table has the first numbers of the shards. -/
structure Sound (p : Murmur3Partitioner) : Prop where
  pos : 0 < p.shardCount
  bits : p.shardingIgnoreMsbBits < 32
  fits : p.shardCount ≤ 2 ^ (64 - p.shardingIgnoreMsbBits)
  single : p.shardCount = 1 → p.shardingIgnoreMsbBits = 0
  table : ∀ s < p.shardCount, p.shardStart.getD s 0 = firstNumber p.shardCount p.shardingIgnoreMsbBits s

theorem mapM_eq_some {α β : Type} {f : α → Option β} {g : α → β} {l : List α} (all : ∀ a ∈ l, f a = some (g a)) :
    l.mapM f = some (l.map g) := by
  induction l with
  | nil => rfl
  | cons a l ih =>
    obtain ⟨first, all⟩ := List.forall_mem_cons.1 all
    rw [List.mapM_cons, first, ih all]
    rfl

/-- The constructor ends and makes the table right. -/
theorem make_sound {n m rounds : Nat} (pos : 1 ≤ n) (bits : m < 32) (fits : n * n ≤ 2 ^ (64 - m)) (enough : 2 ≤ rounds) :
    ∃ p, make rounds n m = some p ∧ p.Sound ∧ p.shardCount = n := by
  unfold make initZeroBasedShardStart
  by_cases one : n = 1
  · subst one
    exact ⟨⟨1, 0, [0]⟩, rfl, ⟨Nat.one_pos, by decide, by decide, fun _ => rfl, by decide⟩, rfl⟩
  · have fits : n ≤ 2 ^ (64 - m) := (Nat.le_mul_of_pos_left n pos).trans fits
    have starts := mapM_eq_some fun s hs =>
      findShardStart_eq bits pos fits (List.mem_range.1 hs) enough
    have many : n > 1 := by omega
    rw [if_pos many]
    dsimp only
    rw [if_neg one, starts]
    refine ⟨⟨n, m, _⟩, rfl, ⟨pos, bits, fits, fun h => absurd h one, fun s hs => ?_⟩, rfl⟩
    simp [List.getD_eq_getElem?_getD, hs]

variable {p : Murmur3Partitioner}

/-- The number of runs -/
def runs (p : Murmur3Partitioner) : Nat := p.shardCount * 2 ^ p.shardingIgnoreMsbBits

/-- Where the `i`-th run starts -/
def runStart (p : Murmur3Partitioner) (i : Nat) : Token Murmur3Key :=
  if i = 0 then ⊥
  else if i < p.runs then keyToken (Murmur3Key.bias (firstNumber p.shardCount p.shardingIgnoreMsbBits i))
  else ⊤

/-- The run of a token -/
def runIndex (p : Murmur3Partitioner) : Token Murmur3Key → Nat
  | ⊥ => 0
  | WithBot.some ⊤ => p.runs - 1
  | WithBot.some (WithTop.some k) => runOf p.shardCount p.shardingIgnoreMsbBits k.unbias

variable (sound : p.Sound)
include sound

theorem Sound.runs_pos : 0 < p.runs := Nat.mul_pos sound.pos (Nat.two_pow_pos _)

theorem Sound.runOf_lt {u : Nat} (lt : u < 2 ^ 64) :
    runOf p.shardCount p.shardingIgnoreMsbBits u < p.runs := by
  unfold runOf runs
  refine Nat.div_lt_of_lt_mul ?_
  rw [Nat.mul_left_comm, ← two_pow_split sound.bits, Nat.mul_comm]
  exact Nat.mul_lt_mul_of_pos_left lt sound.pos

theorem Sound.firstNumber_lt {i : Nat} (lt : i < p.runs) :
    firstNumber p.shardCount p.shardingIgnoreMsbBits i < 2 ^ 64 := by
  have part := Dht.firstNumber_lt sound.pos sound.fits (Nat.mod_lt i sound.pos)
  have left : i / p.shardCount < 2 ^ p.shardingIgnoreMsbBits := Nat.div_lt_of_lt_mul lt
  rw [← Nat.div_add_mod' i p.shardCount, firstNumber_add sound.pos, two_pow_split sound.bits]
  calc i / p.shardCount * 2 ^ (64 - p.shardingIgnoreMsbBits) + firstNumber p.shardCount p.shardingIgnoreMsbBits (i % p.shardCount)
      < (i / p.shardCount + 1) * 2 ^ (64 - p.shardingIgnoreMsbBits) := by rw [Nat.succ_mul]; omega
    _ ≤ 2 ^ p.shardingIgnoreMsbBits * 2 ^ (64 - p.shardingIgnoreMsbBits) := Nat.mul_le_mul_right _ left
    _ = _ := Nat.mul_comm _ _

theorem Sound.unbias_start {i : Nat} (pos : 0 < i) (lt : i < p.runs) :
    (Murmur3Key.bias (firstNumber p.shardCount p.shardingIgnoreMsbBits i)).unbias =
      firstNumber p.shardCount p.shardingIgnoreMsbBits i :=
  Murmur3Key.unbias_bias (firstNumber_pos sound.pos pos) (sound.firstNumber_lt lt)

/-- The runs of the partitioner, by their numbers -/
def Sound.layout (sound : p.Sound) : p.toPartitioner.Layout where
  count := p.runs
  index := p.runIndex
  start := p.runStart
  shardCount_pos := sound.pos
  index_lt
    | ⊥ => sound.runs_pos
    | WithBot.some ⊤ => Nat.sub_lt sound.runs_pos Nat.one_pos
    | WithBot.some (WithTop.some k) => sound.runOf_lt k.unbias_lt
  start_le {x i} lt := by
    unfold runStart
    split_ifs with zero
    · exact iff_of_true bot_le (zero ▸ Nat.zero_le _)
    · rcases x with _ | _ | k
      · exact iff_of_false (fun le => absurd (le_bot_iff.1 le) nofun) (by change ¬ i ≤ 0; omega)
      · exact iff_of_true le_top (by change i ≤ p.runs - 1; omega)
      · change keyToken _ ≤ keyToken k ↔ _
        rw [keyToken, keyToken, WithBot.coe_le_coe, WithTop.coe_le_coe, Murmur3Key.le_iff,
          sound.unbias_start (by omega) lt, firstNumber_le_iff sound.pos]
        rfl
  index_start {i} lt := by
    unfold runStart
    split_ifs with zero
    · exact zero.symm
    · change runOf _ _ (Murmur3Key.unbias _) = i
      rw [sound.unbias_start (by omega) lt, runOf_firstNumber sound.pos sound.fits]
  start_eq_top {i} := by
    unfold runStart
    split_ifs with zero lt
    · exact iff_of_false bot_ne_top (by have := sound.runs_pos; omega)
    · exact iff_of_false nofun (by omega)
    · exact iff_of_true rfl (by omega)
  shardOf_eq
    | ⊥ => (Nat.zero_mod _).symm
    | WithBot.some ⊤ => by
      change p.shardCount - 1 = (p.runs - 1) % p.shardCount
      have pos := sound.pos
      obtain ⟨k, hk⟩ := Nat.exists_eq_succ_of_ne_zero (Nat.two_pow_pos p.shardingIgnoreMsbBits).ne'
      have split : p.runs - 1 = p.shardCount * k + (p.shardCount - 1) := by
        unfold runs
        rw [hk, Nat.mul_succ]
        omega
      rw [split, Nat.mul_add_mod, Nat.mod_eq_of_lt (by omega)]
    | WithBot.some (WithTop.some k) => zeroBasedShardOf_eq sound.bits k.unbias
  single one := by
    change p.shardCount = 1 at one
    unfold runs
    rw [one, sound.single one]
    rfl

/-- The spans to the left of the run that is looked for, when the search starts in run `i` -/
def leftSpans (n i s spans : Nat) : Nat := i / n + (spans - if s > i % n then 1 else 0)

theorem Sound.ahead_eq {i s spans : Nat} (lt : s < p.shardCount) (pos : 1 ≤ spans) :
    i + p.toPartitioner.gap i s + (spans - 1) * p.shardCount = leftSpans p.shardCount i s spans * p.shardCount + s := by
  obtain ⟨k, rfl⟩ := Nat.exists_eq_add_of_le' pos
  have below : i % p.shardCount < p.shardCount := Nat.mod_lt _ sound.pos
  have whole : i / p.shardCount * p.shardCount + i % p.shardCount = i := Nat.div_add_mod' i p.shardCount
  change i + ((s + p.shardCount - 1 - i % p.shardCount) % p.shardCount + 1) + (k + 1 - 1) * p.shardCount = _
  unfold leftSpans
  rw [Nat.add_sub_cancel, Nat.add_mul]
  split_ifs with later
  · rw [show s + p.shardCount - 1 - i % p.shardCount = s - 1 - i % p.shardCount + p.shardCount by omega,
      Nat.add_mod_right, Nat.mod_eq_of_lt (by omega), Nat.add_sub_cancel]
    omega
  · rw [Nat.mod_eq_of_lt (by omega), Nat.sub_zero, Nat.succ_mul]
    omega

/-- Where a run starts, by the spans to the left of it and its shard. -/
theorem Sound.runStart_eq {l s : Nat} (lt : s < p.shardCount) (pos : 0 < l * p.shardCount + s) :
    p.runStart (l * p.shardCount + s) = if l ≥ 2 ^ p.shardingIgnoreMsbBits then ⊤
      else keyToken (Murmur3Key.bias (l * 2 ^ (64 - p.shardingIgnoreMsbBits) + p.shardStart.getD s 0)) := by
  have inside : l * p.shardCount + s < p.runs ↔ l < 2 ^ p.shardingIgnoreMsbBits := by
    unfold runs
    rw [Nat.mul_comm p.shardCount]
    constructor
    · intro below
      by_contra far
      have := Nat.mul_le_mul_right p.shardCount (not_lt.1 far)
      omega
    · intro below
      have := Nat.mul_le_mul_right p.shardCount (Nat.succ_le_of_lt below)
      rw [Nat.succ_mul] at this
      omega
  unfold runStart
  rw [if_neg (by omega), sound.table s lt, firstNumber_add sound.pos]
  simp only [inside, ge_iff_le, ← not_lt, ite_not]

theorem Sound.tokenForNextShardFrom {u s spans : Nat} (small : u < 2 ^ 64) (lt : s < p.shardCount)
    (pos : 1 ≤ spans) : p.tokenForNextShardFrom u s spans =
      p.runStart (leftSpans p.shardCount (runOf p.shardCount p.shardingIgnoreMsbBits u) s spans * p.shardCount + s) := by
  have left : leftSpans p.shardCount (runOf p.shardCount p.shardingIgnoreMsbBits u) s spans =
      u / 2 ^ (64 - p.shardingIgnoreMsbBits) +
        (spans - if s > zeroBasedShardOf u p.shardCount p.shardingIgnoreMsbBits then 1 else 0) := by
    rw [leftSpans, ← zeroBasedShardOf_eq sound.bits, runOf, Nat.div_div_eq_div_mul, Nat.mul_div_mul_right _ _ sound.pos]
  have some : 0 < leftSpans p.shardCount (runOf p.shardCount p.shardingIgnoreMsbBits u) s spans * p.shardCount + s := by
    rw [left]
    split_ifs with later
    · omega
    · have more : 0 < u / 2 ^ (64 - p.shardingIgnoreMsbBits) + (spans - 0) := Nat.add_pos_right _ pos
      exact Nat.add_pos_left (Nat.mul_pos more sound.pos) _
  have right : p.shardStart.getD s 0 < 2 ^ (64 - p.shardingIgnoreMsbBits) := by
    rw [sound.table s lt]
    exact Dht.firstNumber_lt sound.pos sound.fits lt
  rw [sound.runStart_eq lt some, left]
  unfold Murmur3Partitioner.tokenForNextShardFrom
  dsimp only
  by_cases noBits : p.shardingIgnoreMsbBits = 0
  · -- there is one span, and the run is in it or nowhere
    rw [if_pos noBits, noBits, Nat.sub_zero, Nat.div_eq_of_lt small, Nat.zero_add, Nat.pow_zero]
    have outside : spans > 1 ∨ s ≤ zeroBasedShardOf u p.shardCount 0 ↔
        spans - (if s > zeroBasedShardOf u p.shardCount 0 then 1 else 0) ≥ 1 := by
      split_ifs <;> omega
    simp only [outside]
    generalize spans - (if s > zeroBasedShardOf u p.shardCount 0 then 1 else 0) = span
    split_ifs with far
    · rfl
    · rw [Nat.eq_zero_of_not_pos far, Nat.zero_mul, Nat.zero_add]
  · rw [if_neg noBits, Nat.shiftRight_eq_div_pow, Nat.one_shiftLeft, ← Nat.shiftLeft_add_eq_or_of_lt right, Nat.shiftLeft_eq]

theorem Sound.tokenForNextShard (t : Token Murmur3Key) {s spans : Nat} (lt : s < p.shardCount)
    (pos : 1 ≤ spans) : p.tokenForNextShard t s spans = p.runStart (sound.layout.ahead t s (spans - 1)) := by
  have ahead : sound.layout.ahead t s (spans - 1) = leftSpans p.shardCount (p.runIndex t) s spans * p.shardCount + s :=
    sound.ahead_eq lt pos
  rw [ahead]
  rcases t with _ | _ | k
  · have zero : p.runIndex ⊥ = runOf p.shardCount p.shardingIgnoreMsbBits 0 := by
      rw [runOf, Nat.zero_mul, Nat.zero_div]
      rfl
    exact (sound.tokenForNextShardFrom (Nat.two_pow_pos 64) lt pos).trans (by rw [← zero]; rfl)
  · refine (sound.layout.start_eq_top.2 ?_).symm
    rw [← ahead]
    change p.runs ≤ p.runs - 1 + ((_ % _) + 1) + _
    omega
  · exact sound.tokenForNextShardFrom k.unbias_lt lt pos

theorem Sound.inverts : p.toPartitioner.Inverts :=
  sound.layout.inverts fun t _ _ lt pos => sound.tokenForNextShard t lt pos

end Murmur3Partitioner

/-- `token_for_next_shard` of the murmur3 partitioner inverts its `shard_of`, whatever the number of shards and of
ignored bits. -/
theorem murmur3_next_shard_inverts {n m rounds : Nat} (pos : 1 ≤ n) (bits : m < 32) (fits : n * n ≤ 2 ^ (64 - m))
    (enough : 2 ≤ rounds) : ∃ p, Murmur3Partitioner.make rounds n m = some p ∧ p.shardCount = n ∧
      ∀ t s spans, s < n → 1 ≤ spans → p.toPartitioner.IsNextShard t s spans := by
  obtain ⟨p, made, sound, rfl⟩ := Murmur3Partitioner.make_sound pos bits fits enough
  exact ⟨p, made, rfl, sound.inverts.isNextShard⟩

/-- Three shards, with twelve bits ignored: the second run of shard 2 starts in the second span. -/
theorem murmur3_next_shard_three : ∃ p, Murmur3Partitioner.make 2 3 12 = some p ∧ p.toPartitioner.IsNextShard ⊥ 2 2 ∧
    p.tokenForNextShard ⊥ 2 2 = keyToken (Murmur3Key.bias (2 ^ 52 + (2 ^ 53 + 2) / 3)) := by
  obtain ⟨p, made, -, next⟩ := murmur3_next_shard_inverts (n := 3) (m := 12) (by decide) (by decide) (by decide) (le_refl 2)
  refine ⟨p, made, next ⊥ 2 2 (by decide) (by decide), ?_⟩
  cases made
  decide +kernel

end ScyllaMoon.Dht
