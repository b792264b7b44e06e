import Mathlib

/-!
# Partitioners

A partitioner gives every token to a shard. It is asked where the runs of consecutive tokens of a shard start:
`token_for_next_shard` says where the so-and-so-many-th run after a token does. When the shards take turns, the
runs can be numbered, and the answer is a matter of numbers: a `Layout` is such a numbering.
-/

namespace ScyllaMoon.Dht

open List Finset

variable {K : Type}

/-- `token`: before all keys, one that keys can have, or after all keys -/
abbrev Token (K : Type) := WithBot (WithTop K)

/-- A token of kind `key` -/
def keyToken (k : K) : Token K := ((k : WithTop K) : Token K)

/-- `i_partitioner`: how it divides the ring between the shards -/
structure Partitioner (K : Type) where
  shardCount : Nat
  shardOf : Token K → Nat
  tokenForNextShard : Token K → Nat → Nat → Token K

namespace Partitioner

variable [LinearOrder K] (p : Partitioner K)

/-- A run of consecutive tokens of the shard starts with the token. The run of the minimum token is left out: it
does not start after any token. -/
def RunStart (s : Nat) (b : Token K) : Prop :=
  p.shardOf b = s ∧ ∃ a < b, ∀ x, a ≤ x → x < b → p.shardOf x ≠ s

/-- `token_for_next_shard(t, s, spans)` is where the `spans`-th of the runs of the shard starts that start after `t`,
or the maximum token if there are fewer. -/
def IsNextShard (t : Token K) (s spans : Nat) : Prop :=
  (p.tokenForNextShard t s spans = ⊤ ↔ { b | p.RunStart s b ∧ t < b }.encard < spans) ∧
  (p.tokenForNextShard t s spans ≠ ⊤ → p.RunStart s (p.tokenForNextShard t s spans) ∧ t < p.tokenForNextShard t s spans ∧
    { b | p.RunStart s b ∧ t < b ∧ b ≤ p.tokenForNextShard t s spans }.encard = spans)

/-- `token_for_next_shard` inverts `shard_of`. -/
structure Inverts : Prop where
  shardOf_lt : ∀ t, p.shardOf t < p.shardCount
  isNextShard : ∀ t s spans, s < p.shardCount → 1 ≤ spans → p.IsNextShard t s spans

/-- The shards take turns: shard 0 has the minimum token, and the run of each shard is followed by one of the next,
finitely often. -/
structure TakesTurns : Prop where
  minimum : p.shardOf ⊥ = 0
  turn : ∀ t x, t ≤ x → p.shardOf x ≠ p.shardOf t → ∃ y, t < y ∧ y ≤ x ∧
    p.shardOf y = (p.shardOf t + 1) % p.shardCount ∧ ∀ z, t ≤ z → z < y → p.shardOf z = p.shardOf t
  finite : { b | ∃ s, p.RunStart s b }.Finite

/-- The runs of all shards, numbered from that of the minimum token on. Behind the last one comes the maximum token. -/
structure Layout where
  count : Nat
  index : Token K → Nat
  start : Nat → Token K
  shardCount_pos : 0 < p.shardCount
  index_lt : ∀ x, index x < count
  start_le : ∀ {x i}, i < count → (start i ≤ x ↔ i ≤ index x)
  index_start : ∀ {i}, i < count → index (start i) = i
  start_eq_top : ∀ {i}, start i = ⊤ ↔ count ≤ i
  shardOf_eq : ∀ x, p.shardOf x = index x % p.shardCount
  single : p.shardCount = 1 → count = 1

/-- How many runs there are from run `i` to the next one of the shard -/
def gap (i s : Nat) : Nat := (s + p.shardCount - 1 - i % p.shardCount) % p.shardCount + 1

section Gap

omit [LinearOrder K]

variable {p : Partitioner K} {i j s : Nat} (pos : 0 < p.shardCount)

include pos

theorem gap_le : p.gap i s ≤ p.shardCount := Nat.mod_lt _ pos

theorem add_gap_mod (lt : s < p.shardCount) : (i + p.gap i s) % p.shardCount = s := by
  have below : i % p.shardCount < p.shardCount := Nat.mod_lt _ pos
  have sum : i % p.shardCount + (1 + (s + p.shardCount - 1 - i % p.shardCount)) = s + p.shardCount := by omega
  calc (i + p.gap i s) % p.shardCount
      = (i + 1 + (s + p.shardCount - 1 - i % p.shardCount) % p.shardCount) % p.shardCount := by
        unfold gap
        rw [Nat.add_comm _ 1, Nat.add_assoc]
    _ = (i % p.shardCount + (1 + (s + p.shardCount - 1 - i % p.shardCount))) % p.shardCount := by
        rw [Nat.add_mod_mod, Nat.mod_add_mod, Nat.add_assoc]
    _ = s := by rw [sum, Nat.add_mod_right, Nat.mod_eq_of_lt lt]

/-- The runs of a shard come at regular distances. -/
theorem exists_eq_add_gap (lt : s < p.shardCount) (after : i < j) (own : j % p.shardCount = s) :
    ∃ k, j = i + p.gap i s + k * p.shardCount := by
  have first := add_gap_mod (i := i) pos lt
  have le := gap_le (i := i) (s := s) pos
  rcases Nat.lt_or_ge j (i + p.gap i s) with short | far
  · have dvd : p.shardCount ∣ i + p.gap i s - j := Nat.dvd_of_mod_eq_zero (Nat.sub_mod_eq_zero_of_mod_eq (first.trans own.symm))
    have := Nat.eq_zero_of_dvd_of_lt dvd (by omega)
    omega
  · obtain ⟨k, eq⟩ := Nat.dvd_of_mod_eq_zero (Nat.sub_mod_eq_zero_of_mod_eq (own.trans first.symm))
    exact ⟨k, by rw [Nat.mul_comm]; omega⟩

end Gap

namespace Layout

variable {p : Partitioner K} (layout : p.Layout) {i j : Nat} {s : Nat} {x y b t : Token K}

include layout

theorem start_index_le : layout.start (layout.index x) ≤ x := (layout.start_le (layout.index_lt x)).2 le_rfl

theorem index_mono (le : x ≤ y) : layout.index x ≤ layout.index y :=
  (layout.start_le (layout.index_lt x)).1 (layout.start_index_le.trans le)

theorem lt_of_index_lt (lt : layout.index x < layout.index y) : x < y :=
  not_le.1 fun le => absurd (layout.index_mono le) (not_le.2 lt)

theorem lt_start (lt : i < layout.count) : x < layout.start i ↔ layout.index x < i := by
  rw [← not_le, layout.start_le lt, not_le]

theorem index_lt_of_lt_start (lt : x < layout.start i) : layout.index x < i := by
  rcases Nat.lt_or_ge i layout.count with inside | outside
  · exact (layout.lt_start inside).1 lt
  · exact (layout.index_lt x).trans_le outside

theorem start_le_start (hi : i < layout.count) (hj : j < layout.count) : layout.start i ≤ layout.start j ↔ i ≤ j := by
  rw [layout.start_le hi, layout.index_start hj]

theorem start_zero : layout.start 0 = ⊥ := by
  have pos : 0 < layout.count := Nat.zero_lt_of_lt (layout.index_lt ⊥)
  exact le_bot_iff.1 ((layout.start_le pos).2 (Nat.zero_le _))

theorem index_eq (start : layout.start i ≤ x) (stop : x < layout.start (i + 1)) : layout.index x = i := by
  have lt : i < layout.count := by
    by_contra outside
    rw [layout.start_eq_top.2 (not_lt.1 outside)] at start
    exact absurd stop (not_lt.2 (le_top.trans start))
  have := layout.index_lt_of_lt_start stop
  have := (layout.start_le lt).1 start
  omega

/-- The runs start with the tokens that the layout has. -/
theorem runStart_iff : p.RunStart s b ↔ ∃ i, 1 ≤ i ∧ i < layout.count ∧ b = layout.start i ∧ i % p.shardCount = s := by
  constructor
  · rintro ⟨own, a, before, others⟩
    have eq : b = layout.start (layout.index b) := by
      refine (layout.start_index_le.antisymm (le_of_not_gt fun lt => ?_)).symm
      -- the token before would belong to the shard as well
      have low : layout.start (layout.index b) ≤ max a (layout.start (layout.index b)) := le_max_right _ _
      have high : max a (layout.start (layout.index b)) < b := max_lt before lt
      have same : layout.index (max a (layout.start (layout.index b))) = layout.index b := by
        refine (layout.index_mono high.le).antisymm ((layout.start_le (layout.index_lt b)).1 low)
      refine others _ (le_max_left _ _) high ?_
      rw [layout.shardOf_eq, same, ← layout.shardOf_eq, own]
    refine ⟨layout.index b, Nat.pos_of_ne_zero fun zero => ?_, layout.index_lt b, eq, by rw [← layout.shardOf_eq, own]⟩
    rw [zero, layout.start_zero] at eq
    exact absurd (eq ▸ before) not_lt_bot
  · rintro ⟨i, pos, lt, rfl, own⟩
    refine ⟨by rw [layout.shardOf_eq, layout.index_start lt, own], layout.start (i - 1), ?_, fun x start stop => ?_⟩
    · exact lt_of_not_ge fun le => absurd ((layout.start_le_start lt (by omega)).1 le) (by omega)
    · have before : layout.index x = i - 1 := layout.index_eq start (by rwa [Nat.sub_add_cancel pos])
      rw [layout.shardOf_eq, before, ← own]
      intro same
      have dvd := Nat.sub_mod_eq_zero_of_mod_eq same.symm
      rw [Nat.sub_sub_self pos] at dvd
      have one : p.shardCount = 1 := Nat.dvd_one.1 (Nat.dvd_of_mod_eq_zero dvd)
      have := layout.single one
      omega

/-- The number of the `k`-th run of the shard after the token, where the first one is counted as zero -/
def ahead (t : Token K) (s k : Nat) : Nat := layout.index t + p.gap (layout.index t) s + k * p.shardCount

theorem ahead_lt_ahead {k l : Nat} : layout.ahead t s k ≤ layout.ahead t s l ↔ k ≤ l := by
  unfold ahead
  rw [Nat.add_le_add_iff_left]
  exact Nat.mul_le_mul_right_iff layout.shardCount_pos

theorem runs_after (lt : s < p.shardCount) : p.RunStart s b ∧ t < b ↔
    ∃ k, layout.ahead t s k < layout.count ∧ b = layout.start (layout.ahead t s k) := by
  rw [layout.runStart_iff]
  constructor
  · rintro ⟨⟨i, -, inside, rfl, own⟩, after⟩
    obtain ⟨k, eq⟩ := exists_eq_add_gap layout.shardCount_pos lt ((layout.lt_start inside).1 after) own
    subst eq
    exact ⟨k, inside, rfl⟩
  · rintro ⟨k, inside, rfl⟩
    refine ⟨⟨_, ?_, inside, rfl, ?_⟩, (layout.lt_start inside).2 ?_⟩
    · unfold ahead gap
      omega
    · unfold ahead
      rw [Nat.add_mul_mod_self_right]
      exact add_gap_mod layout.shardCount_pos lt
    · unfold ahead gap
      omega

theorem encard_image {ks : Set Nat} (inside : ∀ k ∈ ks, layout.ahead t s k < layout.count) :
    ((fun k => layout.start (layout.ahead t s k)) '' ks).encard = ks.encard := by
  refine Set.InjOn.encard_image fun k hk l hl eq => ?_
  have le := (layout.start_le_start (inside k hk) (inside l hl)).1 (le_of_eq eq)
  have ge := (layout.start_le_start (inside l hl) (inside k hk)).1 (ge_of_eq eq)
  exact (layout.ahead_lt_ahead.1 le).antisymm (layout.ahead_lt_ahead.1 ge)

omit layout [LinearOrder K] in
theorem encard_lt (k : Nat) : { l : Nat | l < k }.encard = k := by
  rw [show { l : Nat | l < k } = (Finset.range k) by ext l; simp, Set.encard_coe_eq_coe_finsetCard, Finset.card_range]

/-- The maximum token comes out exactly when the ring has too few runs left. -/
theorem encard_after_lt (lt : s < p.shardCount) {spans : Nat} (pos : 1 ≤ spans) :
    { b | p.RunStart s b ∧ t < b }.encard < spans ↔ layout.count ≤ layout.ahead t s (spans - 1) := by
  have eq : { b | p.RunStart s b ∧ t < b } =
      (fun k => layout.start (layout.ahead t s k)) '' { k | layout.ahead t s k < layout.count } := by
    ext b
    simp only [Set.mem_ofPred_eq, layout.runs_after lt, Set.mem_image, eq_comm]
  have inside : ∀ k ∈ { k | layout.ahead t s k < layout.count }, layout.ahead t s k < layout.count := fun k hk => hk
  rw [eq, layout.encard_image inside]
  constructor
  · intro few
    by_contra inside
    rw [not_le] at inside
    have all : { k : Nat | k < spans } ⊆ { k | layout.ahead t s k < layout.count } := fun k (hk : k < spans) =>
      lt_of_le_of_lt (layout.ahead_lt_ahead.2 (by omega)) inside
    have le := Set.encard_le_encard all
    rw [encard_lt] at le
    exact absurd few (not_lt.2 le)
  · intro outside
    have all : { k | layout.ahead t s k < layout.count } ⊆ { k : Nat | k < spans - 1 } := by
      intro k hk
      by_contra far
      exact absurd (hk.trans_le outside) (not_lt.2 (layout.ahead_lt_ahead.2 (not_lt.1 far)))
    have le := Set.encard_le_encard all
    rw [encard_lt] at le
    refine lt_of_le_of_lt le ?_
    exact_mod_cast Nat.sub_lt pos Nat.one_pos

theorem encard_upto (lt : s < p.shardCount) {k : Nat} (inside : layout.ahead t s k < layout.count) :
    { b | p.RunStart s b ∧ t < b ∧ b ≤ layout.start (layout.ahead t s k) }.encard = (k + 1 : Nat) := by
  have eq : { b | p.RunStart s b ∧ t < b ∧ b ≤ layout.start (layout.ahead t s k) } =
      (fun l => layout.start (layout.ahead t s l)) '' { l | l < k + 1 } := by
    ext b
    simp only [Set.mem_ofPred_eq, ← and_assoc, layout.runs_after lt, Set.mem_image]
    constructor
    · rintro ⟨⟨l, hl, rfl⟩, le⟩
      exact ⟨l, Nat.lt_succ_of_le (layout.ahead_lt_ahead.1 ((layout.start_le_start hl inside).1 le)), rfl⟩
    · rintro ⟨l, hl, rfl⟩
      have le := layout.ahead_lt_ahead (t := t) (s := s) |>.2 (Nat.le_of_lt_succ hl)
      have hl' := lt_of_le_of_lt le inside
      exact ⟨⟨l, hl', rfl⟩, (layout.start_le_start hl' inside).2 le⟩
  rw [eq, layout.encard_image, encard_lt]
  intro l hl
  exact lt_of_le_of_lt (layout.ahead_lt_ahead.2 (Nat.le_of_lt_succ hl)) inside

/-- Where the next runs start, by their numbers. -/
theorem isNextShard_iff (lt : s < p.shardCount) {spans : Nat} (pos : 1 ≤ spans) :
    p.IsNextShard t s spans ↔ p.tokenForNextShard t s spans = layout.start (layout.ahead t s (spans - 1)) := by
  unfold IsNextShard
  rw [layout.encard_after_lt lt pos]
  constructor
  · rintro ⟨max, next⟩
    by_cases top : p.tokenForNextShard t s spans = ⊤
    · rw [top, layout.start_eq_top.2 (max.1 top)]
    · obtain ⟨run, after, card⟩ := next top
      obtain ⟨k, inside, eq⟩ := (layout.runs_after lt).1 ⟨run, after⟩
      rw [eq] at card ⊢
      rw [layout.encard_upto lt inside] at card
      have card : k + 1 = spans := by exact_mod_cast card
      rw [← card, Nat.add_sub_cancel]
  · intro eq
    rw [eq, layout.start_eq_top]
    refine ⟨.rfl, fun inside => ?_⟩
    rw [ne_eq, layout.start_eq_top, not_le] at inside
    have run := (layout.runs_after lt).2 ⟨_, inside, rfl⟩
    refine ⟨run.1, run.2, ?_⟩
    rw [layout.encard_upto lt inside, Nat.sub_add_cancel pos]

/-- A partitioner inverts when it goes by the numbers of the runs. -/
theorem inverts (next : ∀ t s spans, s < p.shardCount → 1 ≤ spans →
    p.tokenForNextShard t s spans = layout.start (layout.ahead t s (spans - 1))) : p.Inverts where
  shardOf_lt t := layout.shardOf_eq t ▸ Nat.mod_lt _ layout.shardCount_pos
  isNextShard t s spans lt pos := (layout.isNextShard_iff lt pos).2 (next t s spans lt pos)

/-- The shards of runs that can be numbered take turns. -/
theorem takesTurns : p.TakesTurns where
  minimum := by
    have index := layout.index_start (Nat.zero_lt_of_lt (layout.index_lt ⊥))
    rw [layout.start_zero] at index
    rw [layout.shardOf_eq, index, Nat.zero_mod]
  turn t x le ne := by
    have after : layout.index t < layout.index x :=
      lt_of_le_of_ne (layout.index_mono le) fun eq => ne (by rw [layout.shardOf_eq, layout.shardOf_eq, eq])
    have inside : layout.index t + 1 < layout.count := lt_of_le_of_lt after (layout.index_lt x)
    refine ⟨layout.start (layout.index t + 1), (layout.lt_start inside).2 (Nat.lt_succ_self _), (layout.start_le inside).2 after,
      ?_, fun z low high => ?_⟩
    · rw [layout.shardOf_eq, layout.index_start inside, layout.shardOf_eq, Nat.mod_add_mod]
    · rw [layout.shardOf_eq, layout.index_eq (layout.start_index_le.trans low) high, ← layout.shardOf_eq]
  finite := by
    refine ((Set.finite_lt_nat layout.count).image layout.start).subset ?_
    rintro b ⟨s, run⟩
    obtain ⟨i, -, lt, rfl, -⟩ := layout.runStart_iff.1 run
    exact ⟨i, lt, rfl⟩

end Layout

section Existence

variable {p : Partitioner K} {i : Nat} {s : Nat} {x b : Token K}

omit [LinearOrder K] in
/-- In a sorted list, so many elements are at most `x`. -/
theorem getElem_le_iff {α : Type} [LinearOrder α] {l : List α} (sorted : l.Pairwise (· < ·)) {i : Nat} (lt : i < l.length)
    (x : α) : l[i] ≤ x ↔ i < l.countP fun a => decide (a ≤ x) := by
  induction l generalizing i with
  | nil => cases lt
  | cons a l ih =>
    obtain ⟨first, sorted⟩ := pairwise_cons.1 sorted
    by_cases le : a ≤ x
    · rw [countP_cons_of_pos (by simpa using le)]
      cases i with
      | zero => simp [le]
      | succ i => simpa using ih sorted (Nat.lt_of_succ_lt_succ lt)
    · have none : l.countP (fun a => decide (a ≤ x)) = 0 :=
        countP_eq_zero.2 fun c hc => by simpa using (not_le.1 le).trans (first c hc)
      rw [countP_cons_of_neg (by simpa using le), none]
      refine iff_of_false (fun le' => le ?_) (Nat.not_lt_zero i)
      cases i with
      | zero => exact le'
      | succ i => exact (first _ (getElem_mem _)).le.trans le'

/-- The maximum token is no start of a run, because it could not be told from the end. -/
theorem Inverts.not_runStart_top (inverts : p.Inverts) (finite : { b | ∃ s, p.RunStart s b }.Finite) : ¬ p.RunStart s ⊤ := by
  intro run
  have lt : s < p.shardCount := run.1 ▸ inverts.shardOf_lt ⊤
  have mem : ⊤ ∈ { b | p.RunStart s b ∧ ⊥ < b } := ⟨run, bot_lt_top⟩
  have fin : { b | p.RunStart s b ∧ ⊥ < b }.Finite := finite.subset fun b hb => ⟨s, hb.1⟩
  obtain ⟨c, hc⟩ := fin.exists_encard_eq_coe
  have pos : 1 ≤ c := by
    have := Set.encard_pos.2 ⟨⊤, mem⟩
    rw [hc] at this
    exact_mod_cast this
  obtain ⟨max, next⟩ := inverts.isNextShard ⊥ s c lt pos
  rw [hc] at max
  have inner : p.tokenForNextShard ⊥ s c ≠ ⊤ := fun top => lt_irrefl _ (max.1 top)
  obtain ⟨-, -, card⟩ := next inner
  have sub : { b | p.RunStart s b ∧ ⊥ < b ∧ b ≤ p.tokenForNextShard ⊥ s c } ⊆ { b | p.RunStart s b ∧ ⊥ < b } :=
    fun b hb => ⟨hb.1, hb.2.1⟩
  have eq := (fin.subset sub).eq_of_subset_of_encard_le sub (by rw [hc, card])
  rw [← eq] at mem
  exact inner (top_le_iff.1 mem.2.2)

/-- Behind a run comes one of another shard. -/
theorem TakesTurns.exists_runStart (turns : p.TakesTurns) (inverts : p.Inverts) {t : Token K} (le : t ≤ x)
    (ne : p.shardOf x ≠ p.shardOf t) : ∃ y, t < y ∧ y ≤ x ∧ p.shardOf y = (p.shardOf t + 1) % p.shardCount ∧
      p.RunStart (p.shardOf y) y := by
  obtain ⟨y, after, upto, shard, same⟩ := turns.turn t x le ne
  refine ⟨y, after, upto, shard, rfl, t, after, fun z low high => ?_⟩
  rw [same z low high, shard]
  have ht := inverts.shardOf_lt t
  have hx := inverts.shardOf_lt x
  intro eq
  rcases Nat.lt_or_ge (p.shardOf t + 1) p.shardCount with inner | last
  · rw [Nat.mod_eq_of_lt inner] at eq
    omega
  · rw [show p.shardOf t + 1 = p.shardCount by omega, Nat.mod_self] at eq
    omega

namespace TakesTurns

variable (turns : p.TakesTurns) {j : Nat}

/-- Where the runs start, in order -/
noncomputable def runs : List (Token K) := ⊥ :: turns.finite.toFinset.sort

/-- The number of the run that a token is in -/
noncomputable def index (x : Token K) : Nat := turns.runs.countP (fun a => decide (a ≤ x)) - 1

noncomputable def start (i : Nat) : Token K := turns.runs.getD i ⊤

theorem mem_runs : b ∈ turns.runs ↔ b = ⊥ ∨ ∃ s, p.RunStart s b := by simp [runs]

theorem sorted_runs : turns.runs.Pairwise (· < ·) := by
  refine pairwise_cons.2 ⟨fun b hb => ?_, turns.finite.toFinset.sortedLT_sort.pairwise⟩
  obtain ⟨s, -, a, before, -⟩ : ∃ s, p.RunStart s b := by simpa using hb
  exact bot_le.trans_lt before

theorem countP_runs : turns.runs.countP (fun a => decide (a ≤ x)) = turns.index x + 1 := by
  have : 0 < turns.runs.countP fun a => decide (a ≤ x) := countP_pos_iff.2 ⟨⊥, mem_cons_self, by simp⟩
  exact (Nat.sub_add_cancel this).symm

theorem index_lt : turns.index x < turns.runs.length := by
  have := countP_le_length (l := turns.runs) (p := fun a => decide (a ≤ x))
  rwa [countP_runs] at this

section Starts

variable (lt : i < turns.runs.length)

include lt

theorem start_eq : turns.start i = turns.runs[i] := getD_eq_getElem _ _ lt

theorem start_le_iff : turns.start i ≤ x ↔ i ≤ turns.index x := by
  rw [turns.start_eq lt, getElem_le_iff turns.sorted_runs lt, countP_runs, Nat.lt_succ_iff]

theorem start_lt (before : j < i) : turns.start j < turns.start i := by
  rw [turns.start_eq (before.trans lt), turns.start_eq lt]
  exact pairwise_iff_getElem.1 turns.sorted_runs _ _ _ _ before

theorem index_start : turns.index (turns.start i) = i := by
  refine Nat.le_antisymm (not_lt.1 fun far => ?_) ((turns.start_le_iff lt).1 le_rfl)
  exact absurd (turns.start_lt turns.index_lt far) ((turns.start_le_iff turns.index_lt).2 le_rfl).not_gt

/-- Behind the start of a run, no other one starts in it. -/
theorem notMem_runs (after : turns.start i < b) (upto : turns.index b ≤ i) : b ∉ turns.runs := by
  intro mem
  obtain ⟨j, hj, rfl⟩ := getElem_of_mem mem
  rw [← turns.start_eq hj] at after upto
  rw [turns.index_start hj] at upto
  rcases upto.lt_or_eq with before | rfl
  · exact lt_asymm after (turns.start_lt lt before)
  · exact lt_irrefl _ after

theorem runStart_start (first : i ≠ 0) : ∃ s, p.RunStart s (turns.start i) := by
  refine (turns.mem_runs.1 (turns.start_eq lt ▸ getElem_mem lt)).resolve_left fun bot => ?_
  exact not_lt_bot (bot ▸ turns.start_lt lt (Nat.pos_of_ne_zero first))

end Starts

variable (inverts : p.Inverts)

include inverts

theorem shardOf_start_index (x : Token K) : p.shardOf x = p.shardOf (turns.start (turns.index x)) := by
  by_contra ne
  obtain ⟨y, after, upto, -, run⟩ := turns.exists_runStart inverts ((turns.start_le_iff turns.index_lt).2 le_rfl) ne
  have le : turns.index y ≤ turns.index x :=
    (turns.start_le_iff turns.index_lt).1 (((turns.start_le_iff turns.index_lt).2 le_rfl).trans upto)
  exact turns.notMem_runs turns.index_lt after le (turns.mem_runs.2 (.inr ⟨_, run⟩))

theorem shardOf_start (lt : i < turns.runs.length) : p.shardOf (turns.start i) = i % p.shardCount := by
  induction i with
  | zero => exact turns.minimum.trans (Nat.zero_mod _).symm
  | succ i ih =>
    have ih := ih (by omega)
    have before := turns.start_lt lt (Nat.lt_succ_self i)
    have inside {y} (after : turns.start i < y) (upto : y < turns.start (i + 1)) : y ∉ turns.runs := by
      rw [← not_le, turns.start_le_iff lt, not_le] at upto
      exact turns.notMem_runs (by omega) after (Nat.lt_succ_iff.1 upto)
    by_cases ne : p.shardOf (turns.start (i + 1)) = p.shardOf (turns.start i)
    · -- then a run of another shard would lie between
      exfalso
      obtain ⟨s, own, a, ha, others⟩ := turns.runStart_start lt i.succ_ne_zero
      have high : max a (turns.start i) < turns.start (i + 1) := max_lt ha before
      obtain ⟨y, after, upto, -, run⟩ := turns.exists_runStart inverts (le_max_right a (turns.start i))
        fun eq => others _ (le_max_left _ _) high (by rw [eq, ← ne, own])
      exact inside after (upto.trans_lt high) (turns.mem_runs.2 (.inr ⟨_, run⟩))
    · obtain ⟨y, after, upto, next, run⟩ := turns.exists_runStart inverts before.le ne
      rcases upto.lt_or_eq with upto | rfl
      · exact absurd (turns.mem_runs.2 (.inr ⟨_, run⟩)) (inside after upto)
      · rw [next, ih, Nat.mod_add_mod]

include turns in
/-- When the shards take turns, their runs can be numbered. -/
theorem exists_layout : Nonempty p.Layout := ⟨{
  count := turns.runs.length
  index := turns.index
  start := turns.start
  shardCount_pos := Nat.zero_lt_of_lt (inverts.shardOf_lt ⊥)
  index_lt := fun _ => turns.index_lt
  start_le := turns.start_le_iff
  index_start := turns.index_start
  start_eq_top := fun {i} => by
    rcases Nat.lt_or_ge i turns.runs.length with inside | outside
    · refine iff_of_false (fun top => ?_) (not_le.2 inside)
      by_cases first : i = 0
      · subst first
        exact bot_ne_top top
      · obtain ⟨s, run⟩ := turns.runStart_start inside first
        exact inverts.not_runStart_top turns.finite (top ▸ run)
    · exact iff_of_true (getD_eq_default _ _ outside) outside
  shardOf_eq := fun x => (turns.shardOf_start_index inverts x).trans (turns.shardOf_start inverts turns.index_lt)
  single := fun one => by
    by_contra more
    have lt : 1 < turns.runs.length := by
      have := turns.index_lt (x := ⊥)
      omega
    obtain ⟨s, own, a, ha, others⟩ := turns.runStart_start lt Nat.one_ne_zero
    have h := inverts.shardOf_lt a
    have h' := inverts.shardOf_lt (turns.start 1)
    exact others a le_rfl ha (by omega) }⟩

end TakesTurns

end Existence

section Few

variable [Fintype (Token K)] {p : Partitioner K} {t : Token K} {s spans : Nat}

instance : DecidablePred (p.RunStart s) := fun b =>
  inferInstanceAs (Decidable (_ ∧ ∃ a, a < b ∧ ∀ x, a ≤ x → x < b → p.shardOf x ≠ s))

omit [LinearOrder K] in
theorem encard_eq_card (q : Token K → Prop) [DecidablePred q] : { b | q b }.encard = (univ.filter q).card := by
  rw [← Set.encard_coe_eq_coe_finsetCard, coe_filter_univ]

theorem isNextShard_iff_card : p.IsNextShard t s spans ↔
    (p.tokenForNextShard t s spans = ⊤ ↔ (univ.filter fun b => p.RunStart s b ∧ t < b).card < spans) ∧
    (p.tokenForNextShard t s spans ≠ ⊤ → p.RunStart s (p.tokenForNextShard t s spans) ∧ t < p.tokenForNextShard t s spans ∧
      (univ.filter fun b => p.RunStart s b ∧ t < b ∧ b ≤ p.tokenForNextShard t s spans).card = spans) := by
  unfold IsNextShard
  rw [encard_eq_card, encard_eq_card]
  norm_cast

instance : Decidable (p.IsNextShard t s spans) := decidable_of_iff' _ isNextShard_iff_card

/-- On a ring with few runs, `token_for_next_shard` can be looked at. -/
theorem inverts_of_few (bound : Nat) (shards : ∀ t, p.shardOf t < p.shardCount)
    (near : ∀ s < p.shardCount, ∀ spans < bound, ∀ t, p.IsNextShard t s (spans + 1))
    (few : ∀ s < p.shardCount, (univ.filter (p.RunStart s)).card ≤ bound)
    (far : ∀ t s spans, bound < spans → p.tokenForNextShard t s spans = ⊤) : p.Inverts := by
  refine ⟨shards, fun t s spans lt pos => ?_⟩
  rcases Nat.lt_or_ge bound spans with big | small
  · rw [isNextShard_iff_card, far t s spans big]
    have sub : (univ.filter fun b => p.RunStart s b ∧ t < b) ⊆ univ.filter (p.RunStart s) :=
      monotone_filter_right _ fun b _ h => h.1
    exact ⟨iff_of_true rfl (((card_le_card sub).trans (few s lt)).trans_lt big), absurd rfl⟩
  · exact Nat.sub_add_cancel pos ▸ near s lt (spans - 1) (by omega) t

end Few

/-- Three shards, of which the last one comes before the second. -/
def outOfTurn : Partitioner (Fin 2) where
  shardCount := 3
  shardOf t := if t < keyToken 0 then 0 else if t < keyToken 1 then 2 else 1
  tokenForNextShard t s spans :=
    if spans = 1 ∧ s = 2 ∧ t < keyToken 0 then keyToken 0
    else if spans = 1 ∧ s = 1 ∧ t < keyToken 1 then keyToken 1 else ⊤

theorem outOfTurn_inverts : outOfTurn.Inverts := by
  refine inverts_of_few 1 (by decide) (by decide +kernel) (by decide +kernel) fun t s spans many => ?_
  simp [outOfTurn, Nat.ne_of_gt many]

/-- Two shards, of which the second one has the minimum token. -/
def secondFirst : Partitioner (Fin 3) where
  shardCount := 2
  shardOf t := if keyToken 1 ≤ t ∧ t < keyToken 2 then 0 else 1
  tokenForNextShard t s spans :=
    if spans = 1 ∧ s = 0 ∧ t < keyToken 1 then keyToken 1
    else if spans = 1 ∧ s = 1 ∧ t < keyToken 2 then keyToken 2 else ⊤

theorem secondFirst_inverts : secondFirst.Inverts := by
  refine inverts_of_few 1 (by decide) (by decide +kernel) (by decide +kernel) fun t s spans many => ?_
  simp [secondFirst, Nat.ne_of_gt many]

end Partitioner

end ScyllaMoon.Dht
