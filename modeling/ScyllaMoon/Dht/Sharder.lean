import ScyllaMoon.Dht.Murmur3
import ScyllaMoon.Dht.Range

/-!
# Splitting ranges by shard

`ring_position_range_sharder` cuts a range where the runs of the shards start. `split_range_to_single_shard` and
`selective_token_range_sharder` look for the parts of a range that belong to one shard; the first one does it for
ranges of ring positions, the other one for ranges of tokens.
-/

namespace ScyllaMoon.Dht

open NonwrappingRange

variable {K P α : Type}

/-- `ring_position`: a token and a place among the keys with that token, which is before all of them, at one, or
after all of them -/
abbrev RingPosition (K P : Type) := Token K ×ₗ WithBot (WithTop P)

/-- A key with its token -/
def decoratedKey (k : K) (key : P) : RingPosition K P := toLex (keyToken k, ((key : WithTop P) : WithBot (WithTop P)))

/-- Positions with tokens: those of a token come together, and `starting_at` is the first of them. -/
structure Positions (K α : Type) [LinearOrder K] [LinearOrder α] where
  token : α → Token K
  startingAt : Token K → α
  startingAt_le : ∀ {t x}, startingAt t ≤ x ↔ t ≤ token x
  token_startingAt : ∀ t, token (startingAt t) = t

/-- The positions of `ring_position` -/
def Positions.ring [LinearOrder K] [LinearOrder P] : Positions K (RingPosition K P) where
  token x := (ofLex x).1
  startingAt t := toLex (t, ⊥)
  startingAt_le {t x} := by
    rw [Prod.Lex.le_iff]
    exact ⟨fun h => h.elim le_of_lt fun h => le_of_eq h.1, fun h => h.lt_or_eq.imp_right fun eq => ⟨eq, bot_le⟩⟩
  token_startingAt _ := rfl

/-- Tokens as positions -/
def Positions.tokens [LinearOrder K] : Positions K (Token K) := ⟨id, id, .rfl, fun _ => rfl⟩

/-- Asked again and again, something yields these values and then nothing. -/
inductive Yields {S A : Type} (next : S → Option (Option A × S)) : S → List A → Prop where
  | done {s s' : S} : next s = some (none, s') → Yields next s []
  | more {s s' : S} {a : A} {as : List A} : next s = some (some a, s') → Yields next s' as → Yields next s (a :: as)

theorem Yields.of_fst_none {S A : Type} {next : S → Option A × S} {s : S} (none : (next s).1 = none) :
    Yields (fun s => some (next s)) s [] :=
  .done (congrArg some (Prod.ext none rfl))

variable [LinearOrder K] [LinearOrder α]

namespace NonwrappingRange

/-- The token where the range starts -/
def startToken (pos : Positions K α) (r : NonwrappingRange α) : Token K := r.start.elim ⊥ fun b => pos.token b.value

end NonwrappingRange

variable (p : Partitioner K)

/-- The shard after this one -/
def Partitioner.nextShard (shard : Nat) : Nat := if shard + 1 < p.shardCount then shard + 1 else 0

/-- `ring_position_range_sharder` -/
structure RingPositionRangeSharder (α : Type) where
  range : NonwrappingRange α
  done : Bool := false

variable (pos : Positions K α)

/-- `ring_position_range_sharder::next` -/
def RingPositionRangeSharder.next (s : RingPositionRangeSharder α) :
    Option (NonwrappingRange α × Nat) × RingPositionRangeSharder α :=
  if s.done then (none, s)
  else
    -- `shard_of_minimum_token` is zero
    let shard := s.range.start.elim 0 fun b => p.shardOf (pos.token b.value)
    let boundaryToken := p.tokenForNextShard (s.range.startToken pos) (p.nextShard shard) 1
    let boundary := pos.startingAt boundaryToken
    if (s.range.stop.all fun e => decide (boundary < e.value)) ∧ boundaryToken ≠ ⊤ then
      (some ({ start := s.range.start, last := some ⟨boundary, false⟩ }, shard),
        { range := { start := some ⟨boundary, true⟩, last := s.range.stop } })
    else (some (s.range, shard), { s with done := true })

/-- The state of the loops that look for the parts of one shard -/
structure SingleShardLoop (K α : Type) where
  startToken : Token K
  startBoundary : Option (RangeBound α)

namespace SingleShardLoop

/-- How `split_range_to_single_shard` and `selective_token_range_sharder` start -/
def init (range : NonwrappingRange α) (shard : Nat) : SingleShardLoop K α where
  startToken := range.startToken pos
  startBoundary :=
    if p.shardOf (range.startToken pos) = shard then range.start
    else some ⟨pos.startingAt (p.tokenForNextShard (range.startToken pos) shard 1), true⟩

/-- The loop of both: one round, and the part of the range that it finds -/
def round (range : NonwrappingRange α) (shard : Nat) (s : SingleShardLoop K α) :
    Option (Option (NonwrappingRange α) × SingleShardLoop K α) :=
  if range.overlaps { start := s.startBoundary } ∧ ¬ (s.startBoundary.any fun b => decide (pos.token b.value = ⊤)) then
    let endToken := p.tokenForNextShard s.startToken (p.nextShard shard) 1
    let candidate := { start := s.startBoundary, last := some ⟨pos.startingAt endToken, false⟩ }
    let startToken := p.tokenForNextShard endToken shard 1
    some (range.intersection candidate, { startToken := startToken, startBoundary := some ⟨pos.startingAt startToken, true⟩ })
  else none

/-- The loop of `split_range_to_single_shard`. `none` means that it has not ended within so many rounds. -/
def split (p : Partitioner K) (pos : Positions K α) (range : NonwrappingRange α) (shard : Nat) :
    Nat → SingleShardLoop K α → Option (List (NonwrappingRange α))
  | 0, _ => none
  | rounds + 1, s => match s.round p pos range shard with
    | none => some []
    | some (part, s') => (split p pos range shard rounds s').map (part.toList ++ ·)

end SingleShardLoop

/-- `split_range_to_single_shard` -/
def splitRangeToSingleShard (rounds : Nat) (p : Partitioner K) (pos : Positions K α) (range : NonwrappingRange α) (shard : Nat) :
    Option (List (NonwrappingRange α)) :=
  (SingleShardLoop.init p pos range shard).split p pos range shard rounds

/-- `selective_token_range_sharder` -/
structure SelectiveTokenRangeSharder (K α : Type) where
  loop : SingleShardLoop K α
  done : Bool := false

namespace SelectiveTokenRangeSharder

/-- The loop of `selective_token_range_sharder::next` -/
def search (p : Partitioner K) (pos : Positions K α) (range : NonwrappingRange α) (shard : Nat) :
    Nat → SingleShardLoop K α → Option (Option (NonwrappingRange α) × SelectiveTokenRangeSharder K α)
  | 0, _ => none
  | rounds + 1, s => match s.round p pos range shard with
    | none => some (none, ⟨s, true⟩)
    | some (some part, s') => some (some part, ⟨s', false⟩)
    | some (none, s') => search p pos range shard rounds s'

/-- `selective_token_range_sharder::next` -/
def next (rounds : Nat) (p : Partitioner K) (pos : Positions K α) (range : NonwrappingRange α) (shard : Nat)
    (s : SelectiveTokenRangeSharder K α) : Option (Option (NonwrappingRange α) × SelectiveTokenRangeSharder K α) :=
  if s.done then some (none, s) else search p pos range shard rounds s.loop

end SelectiveTokenRangeSharder

section Positions

variable (pos : Positions K α) {r : NonwrappingRange α} {x y : α} {t u : Token K}

theorem Positions.lt_startingAt : x < pos.startingAt t ↔ pos.token x < t := by
  rw [← not_le, pos.startingAt_le, not_le]

theorem Positions.token_mono (le : x ≤ y) : pos.token x ≤ pos.token y :=
  pos.startingAt_le.1 ((pos.startingAt_le.2 le_rfl).trans le)

theorem Positions.startToken_le (inside : r.lower ≤ Cut.before x) : r.startToken pos ≤ pos.token x := by
  unfold lower at inside
  unfold startToken
  cases start : r.start with
  | none => exact bot_le
  | some b =>
    rw [start] at inside
    refine pos.token_mono ?_
    rcases b with ⟨value, _ | _⟩
    · exact (Cut.after_le_before.1 inside).le
    · exact Cut.before_le_before.1 inside

theorem Positions.lower_lt (before : r.startToken pos < t) : r.lower < Cut.before (pos.startingAt t) := by
  unfold startToken at before
  unfold lower
  cases start : r.start with
  | none => exact Cut.bot_lt_before
  | some b =>
    rw [start] at before
    have lt := pos.lt_startingAt.2 before
    rcases b with ⟨value, _ | _⟩
    · exact Cut.after_lt_before.2 lt
    · exact Cut.before_lt_before.2 lt

end Positions

namespace Partitioner

variable {p : Partitioner K} (layout : p.Layout) {i s : Nat} {t : Token K}

theorem Inverts.next (inverts : p.Inverts) (lt : s < p.shardCount) {spans : Nat} (pos : 1 ≤ spans) :
    p.tokenForNextShard t s spans = layout.start (layout.ahead t s (spans - 1)) :=
  (layout.isNextShard_iff lt pos).1 (inverts.isNextShard t s spans lt pos)

section

omit [LinearOrder K]

theorem nextShard_eq (lt : s < p.shardCount) : p.nextShard s = (s + 1) % p.shardCount := by
  unfold nextShard
  split_ifs with inner
  · exact (Nat.mod_eq_of_lt inner).symm
  · rw [show s + 1 = p.shardCount by omega, Nat.mod_self]

theorem nextShard_lt (pos : 0 < p.shardCount) : p.nextShard s < p.shardCount := by
  unfold nextShard
  split_ifs <;> omega

/-- The gap is the only distance up to the number of shards that leads to the shard. -/
theorem gap_eq (pos : 0 < p.shardCount) {d : Nat} (low : 1 ≤ d) (high : d ≤ p.shardCount) (own : (i + d) % p.shardCount = s) :
    p.gap i s = d := by
  have lt : s < p.shardCount := own ▸ Nat.mod_lt _ pos
  obtain ⟨k, eq⟩ := exists_eq_add_gap pos lt (Nat.lt_add_of_pos_right low) own
  have some : 1 ≤ p.gap i s := Nat.le_add_left _ _
  rcases Nat.eq_zero_or_pos k with rfl | more
  · omega
  · have := Nat.mul_le_mul_right p.shardCount more
    omega

end

theorem Inverts.next_run (inverts : p.Inverts) (own : layout.index t % p.shardCount = s) :
    p.tokenForNextShard t (p.nextShard s) 1 = layout.start (layout.index t + 1) := by
  have pos := layout.shardCount_pos
  have lt : s < p.shardCount := own ▸ Nat.mod_lt _ pos
  have gap : p.gap (layout.index t) (p.nextShard s) = 1 := by
    refine gap_eq pos le_rfl pos ?_
    rw [nextShard_eq lt, ← own, Nat.mod_add_mod]
  rw [inverts.next layout (nextShard_lt pos) le_rfl, Layout.ahead, gap, Nat.sub_self, Nat.zero_mul, Nat.add_zero]

/-- The token has the index of the run that it is in. -/
theorem Layout.index_of_lt (start : layout.index t = i) {u : Token K} (le : t ≤ u) (before : u < layout.start (i + 1) ∨ layout.start (i + 1) = ⊤) :
    layout.index u = i := by
  have low : i ≤ layout.index u := start ▸ layout.index_mono le
  have high : layout.index u < i + 1 := by
    rcases before with lt | top
    · exact layout.index_lt_of_lt_start lt
    · exact (layout.index_lt u).trans_le (layout.start_eq_top.1 top)
  omega

theorem Layout.start_mono {j : Nat} (le : i ≤ j) : layout.start i ≤ layout.start j := by
  rcases Nat.lt_or_ge j layout.count with inside | outside
  · exact (layout.start_le_start (le.trans_lt inside) inside).2 le
  · exact layout.start_eq_top.2 outside ▸ le_top

theorem Layout.index_top : layout.index ⊤ + 1 = layout.count := by
  have lt := layout.index_lt ⊤
  have last : layout.count - 1 ≤ layout.index ⊤ := (layout.start_le (by omega)).1 le_top
  omega

/-- Where the end of a run counts as. -/
theorem Layout.index_end (lt : i < layout.count) : layout.index (layout.start (i + 1)) = min (i + 1) (layout.count - 1) := by
  rcases Nat.lt_or_ge (i + 1) layout.count with inside | outside
  · rw [layout.index_start inside]
    omega
  · have top := layout.index_top
    rw [layout.start_eq_top.2 outside]
    omega

/-- From the end of a run of the shard, its next run is the next one of the shard. -/
theorem Layout.ahead_end (lt : i < layout.count) (own : i % p.shardCount = s) :
    i < layout.ahead (layout.start (i + 1)) s 0 ∧ layout.ahead (layout.start (i + 1)) s 0 % p.shardCount = s ∧
      ∀ j, j % p.shardCount = s → i < j → j < layout.count → layout.ahead (layout.start (i + 1)) s 0 ≤ j := by
  have count := layout.shardCount_pos
  have shard : s < p.shardCount := own ▸ Nat.mod_lt _ count
  have index := layout.index_end lt
  have ahead : layout.ahead (layout.start (i + 1)) s 0 =
      layout.index (layout.start (i + 1)) + p.gap (layout.index (layout.start (i + 1))) s := by
    rw [Layout.ahead, Nat.zero_mul, Nat.add_zero]
  have some : 1 ≤ p.gap (layout.index (layout.start (i + 1))) s := Nat.le_add_left _ _
  refine ⟨by omega, ahead ▸ add_gap_mod count shard, fun j mod after inside => ?_⟩
  have index : layout.index (layout.start (i + 1)) = i + 1 := by omega
  -- the run right behind is of another shard
  have other : j ≠ i + 1 := by
    rintro rfl
    have dvd := Nat.sub_mod_eq_zero_of_mod_eq (mod.trans own.symm)
    rw [Nat.add_sub_cancel_left] at dvd
    have := layout.single (Nat.dvd_one.1 (Nat.dvd_of_mod_eq_zero dvd))
    omega
  obtain ⟨k, eq⟩ := exists_eq_add_gap (i := i + 1) count shard (by omega) mod
  rw [ahead, index]
  omega

end Partitioner

/-- The ranges follow each other from one cut to another. -/
def Spans (a b : Cut α) : List (NonwrappingRange α) → Prop
  | [] => a = b
  | r :: rs => r.lower = a ∧ Spans r.upper b rs

section RangeSharder

variable {p : Partitioner K} {pos : Positions K α}

/-- Where the run ends that the range starts in -/
def Partitioner.Layout.runEnd (layout : p.Layout) (pos : Positions K α) (range : NonwrappingRange α) : Token K :=
  layout.start (layout.index (range.startToken pos) + 1)

namespace RingPositionRangeSharder

variable (layout : p.Layout) (inverts : p.Inverts) (minimum : p.shardOf ⊥ = 0) {range : NonwrappingRange α}

include minimum in
theorem shard_eq : (range.start.elim 0 fun b => p.shardOf (pos.token b.value)) = p.shardOf (range.startToken pos) := by
  unfold startToken
  cases range.start with
  | none => exact minimum.symm
  | some b => rfl

include inverts minimum in
theorem next_eq : next p pos ⟨range, false⟩ =
    if (range.stop.all fun e => decide (pos.startingAt (layout.runEnd pos range) < e.value)) ∧ layout.runEnd pos range ≠ ⊤ then
      (some ({ start := range.start, last := some ⟨pos.startingAt (layout.runEnd pos range), false⟩ },
          p.shardOf (range.startToken pos)),
        ⟨{ start := some ⟨pos.startingAt (layout.runEnd pos range), true⟩, last := range.stop }, false⟩)
    else (some (range, p.shardOf (range.startToken pos)), ⟨range, true⟩) := by
  have boundary := inverts.next_run layout (layout.shardOf_eq (range.startToken pos)).symm
  rw [next, if_neg Bool.false_ne_true]
  dsimp only
  rw [shard_eq minimum, boundary]
  rfl

/-- Up to where its run ends, the keys of a range belong to the shard that it starts in. -/
theorem shardOf_token {x : α} (low : range.lower ≤ Cut.before x)
    (high : pos.token x < layout.runEnd pos range ∨ layout.runEnd pos range = ⊤) :
    p.shardOf (pos.token x) = p.shardOf (range.startToken pos) := by
  rw [layout.shardOf_eq, layout.shardOf_eq, layout.index_of_lt rfl (pos.startToken_le low) high]

include layout inverts minimum in
/-- What the range sharder yields follows each other, and each part has the keys of one shard. -/
theorem yields : ∃ out, Yields (fun s => some (next p pos s)) ⟨range, false⟩ out ∧
    Spans range.lower range.upper (out.map Prod.fst) ∧ (range.isProper = true → ∀ e ∈ out, e.1.isProper = true) ∧
      ∀ e ∈ out, ∀ x, pos.startingAt (pos.token x) < x → e.1.contains x = true → p.shardOf (pos.token x) = e.2 := by
  -- the runs that are left
  induction left : layout.count - layout.index (range.startToken pos) using Nat.strongRecOn generalizing range with
  | _ left ih =>
    have eq := @next_eq K α _ _ p pos layout inverts minimum range
    by_cases more : (range.stop.all fun e => decide (pos.startingAt (layout.runEnd pos range) < e.value)) ∧
        layout.runEnd pos range ≠ ⊤
    · rw [if_pos more] at eq
      have inside : layout.index (range.startToken pos) + 1 < layout.count := not_le.1 fun le => more.2 (layout.start_eq_top.2 le)
      have before : range.startToken pos < layout.runEnd pos range := (layout.lt_start inside).2 (Nat.lt_succ_self _)
      have proper' : isProper
          { start := some ⟨pos.startingAt (layout.runEnd pos range), true⟩, last := range.stop } = true := by
        rw [isProper_iff]
        cases stop : range.stop with
        | none => exact Cut.before_lt_top
        | some b =>
          have lt : pos.startingAt (layout.runEnd pos range) < b.value := by simpa [stop] using more.1
          rcases b with ⟨value, _ | _⟩
          · exact Cut.before_lt_before.2 lt
          · exact Cut.before_lt_after.2 lt.le
      have token : startToken pos
          { start := some ⟨pos.startingAt (layout.runEnd pos range), true⟩, last := range.stop } = layout.runEnd pos range :=
        pos.token_startingAt _
      have index : layout.index (layout.runEnd pos range) = layout.index (range.startToken pos) + 1 := layout.index_start inside
      obtain ⟨out, yields, spans, propers, keys⟩ := ih (layout.count - (layout.index (range.startToken pos) + 1)) (by omega)
        (by rw [token, index])
      refine ⟨_ :: out, .more (congrArg some eq) yields, ⟨rfl, spans⟩,
        fun _ => List.forall_mem_cons.2 ⟨?_, propers proper'⟩, List.forall_mem_cons.2 ⟨fun x _ contains => ?_, keys⟩⟩
      · exact isProper_iff.2 (pos.lower_lt before)
      · obtain ⟨low, high⟩ := contains_iff.1 contains
        exact shardOf_token layout low (.inl (pos.lt_startingAt.1 (Cut.before_lt_before.1 high)))
    · rw [if_neg more] at eq
      have last : Yields (fun s => some (next p pos s)) ⟨range, true⟩ [] := .of_fst_none rfl
      refine ⟨_, .more (congrArg some eq) last, ⟨rfl, rfl⟩, fun proper => by simpa using proper, fun e he x key contains => ?_⟩
      cases List.mem_singleton.1 he
      obtain ⟨low, high⟩ := contains_iff.1 contains
      refine shardOf_token layout low ?_
      by_cases top : layout.runEnd pos range = ⊤
      · exact .inr top
      · refine .inl (not_le.1 fun le => more ⟨?_, top⟩)
        -- the key would come after the boundary, and so would the end of the range
        have behind : pos.startingAt (layout.runEnd pos range) < x := by
          refine lt_of_le_of_lt ?_ key
          rw [pos.startingAt_le, pos.token_startingAt]
          exact le
        unfold upper at high
        rw [Option.all_eq_true]
        intro b hb
        rw [hb] at high
        rcases b with ⟨value, _ | _⟩
        · exact decide_eq_true (behind.trans (Cut.before_lt_before.1 high))
        · exact decide_eq_true (behind.trans_le (Cut.before_lt_after.1 high))

end RingPositionRangeSharder

end RangeSharder

section SingleShard

variable {p : Partitioner K} {pos : Positions K α} {range : NonwrappingRange α} {shard j : Nat} {s : SingleShardLoop K α}

open RangeBound (lower)

/-- The loop has come to the `j`-th run, or to where the range starts in it: what is left of the tokens of the shard
in the range is behind the boundary. -/
structure SingleShardLoop.At (pos : Positions K α) (layout : p.Layout) (range : NonwrappingRange α) (shard : Nat)
    (s : SingleShardLoop K α) (j : Nat) : Prop where
  own : j % p.shardCount = shard
  passed : layout.index (range.startToken pos) ≤ j
  ends : j < layout.count → p.tokenForNextShard s.startToken (p.nextShard shard) 1 = layout.start (j + 1)
  inner : NonwrappingRange.startToken pos { start := s.startBoundary } ≠ ⊤ → j < layout.count ∧
    NonwrappingRange.startToken pos { start := s.startBoundary } < layout.start (j + 1) ∧
      range.lower ≤ lower s.startBoundary
  behind : ∀ {x}, range.contains x = true → pos.token x ≠ ⊤ →
    (lower s.startBoundary ≤ Cut.before x ↔ j ≤ layout.index (pos.token x))
  last : NonwrappingRange.startToken pos { start := s.startBoundary } = ⊤ →
    ∀ {x}, range.contains x = true → pos.token x ≠ ⊤ → layout.index (pos.token x) < j

namespace SingleShardLoop

variable (layout : p.Layout)

theorem lt_start_succ {t : Token K} (inner : t ≠ ⊤) : t < layout.start (layout.index t + 1) := by
  rcases Nat.lt_or_ge (layout.index t + 1) layout.count with inside | outside
  · exact (layout.lt_start inside).2 (Nat.lt_succ_self _)
  · rw [layout.start_eq_top.2 outside]
    exact lt_top_iff_ne_top.2 inner

theorem at_run {t : Token K} (own : j % p.shardCount = shard)
    (ends : j < layout.count → p.tokenForNextShard t (p.nextShard shard) 1 = layout.start (j + 1))
    (after : layout.index (range.startToken pos) < j) :
    At pos layout range shard ⟨t, some ⟨pos.startingAt (layout.start j), true⟩⟩ j := by
  have token : NonwrappingRange.startToken pos { start := some ⟨pos.startingAt (layout.start j), true⟩ } = layout.start j :=
    pos.token_startingAt _
  refine ⟨own, after.le, ends, fun inner => ?_, fun {x} _ inner => ?_, fun top {x} _ _ => ?_⟩
  · rw [token] at inner ⊢
    have inside : j < layout.count := not_le.1 fun le => inner (layout.start_eq_top.2 le)
    have next := lt_start_succ layout inner
    rw [layout.index_start inside] at next
    exact ⟨inside, next, (pos.lower_lt ((layout.lt_start inside).2 after)).le⟩
  · change Cut.before (pos.startingAt (layout.start j)) ≤ _ ↔ _
    rw [Cut.before_le_before, pos.startingAt_le]
    rcases Nat.lt_or_ge j layout.count with inside | outside
    · exact layout.start_le inside
    · rw [layout.start_eq_top.2 outside, top_le_iff]
      exact iff_of_false inner (not_le.2 ((layout.index_lt _).trans_le outside))
  · rw [token] at top
    exact (layout.index_lt _).trans_le (layout.start_eq_top.1 top)

theorem at_init (inverts : p.Inverts) (lt : shard < p.shardCount) : ∃ j, At pos layout range shard (init p pos range shard) j ∧
    ∀ {x}, range.contains x = true → p.shardOf (pos.token x) = shard → j ≤ layout.index (pos.token x) := by
  have count := layout.shardCount_pos
  have after : ∀ {x}, range.contains x = true → layout.index (range.startToken pos) ≤ layout.index (pos.token x) := fun inside =>
    layout.index_mono (pos.startToken_le (contains_iff.1 inside).1)
  unfold init
  split
  next own =>
    refine ⟨layout.index (range.startToken pos), ⟨by rw [← layout.shardOf_eq, own], le_rfl, fun _ => ?_, fun inner => ?_,
      fun {x} inside _ => ?_,
      fun top {x} inside inner => ?_⟩, fun inside _ => after inside⟩
    · exact inverts.next_run layout (by rw [← layout.shardOf_eq, own])
    · exact ⟨layout.index_lt _, lt_start_succ layout inner, le_rfl⟩
    · exact iff_of_true (contains_iff.1 inside).1 (after inside)
    · have le := pos.startToken_le (contains_iff.1 inside).1
      exact absurd (top_le_iff.1 (top ▸ le)) inner
  next other =>
    rw [layout.shardOf_eq] at other
    have first : p.tokenForNextShard (range.startToken pos) shard 1 = layout.start (layout.ahead (range.startToken pos) shard 0) :=
      inverts.next layout lt le_rfl
    have ahead : layout.ahead (range.startToken pos) shard 0 =
        layout.index (range.startToken pos) + p.gap (layout.index (range.startToken pos)) shard := by
      rw [Partitioner.Layout.ahead, Nat.zero_mul, Nat.add_zero]
    have mod := Partitioner.add_gap_mod (i := layout.index (range.startToken pos)) count lt
    have some : 1 ≤ p.gap (layout.index (range.startToken pos)) shard := Nat.le_add_left _ _
    -- the shard is not a whole round away, so the next one comes right behind it
    have short : p.gap (layout.index (range.startToken pos)) shard < p.shardCount := by
      refine lt_of_le_of_ne (Partitioner.gap_le count) fun whole => other ?_
      rwa [whole, Nat.add_mod_right] at mod
    have next : p.gap (layout.index (range.startToken pos)) (p.nextShard shard) =
        p.gap (layout.index (range.startToken pos)) shard + 1 := by
      refine Partitioner.gap_eq count (Nat.le_add_left _ _) short ?_
      rw [← Nat.add_assoc, Nat.add_mod, mod, Nat.add_mod_mod, Partitioner.nextShard_eq lt]
    rw [first]
    refine ⟨_, at_run layout (ahead ▸ mod) (fun _ => ?_) (by omega), fun {x} inside own => ?_⟩
    · rw [inverts.next layout (Partitioner.nextShard_lt count) le_rfl, Nat.sub_self, ahead, Partitioner.Layout.ahead, next,
        Nat.zero_mul, Nat.add_zero, Nat.add_assoc]
    · have le := after inside
      rw [layout.shardOf_eq] at own
      have lt' : layout.index (range.startToken pos) < layout.index (pos.token x) :=
        lt_of_le_of_ne le fun eq => other (eq ▸ own)
      obtain ⟨k, eq⟩ := Partitioner.exists_eq_add_gap count lt lt' own
      omega

/-- A round finds the part of the range that is in the run, and goes on to the next run of the shard. -/
theorem At.round (inverts : p.Inverts) (here : At pos layout range shard s j) :
    (round p pos range shard s = none ∧ ∀ {x}, range.contains x = true → pos.token x ≠ ⊤ → layout.index (pos.token x) < j) ∨
    ∃ part s' j', round p pos range shard s = some (some part, s') ∧ At pos layout range shard s' j' ∧ j < j' ∧ j < layout.count ∧
      part.isProper = true ∧ part.lower = lower s.startBoundary ∧ part.upper ≤ lower s'.startBoundary ∧
      (∀ {x}, pos.token x ≠ ⊤ → (part.contains x = true ↔ range.contains x = true ∧ layout.index (pos.token x) = j)) ∧
      ∀ i, i % p.shardCount = shard → j < i → i < layout.count → j' ≤ i := by
  unfold SingleShardLoop.round
  split
  next more =>
    obtain ⟨overlaps, notTop⟩ := more
    have reaches : lower s.startBoundary < range.upper := overlaps_iff_lower_lt.1 overlaps
    have notTop : NonwrappingRange.startToken pos { start := s.startBoundary } ≠ ⊤ := by
      intro top
      apply notTop
      unfold NonwrappingRange.startToken at top
      cases boundary : s.startBoundary with
      | none => simp [boundary] at top
      | some b => simpa [boundary] using top
    obtain ⟨inside, before, start⟩ := here.inner notTop
    rw [here.ends inside]
    obtain ⟨part, found, lower, upper⟩ := @intersection_eq_some α _ range
      { start := s.startBoundary, last := some ⟨pos.startingAt (layout.start (j + 1)), false⟩ } start reaches
    change part.upper = min range.upper (Cut.before (pos.startingAt (layout.start (j + 1)))) at upper
    have lt : shard < p.shardCount := here.own ▸ Nat.mod_lt _ layout.shardCount_pos
    have next : p.tokenForNextShard (layout.start (j + 1)) shard 1 = layout.start (layout.ahead (layout.start (j + 1)) shard 0) :=
      inverts.next layout lt le_rfl
    obtain ⟨after, own, first⟩ := layout.ahead_end inside here.own
    dsimp only
    rw [next, found]
    refine .inr ⟨part, _, _, rfl, at_run layout own (fun inside' => ?_) (here.passed.trans_lt after), after, inside, ?_, lower, ?_,
      fun {x} inner => ?_, first⟩
    · have index := layout.index_start inside'
      rw [inverts.next_run layout (index.symm ▸ own), index]
    · rw [isProper_iff, lower, upper]
      exact lt_min reaches (pos.lower_lt before)
    · rw [upper]
      refine (min_le_right _ _).trans (Cut.before_le_before.2 ?_)
      rw [pos.startingAt_le, pos.token_startingAt]
      exact layout.start_mono after
    · rw [contains_iff, lower, upper, lt_min_iff, Cut.before_lt_before, pos.lt_startingAt]
      constructor
      · rintro ⟨low, high, upto⟩
        have contains : range.contains x = true := contains_iff.2 ⟨start.trans low, high⟩
        exact ⟨contains, Nat.le_antisymm (Nat.le_of_lt_succ (layout.index_lt_of_lt_start upto)) ((here.behind contains inner).1 low)⟩
      · rintro ⟨contains, rfl⟩
        exact ⟨(here.behind contains inner).2 le_rfl, (contains_iff.1 contains).2, lt_start_succ layout inner⟩
  next more =>
    refine .inl ⟨rfl, fun {x} inside inner => ?_⟩
    by_cases top : NonwrappingRange.startToken pos { start := s.startBoundary } = ⊤
    · exact here.last top inside inner
    · have high := (contains_iff.1 inside).2
      refine not_le.1 fun le => more ⟨overlaps_iff_lower_lt.2 ?_, fun any => top ?_⟩
      · exact ((here.behind inside inner).2 le).trans_lt high
      · unfold NonwrappingRange.startToken
        cases boundary : s.startBoundary with
        | none => simp [boundary] at any
        | some b => simpa [boundary] using any

/-- What the loop finds from here on, whether it is asked at once or part by part. -/
theorem At.parts (inverts : p.Inverts) (here : At pos layout range shard s j) : ∃ parts,
    (∀ rounds, parts.length < rounds → split p pos range shard rounds s = some parts) ∧
    (∀ rounds, Yields (SelectiveTokenRangeSharder.next (rounds + 1) p pos range shard) ⟨s, false⟩ parts) ∧
    parts.Pairwise (fun a b => a.upper ≤ b.lower) ∧
    (∀ part ∈ parts, part.isProper = true ∧ lower s.startBoundary ≤ part.lower) ∧
    ∀ {x}, pos.token x ≠ ⊤ → ((∃ part ∈ parts, part.contains x = true) ↔
      range.contains x = true ∧ p.shardOf (pos.token x) = shard ∧ j ≤ layout.index (pos.token x)) := by
  induction left : layout.count - j using Nat.strongRecOn generalizing s j with
  | _ left ih =>
    rcases here.round layout inverts with ⟨none, beyond⟩ | ⟨part, s', j', found, there, after, inside, proper, lower, upper, keys, next⟩
    · refine ⟨[], fun rounds enough => ?_, fun rounds => ?_, .nil, nofun, fun inner => ?_⟩
      · obtain ⟨rounds, rfl⟩ := Nat.exists_eq_succ_of_ne_zero (Nat.ne_of_gt enough)
        rw [split, none]
      · have last : SelectiveTokenRangeSharder.next (rounds + 1) p pos range shard ⟨s, false⟩ = some (.none, ⟨s, true⟩) := by
          rw [SelectiveTokenRangeSharder.next, if_neg Bool.false_ne_true, SelectiveTokenRangeSharder.search, none]
        exact .done last
      · exact iff_of_false (fun ⟨_, h, _⟩ => List.not_mem_nil h) fun ⟨contains, _, le⟩ => absurd (beyond contains inner) (not_lt.2 le)
    · obtain ⟨parts, split', yields, sorted, bounds, contents⟩ := ih (layout.count - j') (by omega) there rfl
      refine ⟨part :: parts, fun rounds enough => ?_, fun rounds => .more ?_ (yields rounds),
        List.pairwise_cons.2 ⟨fun b hb => upper.trans (bounds b hb).2, sorted⟩,
        List.forall_mem_cons.2 ⟨⟨proper, lower.ge⟩, fun b hb => ⟨(bounds b hb).1, ?_⟩⟩, fun {x} inner => ?_⟩
      · obtain ⟨rounds, rfl⟩ := Nat.exists_eq_succ_of_ne_zero (Nat.ne_of_gt (Nat.zero_lt_of_lt enough))
        rw [split, found]
        dsimp only
        rw [split' rounds (Nat.lt_of_succ_lt_succ enough)]
        rfl
      · rw [SelectiveTokenRangeSharder.next, if_neg Bool.false_ne_true, SelectiveTokenRangeSharder.search, found]
      · have within : part.lower ≤ part.upper := (isProper_iff.1 proper).le
        exact lower ▸ within.trans (upper.trans (bounds b hb).2)
      · simp only [List.mem_cons, or_and_right, exists_or, exists_eq_left]
        rw [keys inner, contents inner]
        constructor
        · rintro (⟨contains, rfl⟩ | ⟨contains, own, le⟩)
          · exact ⟨contains, by rw [layout.shardOf_eq, here.own], le_rfl⟩
          · exact ⟨contains, own, after.le.trans le⟩
        · rintro ⟨contains, own, le⟩
          refine le.eq_or_lt.imp (fun eq => ⟨contains, eq.symm⟩) fun lt => ⟨contains, own, ?_⟩
          exact next _ (layout.shardOf_eq _ ▸ own) lt (layout.index_lt _)

include layout in
/-- The loop from its start finds exactly what is of the shard. -/
theorem parts_of_init (inverts : p.Inverts) (lt : shard < p.shardCount) : ∃ parts,
    (∀ rounds, parts.length < rounds → splitRangeToSingleShard rounds p pos range shard = some parts) ∧
    (∀ rounds, Yields (SelectiveTokenRangeSharder.next (rounds + 1) p pos range shard) ⟨init p pos range shard, false⟩ parts) ∧
    parts.Pairwise (fun a b => a.upper ≤ b.lower) ∧ (∀ part ∈ parts, part.isProper = true) ∧
    ∀ {x}, pos.token x ≠ ⊤ → ((∃ part ∈ parts, part.contains x = true) ↔
      range.contains x = true ∧ p.shardOf (pos.token x) = shard) := by
  obtain ⟨j, here, first⟩ := @at_init K α _ _ p pos range shard layout inverts lt
  obtain ⟨parts, split, yields, sorted, bounds, contents⟩ := here.parts layout inverts
  refine ⟨parts, split, yields, sorted, fun part mem => (bounds part mem).1, fun inner => (contents inner).trans ?_⟩
  exact ⟨fun h => ⟨h.1, h.2.1⟩, fun h => ⟨h.1, h.2, first h.1 h.2⟩⟩

end SingleShardLoop

end SingleShard

section Exact

variable {P : Type} [LinearOrder P]

/-- When the shards take turns, ranges are split exactly. `ring_position_range_sharder` yields ranges that follow each
other from the start of the range to its end, with keys of the shard that they are labelled with.
`split_range_to_single_shard` returns disjoint ranges in order that have the keys of the shard and no others, and so
does `selective_token_range_sharder` with ranges of tokens. -/
theorem range_splitting_exact {p : Partitioner K} (inverts : p.Inverts) (turns : p.TakesTurns) :
    (∀ range : NonwrappingRange (RingPosition K P), ∃ out : List (NonwrappingRange (RingPosition K P) × Nat),
      Yields (fun s => some (RingPositionRangeSharder.next p .ring s)) ⟨range, false⟩ out ∧
      Spans range.lower range.upper (out.map Prod.fst) ∧ (range.isProper = true → ∀ e ∈ out, e.1.isProper = true) ∧
      ∀ e ∈ out, ∀ k key, e.1.contains (decoratedKey k key) = true → p.shardOf (keyToken k) = e.2) ∧
    (∀ (range : NonwrappingRange (RingPosition K P)) (shard : Nat), shard < p.shardCount → ∃ parts,
      (∀ rounds, parts.length < rounds → splitRangeToSingleShard rounds p .ring range shard = some parts) ∧
      parts.Pairwise (fun a b => a.upper ≤ b.lower) ∧ (∀ part ∈ parts, part.isProper = true) ∧
      ∀ k key, (∃ part ∈ parts, part.contains (decoratedKey k key) = true) ↔
        range.contains (decoratedKey k key) = true ∧ p.shardOf (keyToken k) = shard) ∧
    ∀ (range : NonwrappingRange (Token K)) (shard : Nat), shard < p.shardCount → ∃ parts,
      (∀ rounds, Yields (SelectiveTokenRangeSharder.next (rounds + 1) p .tokens range shard)
        ⟨.init p .tokens range shard, false⟩ parts) ∧
      parts.Pairwise (fun a b => a.upper ≤ b.lower) ∧ (∀ part ∈ parts, part.isProper = true) ∧
      ∀ k, (∃ part ∈ parts, part.contains (keyToken k) = true) ↔
        range.contains (keyToken k) = true ∧ p.shardOf (keyToken k) = shard := by
  obtain ⟨layout⟩ := turns.exists_layout inverts
  have inner (k : K) : keyToken k ≠ ⊤ := by simp [keyToken]
  refine ⟨fun range => ?_, fun range shard lt => ?_, fun range shard lt => ?_⟩
  · obtain ⟨out, yields, spans, propers, keys⟩ := @RingPositionRangeSharder.yields K _ _ _ p .ring layout inverts turns.minimum range
    refine ⟨out, yields, spans, propers, fun e he k key => keys e he (decoratedKey k key) ?_⟩
    exact Prod.Lex.toLex_lt_toLex.2 (.inr ⟨rfl, WithBot.bot_lt_coe _⟩)
  · obtain ⟨parts, split, -, sorted, propers, keys⟩ := @SingleShardLoop.parts_of_init K _ _ _ p .ring range shard layout inverts lt
    exact ⟨parts, split, sorted, propers, fun k key => keys (inner k)⟩
  · obtain ⟨parts, -, yields, sorted, propers, keys⟩ := @SingleShardLoop.parts_of_init K _ _ _ p .tokens range shard layout inverts lt
    exact ⟨parts, yields, sorted, propers, fun k => keys (inner k)⟩

end Exact

/-- The whole ring of a murmur3 partitioner with three shards, with numbers for keys. -/
theorem range_splitting_exact_murmur3 : ∃ p, Murmur3Partitioner.make 2 3 12 = some p ∧ ∃ parts,
    splitRangeToSingleShard (parts.length + 1) p.toPartitioner (.ring : Positions _ (RingPosition _ Nat)) {} 1 = some parts ∧
      ∀ k key, (∃ part ∈ parts, part.contains (decoratedKey k key) = true) ↔ p.shardOf (keyToken k) = 1 := by
  obtain ⟨p, made, sound, three⟩ := @Murmur3Partitioner.make_sound 3 12 2 (by decide) (by decide) (by decide) le_rfl
  obtain ⟨-, split, -⟩ := @range_splitting_exact _ _ Nat _ _ sound.inverts sound.layout.takesTurns
  obtain ⟨parts, found, -, -, keys⟩ := split {} 1 (by change 1 < p.shardCount; omega)
  exact ⟨p, made, parts, found _ (Nat.lt_succ_self _), fun k key => (keys k key).trans (and_iff_right rfl)⟩

open Partitioner (outOfTurn secondFirst)

/-- Where the shards do not take turns, or the second one has the minimum token, keys are found in a range that is
labelled with another shard. -/
theorem mislabelled_out_of_turn : (outOfTurn.Inverts ∧ ∃ range shard,
      (RingPositionRangeSharder.next outOfTurn .ring ⟨{}, false⟩).1 = some (range, shard) ∧
      range.contains (decoratedKey 0 () : RingPosition (Fin 2) Unit) = true ∧
      outOfTurn.shardOf (keyToken 0) ≠ shard) ∧
    secondFirst.Inverts ∧ ∃ range shard,
      (RingPositionRangeSharder.next secondFirst .ring ⟨{}, false⟩).1 = some (range, shard) ∧
      range.contains (decoratedKey 0 () : RingPosition (Fin 3) Unit) = true ∧
      secondFirst.shardOf (keyToken 0) ≠ shard :=
  ⟨⟨Partitioner.outOfTurn_inverts, _, _, rfl, by decide, by decide⟩,
    Partitioner.secondFirst_inverts, _, _, rfl, by decide, by decide⟩

end ScyllaMoon.Dht
