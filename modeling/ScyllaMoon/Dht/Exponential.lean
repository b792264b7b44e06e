import ScyllaMoon.Dht.Sharder

/-!
# The exponential sharder

`ring_position_exponential_sharder` goes through a range in iterations, each with twice as many runs as the one before.
What an iteration takes is asked for shard by shard, so the ranges of an iteration overlap; it is the keys of the shards
that follow each other.
-/

namespace ScyllaMoon.Dht

open NonwrappingRange RangeBound List Option

variable {K α : Type} [LinearOrder K] [LinearOrder α]

/-- `ring_position_exponential_sharder_result` -/
structure ExponentialSharderResult (α : Type) where
  perShardRanges : List (NonwrappingRange α × Nat)
  inorder : Bool

/-- `ring_position_exponential_sharder` -/
structure ExponentialSharder (K α : Type) where
  range : NonwrappingRange α
  spansPerIteration : Nat := 1
  firstShard : Nat := 0
  nextShard : Nat := 0
  lastEnds : Nat → Option (Token K) := fun _ => none

/-- Where a range starts that may have no start -/
def NonwrappingRange.firstBound (pos : Positions K α) (r : NonwrappingRange α) : RangeBound α :=
  r.start.getD ⟨pos.startingAt ⊥, true⟩

namespace ExponentialSharder

variable (p : Partitioner K)

/-- The constructor -/
def make (pos : Positions K α) (range : NonwrappingRange α) : ExponentialSharder K α :=
  match range.start with
  | some b => { range := range, firstShard := p.shardOf (pos.token b.value), nextShard := p.shardOf (pos.token b.value) }
  | none => { range := range }

/-- How many of the spans of an iteration the `i`-th shard gets -/
def spansOf (spans n i : Nat) : Nat := spans / n + if i < spans % n then 1 else 0

/-- What there is of the range for a shard, and where it ends -/
def look (pos : Positions K α) (s : ExponentialSharder K α) (lastEnd : Option (Token K)) (shard spans : Nat) :
    Option (NonwrappingRange α × Token K) :=
  if lastEnd = some ⊤ then none
  else
    let thisShardStart := lastEnd.elim (s.range.firstBound pos) fun e => ⟨pos.startingAt e, true⟩
    let extraSpan := lastEnd.isNone ∧ shard ≠ s.firstShard
    let boundary := p.tokenForNextShard (pos.token thisShardStart.value) shard (spans + if extraSpan then 1 else 0)
    (s.range.intersection { start := some thisShardStart, last := some ⟨pos.startingAt boundary, false⟩ }).map (·, boundary)

/-- The loop of `next`: one shard. The shards are counted in 32 bits. -/
def visit (pos : Positions K α) (s : ExponentialSharder K α)
    (acc : (Nat → Option (Token K)) × List (NonwrappingRange α × Nat)) (i : Nat) :
    (Nat → Option (Token K)) × List (NonwrappingRange α × Nat) :=
  let shard := (s.nextShard + i) % 2 ^ 32 % p.shardCount
  match s.look p pos (acc.1 shard) shard (spansOf s.spansPerIteration p.shardCount i) with
  | none => acc
  | some found => (Function.update acc.1 shard (some found.2), acc.2 ++ [(found.1, shard)])

/-- `ring_position_exponential_sharder::next` -/
def next (pos : Positions K α) (s : ExponentialSharder K α) :
    Option (ExponentialSharderResult α) × ExponentialSharder K α :=
  let visited := (List.range (min p.shardCount s.spansPerIteration)).foldl (s.visit p pos) (s.lastEnds, [])
  let s' := { s with
    nextShard := (s.nextShard + s.spansPerIteration) % 2 ^ 32 % p.shardCount
    lastEnds := visited.1 }
  if visited.2.isEmpty then (none, s')
  else
    (some { perShardRanges := visited.2, inorder := decide (s.spansPerIteration ≤ p.shardCount) },
      { s' with spansPerIteration := s.spansPerIteration * 2 % 2 ^ 32 })

theorem next_fst_none {p : Partitioner K} {pos : Positions K α} {s : ExponentialSharder K α}
    (empty : ((List.range (min p.shardCount s.spansPerIteration)).foldl (s.visit p pos) (s.lastEnds, [])).2 = []) :
    (next p pos s).1 = none := by
  rw [next, empty]
  rfl

end ExponentialSharder

section Bounds

variable (pos : Positions K α) {range : NonwrappingRange α} {b : RangeBound α} {c : Token K} {x : α}

namespace NonwrappingRange

theorem token_firstBound : pos.token (range.firstBound pos).value = range.startToken pos := by
  unfold firstBound startToken
  cases range.start with
  | none => exact pos.token_startingAt ⊥
  | some b => rfl

theorem lower_le_firstBound : range.lower ≤ RangeBound.lower (some (range.firstBound pos)) := by
  unfold firstBound lower
  cases range.start with
  | none => exact bot_le
  | some b => exact le_rfl

theorem firstBound_le (contains : range.contains x = true) : RangeBound.lower (some (range.firstBound pos)) ≤ Cut.before x := by
  have low := (contains_iff.1 contains).1
  unfold firstBound
  cases start : range.start with
  | none => exact Cut.before_le_before.2 (pos.startingAt_le.2 bot_le)
  | some b => exact start ▸ low

theorem exists_intersection (le : range.lower ≤ RangeBound.lower (some b)) (reach : RangeBound.lower (some b) < range.upper) :
    ∃ both, range.intersection { start := some b, last := some ⟨pos.startingAt c, false⟩ } = some both ∧
      ∀ x, both.contains x = true ↔ range.contains x = true ∧ RangeBound.lower (some b) ≤ Cut.before x ∧ pos.token x < c := by
  obtain ⟨both, eq, lower, upper⟩ := @intersection_eq_some α _ range
    { start := some b, last := some ⟨pos.startingAt c, false⟩ } le reach
  change both.upper = min range.upper (Cut.before (pos.startingAt c)) at upper
  refine ⟨both, eq, fun x => ?_⟩
  rw [contains_iff, contains_iff, lower, upper, lt_min_iff, Cut.before_lt_before, pos.lt_startingAt]
  exact ⟨fun ⟨low, high, before⟩ => ⟨⟨le.trans low, high⟩, low, before⟩, fun ⟨⟨_, high⟩, low, before⟩ => ⟨low, high, before⟩⟩

end NonwrappingRange

end Bounds

section Look

variable {p : Partitioner K} {pos : Positions K α} (layout : p.Layout) {s : ExponentialSharder K α} {range : NonwrappingRange α}
  {i spans : Nat} {lastEnd : Option (Token K)}

/-- The runs of a shard before the `i`-th have been dealt with, and it is the next one of the shard. -/
def ExponentialSharder.Due (pos : Positions K α) (layout : p.Layout) (range : NonwrappingRange α) (i : Nat) :
    Option (Token K) → Prop
  | none => i < layout.index (range.startToken pos) + p.shardCount
  | some e => e ≤ layout.start i ∧ (e ≠ ⊤ → range.lower ≤ Cut.before (pos.startingAt e)) ∧
    -- an end that the range does not reach is not moved any more
    (e = layout.start i ∨ range.upper ≤ Cut.before (pos.startingAt e))

namespace ExponentialSharder

variable {t : Token K}

theorem lt_start_iff (inner : t ≠ ⊤) : t < layout.start i ↔ layout.index t < i := by
  rcases Nat.lt_or_ge i layout.count with inside | outside
  · exact layout.lt_start inside
  · rw [layout.start_eq_top.2 outside]
    exact iff_of_true (lt_top_iff_ne_top.2 inner) ((layout.index_lt t).trans_le outside)

theorem due_start (after : layout.index (range.startToken pos) < i) : Due pos layout range i (some (layout.start i)) := by
  refine ⟨le_rfl, fun inner => (pos.lower_lt ?_).le, .inl rfl⟩
  have inside : i < layout.count := not_le.1 fun le => inner (layout.start_eq_top.2 le)
  exact (layout.lt_start inside).2 after

/-- Runs of the same shard are not closer than the shards are many. -/
theorem le_of_mod_eq {n m : Nat} (mod : m % n = i % n) {a : Nat} (low : a ≤ m) (high : i < a + n) : i ≤ m := by
  by_contra lt
  have dvd := Nat.sub_mod_eq_zero_of_mod_eq mod.symm
  have := Nat.eq_zero_of_dvd_of_lt (Nat.dvd_of_mod_eq_zero dvd) (by omega)
  omega

variable (inverts : p.Inverts)

include inverts in
/-- From a token of the shard, so many of its runs lead so many rounds further. -/
theorem boundary_of_own (own : layout.index t = i) (many : 1 ≤ spans) :
    p.tokenForNextShard t (i % p.shardCount) spans = layout.start (i + spans * p.shardCount) := by
  have count := layout.shardCount_pos
  have gap : p.gap i (i % p.shardCount) = p.shardCount := Partitioner.gap_eq count count le_rfl (Nat.add_mod_right _ _)
  have rounds : p.shardCount + (spans - 1) * p.shardCount = spans * p.shardCount := by
    rw [Nat.add_comm, ← Nat.succ_mul, Nat.succ_eq_add_one, Nat.sub_add_cancel many]
  rw [inverts.next layout (Nat.mod_lt _ count) many, Partitioner.Layout.ahead, own, gap, Nat.add_assoc, rounds]

include inverts in
/-- On the first visit of a shard other than the first, one more span leads to the same place. -/
theorem boundary_of_first (low : layout.index t ≤ i) (high : i < layout.index t + p.shardCount) (many : 1 ≤ spans) :
    p.tokenForNextShard t (i % p.shardCount) (spans + if i % p.shardCount ≠ layout.index t % p.shardCount then 1 else 0) =
      layout.start (i + spans * p.shardCount) := by
  have count := layout.shardCount_pos
  have lt : i % p.shardCount < p.shardCount := Nat.mod_lt _ count
  split
  next other =>
    have gap : p.gap (layout.index t) (i % p.shardCount) = i - layout.index t := by
      refine Partitioner.gap_eq count ?_ (by omega) (by rw [Nat.add_sub_cancel' low])
      exact Nat.sub_pos_of_lt (lt_of_le_of_ne low fun eq => other (by rw [eq]))
    rw [inverts.next layout lt (Nat.le_add_left _ _), Partitioner.Layout.ahead, gap, Nat.add_sub_cancel' low, Nat.add_sub_cancel]
  next same =>
    have eq : layout.index t = i := by
      refine Nat.le_antisymm low (le_of_mod_eq (not_not.1 same).symm le_rfl high)
    exact boundary_of_own layout inverts eq many

open ExponentialSharder (look)

include inverts in
/-- What is found for a shard has the keys of the shard from its next run on, in so many runs of it. -/
theorem Due.look (reach : lower (some (s.range.firstBound pos)) < s.range.upper)
    (first : s.firstShard = layout.index (s.range.startToken pos) % p.shardCount) (low : layout.index (s.range.startToken pos) ≤ i)
    (many : 1 ≤ spans) (due : Due pos layout s.range i lastEnd) :
    (s.look p pos lastEnd (i % p.shardCount) spans = none ∧ Due pos layout s.range (i + spans * p.shardCount) lastEnd ∧
      ∀ x, s.range.contains x = true → pos.token x ≠ ⊤ → layout.index (pos.token x) < i) ∨
    ∃ both boundary, s.look p pos lastEnd (i % p.shardCount) spans = some (both, boundary) ∧
      Due pos layout s.range (i + spans * p.shardCount) (some boundary) ∧
      (∀ x, both.contains x = true → s.range.contains x = true) ∧
      ∀ x, pos.token x ≠ ⊤ → layout.index (pos.token x) % p.shardCount = i % p.shardCount →
        (both.contains x = true ↔ s.range.contains x = true ∧ i ≤ layout.index (pos.token x) ∧
          layout.index (pos.token x) < i + spans * p.shardCount) := by
  have count := layout.shardCount_pos
  have further : layout.index (s.range.startToken pos) < i + spans * p.shardCount := by
    have := Nat.mul_le_mul many count
    omega
  cases lastEnd with
  | none =>
    have boundary := boundary_of_first layout inverts low due many
    obtain ⟨both, found, contains⟩ := @exists_intersection K α _ _ pos s.range (s.range.firstBound pos)
      (layout.start (i + spans * p.shardCount)) (lower_le_firstBound pos) reach
    refine .inr ⟨both, layout.start (i + spans * p.shardCount), ?_, due_start layout further, fun x h => ((contains x).1 h).1,
      fun x inner own => ?_⟩
    · simp only [look, reduceCtorEq, if_false, elim_none, isNone_none, true_and, first,
        token_firstBound, boundary, found, map_some]
    · rw [contains, lt_start_iff layout inner]
      refine ⟨fun ⟨inside, _, high⟩ => ⟨inside, ?_, high⟩, fun ⟨inside, _, high⟩ => ⟨inside, firstBound_le pos inside, high⟩⟩
      have after := layout.index_mono (pos.startToken_le (contains_iff.1 inside).1)
      exact le_of_mod_eq own after due
  | some e =>
    obtain ⟨le, start, ends⟩ := due
    have farther : layout.start i ≤ layout.start (i + spans * p.shardCount) := layout.start_mono (Nat.le_add_right _ _)
    by_cases top : e = ⊤
    · have last : layout.count ≤ i := layout.start_eq_top.1 (top_le_iff.1 (top ▸ le))
      have last' : layout.start (i + spans * p.shardCount) = ⊤ := layout.start_eq_top.2 (last.trans (Nat.le_add_right _ _))
      refine .inl ⟨?_, ⟨le.trans farther, start, .inl (top.trans last'.symm)⟩, fun x _ _ => (layout.index_lt _).trans_le last⟩
      rw [look, if_pos (congrArg some top)]
    · have look boundary (eq : p.tokenForNextShard e (i % p.shardCount) spans = boundary) :
          s.look p pos (some e) (i % p.shardCount) spans =
            (s.range.intersection { start := some ⟨pos.startingAt e, true⟩, last := some ⟨pos.startingAt boundary, false⟩ }).map
              (·, boundary) := by
        simp only [look, some.injEq, top, if_false, elim_some, isNone_some,
          Bool.false_eq_true, false_and, Nat.add_zero, pos.token_startingAt, eq]
      rcases le_or_gt s.range.upper (Cut.before (pos.startingAt e)) with far | reach
      · refine .inl ⟨?_, ⟨le.trans farther, start, .inr far⟩, fun x inside inner => ?_⟩
        · rw [look _ rfl, intersection_eq_none (start top) far]
          rfl
        · rw [← lt_start_iff layout inner]
          refine lt_of_lt_of_le ?_ le
          exact pos.lt_startingAt.1 (Cut.before_lt_before.1 ((contains_iff.1 inside).2.trans_le far))
      · have eq : e = layout.start i := ends.resolve_right (not_le.2 reach)
        subst eq
        have inside : i < layout.count := not_le.1 fun le => top (layout.start_eq_top.2 le)
        obtain ⟨both, found, contains⟩ := @exists_intersection K α _ _ pos s.range
          ⟨pos.startingAt (layout.start i), true⟩ (layout.start (i + spans * p.shardCount)) (start top) reach
        refine .inr ⟨both, layout.start (i + spans * p.shardCount), ?_, due_start layout further, fun x h => ((contains x).1 h).1,
          fun x inner _ => ?_⟩
        · rw [look _ (boundary_of_own layout inverts (layout.index_start inside) many), found]
          rfl
        · rw [contains, lt_start_iff layout inner]
          change _ ∧ Cut.before (pos.startingAt (layout.start i)) ≤ Cut.before x ∧ _ ↔ _
          rw [Cut.before_le_before, pos.startingAt_le, layout.start_le inside]

end ExponentialSharder

end Look

section Spans

variable {n a m i t spans : Nat}

namespace ExponentialSharder

theorem eq_of_mod_eq (mod : m % n = i % n) (low : a ≤ m) (high : m < a + n) (low' : a ≤ i) (high' : i < a + n) : i = m :=
  Nat.le_antisymm (le_of_mod_eq mod low high') (le_of_mod_eq mod.symm low' high)

/-- The spans of an iteration, dealt to the shards in turn, end less than a round after the iteration. -/
theorem spansOf_bounds (spans : Nat) (lt : t < n) : spans ≤ t + spansOf spans n t * n ∧ t + spansOf spans n t * n < spans + n := by
  have split := Nat.div_add_mod spans n
  have rest := Nat.mod_lt spans (Nat.zero_lt_of_lt lt)
  rw [Nat.mul_comm] at split
  unfold spansOf
  split_ifs with extra
  · rw [Nat.succ_mul]
    omega
  · rw [Nat.add_zero]
    omega

theorem spansOf_pos (lt : t < n) (lt' : t < spans) : 1 ≤ spansOf spans n t := by
  by_contra none
  have bound := (spansOf_bounds spans lt).1
  rw [Nat.lt_one_iff.1 (not_le.1 none), Nat.zero_mul] at bound
  omega

/-- The runs that the `t`-th shard gets are its runs among those of the iteration. -/
theorem spansOf_window (lt : t < n) (own : m % n = (a + t) % n) :
    a + t ≤ m ∧ m < a + t + spansOf spans n t * n ↔ a ≤ m ∧ m < a + spans := by
  obtain ⟨low, high⟩ := spansOf_bounds spans lt
  constructor
  · rintro ⟨start, stop⟩
    refine ⟨by omega, not_le.1 fun far => ?_⟩
    have := le_of_mod_eq (i := a + t + spansOf spans n t * n) (by rw [own, Nat.add_mul_mod_self_right]) far (by omega)
    omega
  · rintro ⟨start, stop⟩
    exact ⟨le_of_mod_eq own start (by omega), by omega⟩

end ExponentialSharder

end Spans

section Iteration

variable {p : Partitioner K} {pos : Positions K α} {layout : p.Layout} {s : ExponentialSharder K α} {a : Nat}

namespace ExponentialSharder

/-- The sharder has dealt with the runs of the range before the `a`-th of the ring. -/
structure Ready (pos : Positions K α) (layout : p.Layout) (s : ExponentialSharder K α) (a : Nat) : Prop where
  few : p.shardCount ≤ 2 ^ 31
  reach : lower (some (s.range.firstBound pos)) < s.range.upper
  first : s.firstShard = layout.index (s.range.startToken pos) % p.shardCount
  next : s.nextShard = a % p.shardCount
  after : layout.index (s.range.startToken pos) ≤ a
  due : ∀ t < p.shardCount, Due pos layout s.range (a + t) (s.lastEnds ((a + t) % p.shardCount))

/-- What an iteration finds for the `i`-th shard -/
def found (pos : Positions K α) (s : ExponentialSharder K α) (p : Partitioner K) (a i : Nat) : Option (NonwrappingRange α × Token K) :=
  s.look p pos (s.lastEnds ((a + i) % p.shardCount)) ((a + i) % p.shardCount) (spansOf s.spansPerIteration p.shardCount i)

/-- What it returns for that shard -/
def entry (pos : Positions K α) (s : ExponentialSharder K α) (p : Partitioner K) (a i : Nat) : Option (NonwrappingRange α × Nat) :=
  (found pos s p a i).map fun f => (f.1, (a + i) % p.shardCount)

/-- The shards that an iteration visits are different. -/
theorem Ready.visits (ready : Ready pos layout s a) {m : Nat} (le : m ≤ p.shardCount) :
    ((List.range m).foldl (s.visit p pos) (s.lastEnds, [])).2 = (List.range m).filterMap (entry pos s p a) ∧
    ∀ t < p.shardCount, ((List.range m).foldl (s.visit p pos) (s.lastEnds, [])).1 ((a + t) % p.shardCount) =
      if t < m then (found pos s p a t).elim (s.lastEnds ((a + t) % p.shardCount)) fun f => some f.2
      else s.lastEnds ((a + t) % p.shardCount) := by
  have few := ready.few
  have count := layout.shardCount_pos
  induction m with
  | zero => exact ⟨rfl, fun t _ => rfl⟩
  | succ m ih =>
    obtain ⟨out, ends⟩ := ih (Nat.le_of_succ_le le)
    have shard : (s.nextShard + m) % 2 ^ 32 % p.shardCount = (a + m) % p.shardCount := by
      have := Nat.mod_lt a count
      have small : a % p.shardCount + m < 2 ^ 32 := by omega
      rw [ready.next, Nat.mod_eq_of_lt small, Nat.mod_add_mod]
    have other : ∀ t < p.shardCount, t ≠ m → (a + t) % p.shardCount ≠ (a + m) % p.shardCount := fun t lt ne eq => by
      have := eq_of_mod_eq eq (Nat.le_add_right a t) (by omega) (Nat.le_add_right a m) (by omega)
      omega
    have same := ends m le
    rw [if_neg (lt_irrefl m)] at same
    have step : (List.range (m + 1)).foldl (s.visit p pos) (s.lastEnds, []) =
        match found pos s p a m with
        | none => (List.range m).foldl (s.visit p pos) (s.lastEnds, [])
        | some f => (Function.update ((List.range m).foldl (s.visit p pos) (s.lastEnds, [])).1 ((a + m) % p.shardCount) (some f.2),
          ((List.range m).foldl (s.visit p pos) (s.lastEnds, [])).2 ++ [(f.1, (a + m) % p.shardCount)]) := by
      rw [List.range_succ, List.foldl_append, List.foldl_cons, List.foldl_nil, visit, shard, same]
      rfl
    rw [step, range_succ, filterMap_append]
    cases eq : found pos s p a m with
    | none =>
      refine ⟨by simp [entry, eq, out], fun t lt => ?_⟩
      rw [ends t lt]
      rcases eq_or_ne t m with rfl | ne
      · rw [if_neg (lt_irrefl t), if_pos (Nat.lt_succ_self t), eq, elim_none]
      · exact if_congr (by omega) rfl rfl
    | some f =>
      refine ⟨by simp [entry, eq, out], fun t lt => ?_⟩
      dsimp only
      rcases eq_or_ne t m with rfl | ne
      · rw [Function.update_self, if_pos (Nat.lt_succ_self t), eq, elim_some]
      · rw [Function.update_of_ne (other t lt ne), ends t lt]
        exact if_congr (by omega) rfl rfl

variable (ready : Ready pos layout s a) (inverts : p.Inverts)

include ready inverts in
/-- What is found for a shard are its keys in the runs of the iteration. -/
theorem Ready.found {t : Nat} (lt : t < min p.shardCount s.spansPerIteration) : (found pos s p a t = none ∧
      Due pos layout s.range (a + t + spansOf s.spansPerIteration p.shardCount t * p.shardCount)
        (s.lastEnds ((a + t) % p.shardCount)) ∧
      ∀ x, s.range.contains x = true → pos.token x ≠ ⊤ → layout.index (pos.token x) < a + t) ∨
    ∃ both boundary, found pos s p a t = some (both, boundary) ∧
      Due pos layout s.range (a + t + spansOf s.spansPerIteration p.shardCount t * p.shardCount) (some boundary) ∧
      (∀ x, both.contains x = true → s.range.contains x = true) ∧
      ∀ x, pos.token x ≠ ⊤ → layout.index (pos.token x) % p.shardCount = (a + t) % p.shardCount →
        (both.contains x = true ↔ s.range.contains x = true ∧ a ≤ layout.index (pos.token x) ∧
          layout.index (pos.token x) < a + s.spansPerIteration) := by
  obtain ⟨lt, lt'⟩ := lt_min_iff.1 lt
  have low : layout.index (s.range.startToken pos) ≤ a + t := ready.after.trans (Nat.le_add_right a t)
  refine ((ready.due t lt).look layout inverts ready.reach ready.first low (spansOf_pos lt lt')).imp_right ?_
  rintro ⟨both, boundary, eq, due, inside, keys⟩
  exact ⟨both, boundary, eq, due, inside, fun x inner own => by rw [keys x inner own, spansOf_window lt own]⟩

include ready inverts in
/-- After an iteration the sharder has dealt with as many runs more. -/
theorem Ready.step (small : s.spansPerIteration ≤ 2 ^ 31) {spans : Nat} : Ready pos layout { s with
      spansPerIteration := spans
      nextShard := (s.nextShard + s.spansPerIteration) % 2 ^ 32 % p.shardCount
      lastEnds := ((List.range (min p.shardCount s.spansPerIteration)).foldl (s.visit p pos) (s.lastEnds, [])).1 }
      (a + s.spansPerIteration) := by
  have count := layout.shardCount_pos
  refine ⟨ready.few, ready.reach, ready.first, ?_, ready.after.trans (Nat.le_add_right _ _), fun t lt => ?_⟩
  · have below := Nat.mod_lt a count
    have few := ready.few
    have small : a % p.shardCount + s.spansPerIteration < 2 ^ 32 := by omega
    rw [ready.next, Nat.mod_eq_of_lt small, Nat.mod_add_mod]
  · -- where the shard was in the iteration
    have was : (s.spansPerIteration + t) % p.shardCount < p.shardCount := Nat.mod_lt _ count
    have shard : (a + s.spansPerIteration + t) % p.shardCount =
        (a + (s.spansPerIteration + t) % p.shardCount) % p.shardCount := by
      rw [Nat.add_mod_mod, Nat.add_assoc]
    have ends := (ready.visits (min_le_left p.shardCount s.spansPerIteration)).2 _ was
    dsimp only
    rw [shard, ends]
    generalize (s.spansPerIteration + t) % p.shardCount = i at shard was ends ⊢
    split
    next visited =>
      obtain ⟨low, high⟩ := spansOf_bounds s.spansPerIteration was
      have same : a + s.spansPerIteration + t = a + i + spansOf s.spansPerIteration p.shardCount i * p.shardCount := by
        refine eq_of_mod_eq (a := a + s.spansPerIteration) (n := p.shardCount) ?_ (by omega) (by omega) (by omega) (by omega)
        rw [shard, Nat.add_mul_mod_self_right]
      rw [same]
      obtain ⟨eq, due, -⟩ | ⟨both, boundary, eq, due, -⟩ := ready.found inverts visited
      · rwa [eq]
      · rwa [eq]
    next spared =>
      have same : a + s.spansPerIteration + t = a + i := by
        refine eq_of_mod_eq (a := a + s.spansPerIteration) shard.symm ?_ (by omega) (by omega) (by omega)
        omega
      rw [same]
      exact ready.due i was

end ExponentialSharder

end Iteration

section Iterations

variable {p : Partitioner K} {pos : Positions K α} {layout : p.Layout} {s : ExponentialSharder K α} {range : NonwrappingRange α}
  {a b c : Nat} {res : ExponentialSharderResult α} {out : List (ExponentialSharderResult α)} {x : α}

namespace ExponentialSharder

/-- The entry contains the position, and has the label of its shard. -/
def holds (p : Partitioner K) (pos : Positions K α) (x : α) (e : NonwrappingRange α × Nat) : Bool :=
  decide (e.2 = p.shardOf (pos.token x)) && e.1.contains x

/-- The iterations deal with the runs from the `a`-th up to the `b`-th. -/
structure Sharded (pos : Positions K α) (layout : p.Layout) (range : NonwrappingRange α) (a b : Nat)
    (out : List (ExponentialSharderResult α)) : Prop where
  inside : ∀ res ∈ out, ∀ e ∈ res.perShardRanges, ∀ x, e.1.contains x = true → range.contains x = true
  window : ∀ res ∈ out, ∀ e ∈ res.perShardRanges, ∀ x, pos.token x ≠ ⊤ → holds p pos x e = true →
    a ≤ layout.index (pos.token x) ∧ layout.index (pos.token x) < b
  once : ∀ x, pos.token x ≠ ⊤ → range.contains x = true → a ≤ layout.index (pos.token x) → layout.index (pos.token x) < b →
    (out.flatMap (·.perShardRanges)).countP (holds p pos x) = 1
  sorted : out.Pairwise fun res res' => ∀ e ∈ res.perShardRanges, ∀ e' ∈ res'.perShardRanges, ∀ x y, pos.token x ≠ ⊤ →
    pos.token y ≠ ⊤ → holds p pos x e = true → holds p pos y e' = true → pos.token x < pos.token y
  inorder : ∀ res ∈ out, res.inorder = true → res.perShardRanges.Pairwise fun e e' => ∀ x y, pos.token x ≠ ⊤ →
    pos.token y ≠ ⊤ → holds p pos x e = true → holds p pos y e' = true → pos.token x < pos.token y

theorem sharded_nil (beyond : ∀ x, range.contains x = true → pos.token x ≠ ⊤ → a ≤ layout.index (pos.token x) →
    b ≤ layout.index (pos.token x)) : Sharded pos layout range a b [] where
  inside := nofun
  window := nofun
  once x inner inside low high := absurd high (not_lt.2 (beyond x inside inner low))
  sorted := .nil
  inorder := nofun

theorem Sharded.countP_eq_zero (sharded : Sharded pos layout range a b out) (inner : pos.token x ≠ ⊤)
    (outside : ¬ (a ≤ layout.index (pos.token x) ∧ layout.index (pos.token x) < b)) :
    (out.flatMap (·.perShardRanges)).countP (holds p pos x) = 0 := by
  rw [List.countP_eq_zero]
  intro e he held
  obtain ⟨res, hres, he⟩ := List.mem_flatMap.1 he
  exact outside (sharded.window res hres e he x inner held)

theorem Sharded.cons (one : Sharded pos layout range a b [res]) (rest : Sharded pos layout range b c out) (le : a ≤ b) (le' : b ≤ c) :
    Sharded pos layout range a c (res :: out) where
  inside := forall_mem_cons.2 ⟨one.inside res mem_cons_self, rest.inside⟩
  window := by
    refine forall_mem_cons.2 ⟨fun e he x inner held => ?_, fun res' mem e he x inner held => ?_⟩
    · obtain ⟨low, high⟩ := one.window res mem_cons_self e he x inner held
      exact ⟨low, high.trans_le le'⟩
    · obtain ⟨low, high⟩ := rest.window res' mem e he x inner held
      exact ⟨le.trans low, high⟩
  once x inner inside low high := by
    have single : [res].flatMap (·.perShardRanges) = res.perShardRanges := append_nil _
    rw [flatMap_cons, countP_append, ← single]
    rcases Nat.lt_or_ge (layout.index (pos.token x)) b with before | after
    · rw [one.once x inner inside low before, rest.countP_eq_zero inner fun h => absurd before (not_lt.2 h.1)]
    · rw [rest.once x inner inside after high, one.countP_eq_zero inner fun h => absurd h.2 (not_lt.2 after)]
  sorted := by
    refine pairwise_cons.2 ⟨fun res' mem e he e' he' x y inner inner' held held' => layout.lt_of_index_lt ?_, rest.sorted⟩
    have before := (one.window res mem_cons_self e he x inner held).2
    have after := (rest.window res' mem e' he' y inner' held').1
    exact before.trans_le after
  inorder := forall_mem_cons.2 ⟨one.inorder res mem_cons_self, rest.inorder⟩

variable (ready : Ready pos layout s a) (inverts : p.Inverts)

include ready inverts in
/-- What an entry holds are keys of its shard in the runs of the iteration. -/
theorem Ready.entry {t : Nat} {e : NonwrappingRange α × Nat} (lt : t < min p.shardCount s.spansPerIteration)
    (eq : entry pos s p a t = some e) : (∀ x, e.1.contains x = true → s.range.contains x = true) ∧
      ∀ x, pos.token x ≠ ⊤ → holds p pos x e = true → layout.index (pos.token x) % p.shardCount = (a + t) % p.shardCount ∧
        a ≤ layout.index (pos.token x) ∧ layout.index (pos.token x) < a + s.spansPerIteration := by
  rw [ExponentialSharder.entry] at eq
  obtain ⟨none, -⟩ | ⟨both, boundary, found, -, inside, keys⟩ := ready.found inverts lt
  · rw [none] at eq
    cases eq
  · rw [found] at eq
    cases eq
    refine ⟨inside, fun x inner held => ?_⟩
    rw [holds, Bool.and_eq_true, decide_eq_true_iff, layout.shardOf_eq] at held
    exact ⟨held.1.symm, ((keys x inner held.1.symm).1 held.2).2⟩

include ready inverts in
/-- A key in the runs of the iteration is held by the entry of its shard. -/
theorem Ready.held {t : Nat} (lt : t < min p.shardCount s.spansPerIteration) (inner : pos.token x ≠ ⊤) (inside : s.range.contains x = true)
    (low : a + t ≤ layout.index (pos.token x)) (high : layout.index (pos.token x) < a + s.spansPerIteration)
    (own : layout.index (pos.token x) % p.shardCount = (a + t) % p.shardCount) :
    ∃ e, ExponentialSharder.entry pos s p a t = some e ∧ holds p pos x e = true := by
  obtain ⟨-, -, none⟩ | ⟨both, boundary, found, -, -, keys⟩ := ready.found inverts lt
  · exact absurd (none x inside inner) (not_lt.2 low)
  · refine ⟨_, congrArg (Option.map _) found, ?_⟩
    have contains := (keys x inner own).2 ⟨inside, (Nat.le_add_right a t).trans low, high⟩
    rw [holds, contains, Bool.and_true, decide_eq_true_iff, layout.shardOf_eq, own]

include ready inverts in
/-- What an iteration returns deals with its runs. -/
theorem Ready.sharded : Sharded pos layout s.range a (a + s.spansPerIteration)
    [⟨(List.range (min p.shardCount s.spansPerIteration)).filterMap (ExponentialSharder.entry pos s p a),
      decide (s.spansPerIteration ≤ p.shardCount)⟩] := by
  have single : ∀ {q : ExponentialSharderResult α → Prop} {r}, q r → ∀ res ∈ [r], q res := fun h res mem =>
    mem_singleton.1 mem ▸ h
  refine ⟨single fun e he => ?_, single fun e he x inner held => ?_, fun x inner inside low high => ?_, pairwise_singleton _ _,
    single fun inorder => ?_⟩
  · obtain ⟨t, ht, eq⟩ := mem_filterMap.1 he
    exact (ready.entry inverts (mem_range.1 ht) eq).1
  · obtain ⟨t, ht, eq⟩ := mem_filterMap.1 he
    exact ((ready.entry inverts (mem_range.1 ht) eq).2 x inner held).2
  · -- the key's shard has its turn once
    have turn : (layout.index (pos.token x) - a) % p.shardCount < p.shardCount := Nat.mod_lt _ layout.shardCount_pos
    have shard : layout.index (pos.token x) % p.shardCount =
        (a + (layout.index (pos.token x) - a) % p.shardCount) % p.shardCount := by
      rw [Nat.add_mod_mod, Nat.add_sub_cancel' low]
    have upto := Nat.mod_le (layout.index (pos.token x) - a) p.shardCount
    generalize (layout.index (pos.token x) - a) % p.shardCount = t at turn shard upto
    have visited : t < min p.shardCount s.spansPerIteration := lt_min turn (by omega)
    have only : ∀ i ∈ List.range (min p.shardCount s.spansPerIteration),
        ((ExponentialSharder.entry pos s p a i).map (holds p pos x)).getD false = true ↔ (i == t) = true := by
      intro i hi
      rw [beq_iff_eq]
      have lt := mem_range.1 hi
      constructor
      · intro held
        cases eq : ExponentialSharder.entry pos s p a i with
        | none => simp [eq] at held
        | some e =>
          rw [eq] at held
          have own := ((ready.entry inverts lt eq).2 x inner held).1
          have := eq_of_mod_eq (a := a) (own.symm.trans shard) (by omega) (by omega) (by omega) (by omega)
          omega
      · rintro rfl
        obtain ⟨e, eq, held⟩ := ready.held inverts visited inner inside (by omega) high shard
        rw [eq]
        exact held
    rw [flatMap_cons, flatMap_nil, append_nil, countP_filterMap, countP_congr only]
    exact (count_range).trans (if_pos visited)
  · -- no shard has a second turn
    have few : s.spansPerIteration ≤ p.shardCount := of_decide_eq_true inorder
    rw [pairwise_filterMap]
    refine pairwise_lt_range.imp_of_mem fun {i j} hi hj lt e eq e' eq' x y inner inner' held held' => layout.lt_of_index_lt ?_
    have hi := mem_range.1 hi
    have hj := mem_range.1 hj
    have first := (ready.entry inverts hi eq).2 x inner held
    have second := (ready.entry inverts hj eq').2 y inner' held'
    have one : layout.index (pos.token x) = a + i := eq_of_mod_eq (a := a) first.1.symm (by omega) (by omega) (by omega) (by omega)
    have two : layout.index (pos.token y) = a + j := eq_of_mod_eq (a := a) second.1.symm (by omega) (by omega) (by omega) (by omega)
    omega

include ready inverts in
/-- One iteration: it deals with its runs, or there is nothing of the range left. -/
theorem Ready.next_cases (small : s.spansPerIteration ≤ 2 ^ 31) (some : 1 ≤ s.spansPerIteration) :
    (∃ s', ExponentialSharder.next p pos s = (none, s') ∧
      ∀ x, s.range.contains x = true → pos.token x ≠ ⊤ → layout.index (pos.token x) < a) ∨
    ∃ res s', ExponentialSharder.next p pos s = (Option.some res, s') ∧ Ready pos layout s' (a + s.spansPerIteration) ∧
      s'.range = s.range ∧ s'.spansPerIteration = s.spansPerIteration * 2 % 2 ^ 32 ∧
      Sharded pos layout s.range a (a + s.spansPerIteration) [res] := by
  have visits := (ready.visits (min_le_left p.shardCount s.spansPerIteration)).1
  unfold ExponentialSharder.next
  dsimp only
  split
  next empty =>
    refine .inl ⟨_, rfl, ?_⟩
    have lt : 0 < min p.shardCount s.spansPerIteration := lt_min layout.shardCount_pos some
    have none : ExponentialSharder.entry pos s p a 0 = none := by
      rw [List.isEmpty_iff, visits, List.filterMap_eq_nil_iff] at empty
      exact empty 0 (List.mem_range.2 lt)
    obtain ⟨-, -, beyond⟩ | ⟨both, boundary, found, -⟩ := ready.found inverts lt
    · exact beyond
    · rw [ExponentialSharder.entry, found] at none
      cases none
  · refine .inr ⟨_, _, rfl, ready.step inverts small, rfl, rfl, ?_⟩
    rw [visits]
    exact ready.sharded inverts

/-- The iterations that are left, of which there are at most 32: then the number of spans has overflowed. -/
theorem Ready.yields (inverts : p.Inverts) {k : Nat} (le : k ≤ 32)
    (ready : Ready pos layout s (layout.index (s.range.startToken pos) + (2 ^ k - 1))) (spans : s.spansPerIteration = 2 ^ k % 2 ^ 32) :
    ∃ out, Yields (fun s => some (ExponentialSharder.next p pos s)) s out ∧
      Sharded pos layout s.range (layout.index (s.range.startToken pos) + (2 ^ k - 1))
        (layout.index (s.range.startToken pos) + (2 ^ 32 - 1)) out := by
  induction left : 32 - k generalizing s k with
  | zero =>
    obtain rfl : k = 32 := by omega
    refine ⟨[], .of_fst_none (next_fst_none ?_), sharded_nil fun x _ _ le => le⟩
    rw [spans, Nat.mod_self, Nat.min_zero]
    rfl
  | succ left ih =>
    have lt : k < 32 := by omega
    have power : 2 ^ k ≤ 2 ^ 31 := Nat.pow_le_pow_right (by decide) (by omega)
    have pos' := Nat.two_pow_pos k
    have spans : s.spansPerIteration = 2 ^ k := by rw [spans, Nat.mod_eq_of_lt (by omega)]
    obtain ⟨s', eq, beyond⟩ | ⟨res, s', eq, ready', range, spans', one⟩ := ready.next_cases inverts (spans ▸ power) (spans ▸ pos')
    · refine ⟨[], .done (congrArg some eq), sharded_nil fun x inside inner le => ?_⟩
      exact absurd (beyond x inside inner) (not_lt.2 le)
    · have double : layout.index (s.range.startToken pos) + (2 ^ k - 1) + s.spansPerIteration =
          layout.index (s.range.startToken pos) + (2 ^ (k + 1) - 1) := by
        omega
      rw [double] at ready' one
      rw [spans, ← Nat.pow_succ] at spans'
      obtain ⟨out, yields, rest⟩ := ih (by omega) (range ▸ ready') spans' (by omega)
      rw [range] at rest
      have last : 2 ^ (k + 1) ≤ 2 ^ 32 := Nat.pow_le_pow_right (by decide) lt
      exact ⟨res :: out, .more (congrArg some eq) yields, one.cons rest (by omega) (by omega)⟩

theorem range_make : (make p pos range).range = range := by
  unfold make
  split <;> rfl

theorem ready_make (minimum : p.shardOf ⊥ = 0) (few : p.shardCount ≤ 2 ^ 31)
    (reach : lower (some (range.firstBound pos)) < range.upper) :
    Ready pos layout (make p pos range) (layout.index (range.startToken pos)) ∧ (make p pos range).spansPerIteration = 1 := by
  have shard : (range.start.elim 0 fun b => p.shardOf (pos.token b.value)) = layout.index (range.startToken pos) % p.shardCount := by
    rw [RingPositionRangeSharder.shard_eq minimum, layout.shardOf_eq]
  have make_eq : make p pos range = {
      range := range
      firstShard := layout.index (range.startToken pos) % p.shardCount
      nextShard := layout.index (range.startToken pos) % p.shardCount } := by
    rw [← shard, make]
    cases range.start <;> rfl
  rw [make_eq]
  exact ⟨⟨few, reach, rfl, rfl, le_rfl, fun t lt => Nat.add_lt_add_left lt _⟩, rfl⟩

/-- What the sharder returns deals with the runs of the range, as far as the spans can be counted. -/
theorem exists_sharded (layout : p.Layout) (inverts : p.Inverts) (minimum : p.shardOf ⊥ = 0) (few : p.shardCount ≤ 2 ^ 31) :
    ∃ out, Yields (fun s => some (ExponentialSharder.next p pos s)) (make p pos range) out ∧
      Sharded pos layout range (layout.index (range.startToken pos)) (layout.index (range.startToken pos) + (2 ^ 32 - 1)) out := by
  rcases lt_or_ge (lower (some (range.firstBound pos))) range.upper with reach | far
  · obtain ⟨ready, one⟩ := @ready_make K α _ _ p pos layout range minimum few reach
    have ready' : Ready pos layout (make p pos range) (layout.index ((make p pos range).range.startToken pos) + (2 ^ 0 - 1)) := by
      rw [range_make]
      exact ready
    obtain ⟨out, yields, sharded⟩ := ready'.yields inverts (Nat.zero_le 32) one
    rw [range_make] at sharded
    exact ⟨out, yields, sharded⟩
  · -- the range ends before it starts, and so does what is found for the first shard
    refine ⟨[], .of_fst_none (next_fst_none ?_), sharded_nil fun x inside _ _ => ?_⟩
    · have look : ∀ shard spans, (make p pos range).look p pos none shard spans = none := fun shard spans => by
        rw [ExponentialSharder.look, if_neg nofun, range_make]
        exact congrArg (Option.map _) (intersection_eq_none (lower_le_firstBound pos) far)
      have start : (make p pos range).lastEnds = (fun _ => none) ∧ (make p pos range).spansPerIteration = 1 := by
        unfold make
        split <;> exact ⟨rfl, rfl⟩
      rw [start.1, start.2, min_eq_right layout.shardCount_pos, List.range_one, List.foldl_cons, List.foldl_nil, visit, look]
    · have := (firstBound_le pos inside).trans_lt (contains_iff.1 inside).2
      exact absurd this (not_lt.2 far)

end ExponentialSharder

end Iterations

/-- How many runs start between two tokens. -/
theorem Partitioner.Layout.encard_between {p : Partitioner K} (layout : p.Layout) (t u : Token K) :
    { b | (∃ s, p.RunStart s b) ∧ t < b ∧ b ≤ u }.encard = (layout.index u - layout.index t : Nat) := by
  have eq : { b | (∃ s, p.RunStart s b) ∧ t < b ∧ b ≤ u } = layout.start '' (Finset.Ioc (layout.index t) (layout.index u)) := by
    ext b
    simp only [Set.mem_ofPred_eq, layout.runStart_iff, Set.mem_image, Finset.coe_Ioc, Set.mem_Ioc]
    constructor
    · rintro ⟨⟨s, i, -, lt, rfl, -⟩, after, upto⟩
      exact ⟨i, ⟨(layout.lt_start lt).1 after, (layout.start_le lt).1 upto⟩, rfl⟩
    · rintro ⟨i, ⟨after, upto⟩, rfl⟩
      have lt := upto.trans_lt (layout.index_lt u)
      exact ⟨⟨_, i, by omega, lt, rfl, rfl⟩, (layout.lt_start lt).2 after, (layout.start_le lt).2 upto⟩
  have inj : Set.InjOn layout.start (Finset.Ioc (layout.index t) (layout.index u)) := fun i hi j hj same => by
    rw [Finset.coe_Ioc, Set.mem_Ioc] at hi hj
    have lt := hi.2.trans_lt (layout.index_lt u)
    have lt' := hj.2.trans_lt (layout.index_lt u)
    rw [← layout.index_start lt, same, layout.index_start lt']
  rw [eq, inj.encard_image, Set.encard_coe_eq_coe_finsetCard, Nat.card_Ioc]

section InOrder

open ExponentialSharder

variable {P : Type} [LinearOrder P]

open ExponentialSharder (next)

/-- When the shards take turns, a range is gone through in order. Unless 2 ^ 32 - 1 runs start in the range up to it, a
key is found exactly once with the label of its shard; nothing is found outside the range; the keys of an iteration come
before those of the next; and in an iteration that is marked `inorder`, those of a shard come before those of the next. -/
theorem exponential_sharding_in_order {p : Partitioner K} (inverts : p.Inverts) (turns : p.TakesTurns)
    (few : p.shardCount ≤ 2 ^ 31) (range : NonwrappingRange (RingPosition K P)) :
    ∃ out, Yields (fun s => some (next p .ring s)) (make p .ring range) out ∧
      (∀ k key, range.contains (decoratedKey k key) = true →
        { b | (∃ s, p.RunStart s b) ∧ range.startToken .ring < b ∧ b ≤ keyToken k }.encard < (2 ^ 32 - 1 : Nat) →
        (out.flatMap (·.perShardRanges)).countP (holds p .ring (decoratedKey k key)) = 1) ∧
      (∀ res ∈ out, ∀ e ∈ res.perShardRanges, ∀ x, e.1.contains x = true → range.contains x = true) ∧
      (out.Pairwise fun res res' => ∀ e ∈ res.perShardRanges, ∀ e' ∈ res'.perShardRanges, ∀ k key k' key',
        holds p .ring (decoratedKey k key) e = true → holds p .ring (decoratedKey k' key') e' = true →
        decoratedKey k key < decoratedKey k' key') ∧
      ∀ res ∈ out, res.inorder = true → res.perShardRanges.Pairwise fun e e' => ∀ k key k' key',
        holds p .ring (decoratedKey k key) e = true → holds p .ring (decoratedKey k' key') e' = true →
        decoratedKey k key < decoratedKey k' key' := by
  obtain ⟨layout⟩ := turns.exists_layout inverts
  have inner (k : K) : keyToken k ≠ ⊤ := by simp [keyToken]
  have later {k k' : K} {key key' : P} lt : decoratedKey k key < decoratedKey k' key' :=
    Prod.Lex.toLex_lt_toLex.2 (.inl lt)
  obtain ⟨out, yields, sharded⟩ := @exists_sharded K _ _ _ p .ring range layout inverts turns.minimum few
  refine ⟨out, yields, fun k key inside near => ?_, sharded.inside, ?_, fun res mem inorder => ?_⟩
  · have start := layout.index_mono ((Positions.ring).startToken_le (contains_iff.1 inside).1)
    rw [layout.encard_between, Nat.cast_lt] at near
    refine sharded.once _ (inner k) inside start ?_
    change layout.index (keyToken k) < _
    omega
  · exact sharded.sorted.imp fun ordered e he e' he' k key k' key' held held' =>
      later (ordered e he e' he' (decoratedKey k key) (decoratedKey k' key') (inner k) (inner k') held held')
  · exact (sharded.inorder res mem inorder).imp fun ordered k key k' key' held held' =>
      later (ordered (decoratedKey k key) (decoratedKey k' key') (inner k) (inner k') held held')

open Murmur3Partitioner (make make_sound)

/-- The whole ring of a murmur3 partitioner with three shards, with numbers for keys. -/
theorem exponential_sharding_murmur3 : ∃ p, make 2 3 12 = some p ∧ ∃ out,
    Yields (fun s => some (next p.toPartitioner .ring s))
      (make p.toPartitioner (.ring : Positions _ (RingPosition _ Nat)) {}) out ∧
    ∀ k key, (out.flatMap (·.perShardRanges)).countP (holds p.toPartitioner .ring (decoratedKey k key)) = 1 := by
  obtain ⟨p, made, sound, three⟩ := @make_sound 3 12 2 (by decide) (by decide) (by decide) le_rfl
  have runs : p.runs = 3 * 2 ^ 12 := by
    cases made
    rfl
  have few : p.toPartitioner.shardCount ≤ 2 ^ 31 := by
    change p.shardCount ≤ _
    omega
  obtain ⟨out, yields, once, -⟩ := @exponential_sharding_in_order _ _ Nat _ _ sound.inverts sound.layout.takesTurns few {}
  refine ⟨p, made, out, yields, fun k key => once k key rfl ?_⟩
  have lt : sound.layout.index (keyToken k) < p.runs := sound.layout.index_lt _
  rw [sound.layout.encard_between, Nat.cast_lt]
  omega

open Partitioner (outOfTurn secondFirst)

/-- Where the shards do not take turns, or the second one has the minimum token, the keys of an iteration that is marked
`inorder` are not in order. With more runs than can be counted, the last key is lost. -/
theorem exponential_sharding_out_of_order : (outOfTurn.Inverts ∧ ∃ res e e',
      (next outOfTurn .ring
        (next outOfTurn .ring (make outOfTurn .ring {})).2).1 = some res ∧
      res.inorder = true ∧ res.perShardRanges = [e, e'] ∧
      holds outOfTurn .ring (decoratedKey 1 () : RingPosition (Fin 2) Unit) e = true ∧
      holds outOfTurn .ring (decoratedKey 0 ()) e' = true) ∧
    (secondFirst.Inverts ∧ ∃ res e e', (next secondFirst .ring
        (next secondFirst .ring (make secondFirst .ring {})).2).1 = some res ∧
      res.inorder = true ∧ res.perShardRanges = [e, e'] ∧
      holds secondFirst .ring (decoratedKey 2 () : RingPosition (Fin 3) Unit) e = true ∧
      holds secondFirst .ring (decoratedKey 1 ()) e' = true) ∧
    ∃ p, make 2 2 31 = some p ∧ p.toPartitioner.Inverts ∧ p.toPartitioner.TakesTurns ∧ ∃ out,
      Yields (fun s => some (next p.toPartitioner .ring s))
        (make p.toPartitioner (.ring : Positions _ (RingPosition _ Unit)) {}) out ∧
      (out.flatMap (·.perShardRanges)).countP
        (holds p.toPartitioner .ring (decoratedKey (Murmur3Key.bias (2 ^ 64 - 1)) ())) = 0 := by
  refine ⟨⟨Partitioner.outOfTurn_inverts, _, _, _, rfl, by decide, rfl, by decide, by decide⟩,
    ⟨Partitioner.secondFirst_inverts, _, _, _, rfl, by decide, rfl, by decide, by decide⟩, ?_⟩
  obtain ⟨p, made, sound, two⟩ := @make_sound 2 31 2 (by decide) (by decide) (by decide) le_rfl
  have few : p.toPartitioner.shardCount ≤ 2 ^ 31 := by
    change p.shardCount ≤ _
    omega
  obtain ⟨out, yields, sharded⟩ := @exists_sharded Murmur3Key (RingPosition Murmur3Key Unit) _ _ p.toPartitioner .ring {} sound.layout
    sound.inverts sound.layout.takesTurns.minimum few
  refine ⟨p, made, sound.inverts, sound.layout.takesTurns, out, yields, sharded.countP_eq_zero ?_ ?_⟩
  · simp [Positions.ring, decoratedKey, keyToken]
  have last : p.runIndex (keyToken (Murmur3Key.bias (2 ^ 64 - 1))) = 2 ^ 32 - 1 := by
    cases made
    decide +kernel
  rintro ⟨-, lt⟩
  change p.runIndex (keyToken (Murmur3Key.bias (2 ^ 64 - 1))) < p.runIndex ⊥ + (2 ^ 32 - 1) at lt
  rw [last] at lt
  change 2 ^ 32 - 1 < 0 + (2 ^ 32 - 1) at lt
  omega

end InOrder

end ScyllaMoon.Dht
