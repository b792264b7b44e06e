import ScyllaMoon.Dht.Range
import ScyllaMoon.Lib.Sorted

/-!
# The algebra of ranges

`intersection`, `split_after`, `trim_front` and `deoverlap` of `nonwrapping_range`. `deoverlap` sorts the ranges by
their starts and merges those that overlap, from left to right. In a dense order without end points, the places
between two cuts are points.
-/

namespace ScyllaMoon.Dht

open Lib List

variable {α : Type} [LinearOrder α]

/-- In a dense order without end points, there is a point between two cuts. -/
theorem Cut.exists_point [DenselyOrdered α] [NoMinOrder α] [NoMaxOrder α] [Nonempty α] {c d : Cut α} (lt : c < d) :
    ∃ x, c ≤ before x ∧ before x < d := by
  rcases c with _ | _ | ⟨x, _ | _⟩
  · rcases d with _ | _ | ⟨y, _ | _⟩
    · exact absurd lt (lt_irrefl _)
    · exact ⟨Classical.arbitrary α, bot_le, before_lt_top⟩
    · obtain ⟨z, hz⟩ := exists_lt y
      exact ⟨z, bot_le, before_lt_before.2 hz⟩
    · exact ⟨y, bot_le, before_lt_after.2 le_rfl⟩
  · exact absurd lt not_top_lt
  · exact ⟨x, le_rfl, lt⟩
  · rcases d with _ | _ | ⟨y, _ | _⟩
    · exact absurd lt not_lt_bot
    · obtain ⟨z, hz⟩ := exists_gt x
      exact ⟨z, after_le_before.2 hz, before_lt_top⟩
    · obtain ⟨z, hxz, hzy⟩ := exists_between (after_lt_before.1 lt)
      exact ⟨z, after_le_before.2 hxz, before_lt_before.2 hzy⟩
    · exact ⟨y, after_le_before.2 (after_lt_after.1 lt), before_lt_after.2 le_rfl⟩

namespace NonwrappingRange

/-- `split_after(split_point)` -/
def splitAfter (r : NonwrappingRange α) (splitPoint : α) : Option (NonwrappingRange α) :=
  if r.stop.any fun e => decide (e.value ≤ splitPoint) then none
  else if r.start.any fun s => decide (splitPoint < s.value) then some r
  else some { start := some ⟨splitPoint, false⟩, last := r.stop }

/-- `trim_front(start)` -/
def trimFront (r : NonwrappingRange α) (start : Option (RangeBound α)) : Option (NonwrappingRange α) :=
  r.intersection { start := start }

open RangeBound (endReaches endsNotBefore endReaches_iff)

/-- The loop of `deoverlap` -/
def deoverlapLoop : NonwrappingRange α → List (NonwrappingRange α) → List (NonwrappingRange α)
  | current, [] => [current]
  | current, r :: ranges =>
    if endReaches r.stop current.start && endsNotBefore current.stop r.stop then
      deoverlapLoop current ranges
    else if endReaches current.stop r.start then
      deoverlapLoop { start := current.start, last := r.stop } ranges
    else current :: deoverlapLoop r ranges

/-- What `deoverlap` sorts by -/
abbrev startsFirst (r other : NonwrappingRange α) : Bool := RangeBound.startsBefore r.start other.start

/-- `deoverlap(ranges)` -/
def deoverlap (sort : StdSort (startsFirst (α := α))) (ranges : List (NonwrappingRange α)) : List (NonwrappingRange α) :=
  if ranges.length ≤ 1 then ranges
  else match sort.run ranges with
    | [] => []
    | current :: rest => deoverlapLoop current rest

variable {r other current : NonwrappingRange α} {ranges : List (NonwrappingRange α)} {x p : α}

theorem lower_lt_upper (h : r.contains x = true) : r.lower < r.upper :=
  (contains_iff.1 h).1.trans_lt (contains_iff.1 h).2

theorem before_le_lower {s : RangeBound α} (h : r.start = some s) : Cut.before s.value ≤ r.lower := by
  rw [lower, h]
  rcases s with ⟨v, _ | _⟩ <;> simp [RangeBound.lower]

theorem lower_le_after {s : RangeBound α} (h : r.start = some s) : r.lower ≤ Cut.after s.value := by
  rw [lower, h]
  rcases s with ⟨v, _ | _⟩ <;> simp [RangeBound.lower]

theorem upper_le_after {e : RangeBound α} (h : r.stop = some e) : r.upper ≤ Cut.after e.value := by
  rw [upper, h]
  rcases e with ⟨v, _ | _⟩ <;> simp [RangeBound.upper]

theorem not_startsFirst_iff : startsFirst other r = false ↔ r.lower ≤ other.lower := by
  rw [← not_lt, ← Bool.not_eq_true]
  exact not_congr RangeBound.startsBefore_iff

/-- The list is what the loop makes of the current range and those behind it. -/
structure Merged (current : NonwrappingRange α) (ranges merged : List (NonwrappingRange α)) : Prop where
  apart : merged.Pairwise fun r other => r.upper ≤ other.lower
  after : ∀ r ∈ merged, current.lower ≤ r.lower
  points : ∀ x, (∃ r ∈ merged, r.contains x = true) ↔ current.contains x = true ∨ ∃ r ∈ ranges, r.contains x = true

/-- The ranges come in the order of their starts, and none is empty. -/
theorem merged_deoverlapLoop (proper : ∀ r ∈ ranges, r.lower < r.upper) (starts : ∀ r ∈ ranges, current.lower ≤ r.lower)
    (sorted : ranges.Pairwise fun r other => r.lower ≤ other.lower) : Merged current ranges (deoverlapLoop current ranges) := by
  induction ranges generalizing current with
  | nil =>
    refine ⟨pairwise_singleton _ _, forall_mem_singleton.2 le_rfl, fun x => ?_⟩
    simp [deoverlapLoop]
  | cons r ranges ih =>
    obtain ⟨properHere, proper⟩ := forall_mem_cons.1 proper
    obtain ⟨start, starts⟩ := forall_mem_cons.1 starts
    obtain ⟨first, sorted⟩ := pairwise_cons.1 sorted
    have reaches : endReaches r.stop current.start = true := endReaches_iff.2 (start.trans_lt properHere)
    have ends : endsNotBefore current.stop r.stop = true ↔ r.upper ≤ current.upper := RangeBound.endsNotBefore_iff
    have touches : endReaches current.stop r.start = true ↔ r.lower < current.upper := endReaches_iff
    unfold deoverlapLoop
    rw [reaches, Bool.true_and]
    simp only [ends, touches]
    split
    next inside =>
      have merged := ih proper starts sorted
      refine ⟨merged.apart, merged.after, fun x => ?_⟩
      -- the range adds nothing to the current one
      have sub : r.contains x = true → current.contains x = true := fun h => by
        obtain ⟨low, high⟩ := contains_iff.1 h
        exact contains_iff.2 ⟨start.trans low, high.trans_le inside⟩
      rw [merged.points]
      simp only [mem_cons, exists_eq_or_imp]
      tauto
    next beyond =>
      split
      next joined =>
        have merged := @ih { start := current.start, last := r.stop } proper starts sorted
        refine ⟨merged.apart, merged.after, fun x => ?_⟩
        have whole : NonwrappingRange.contains { start := current.start, last := r.stop } x = true ↔
            current.contains x = true ∨ r.contains x = true := by
          rw [contains_iff, contains_iff, contains_iff]
          constructor
          · intro ⟨low, high⟩
            rcases lt_or_ge (Cut.before x) current.upper with lt | ge
            · exact .inl ⟨low, lt⟩
            · exact .inr ⟨joined.le.trans ge, high⟩
          · rintro (⟨low, high⟩ | ⟨low, high⟩)
            · exact ⟨low, high.trans (not_le.1 beyond)⟩
            · exact ⟨start.trans low, high⟩
        simp only [merged.points, whole, mem_cons, exists_eq_or_imp, or_assoc]
      next far =>
        have merged := ih proper first sorted
        refine ⟨pairwise_cons.2 ⟨fun s hs => (not_lt.1 far).trans (merged.after s hs), merged.apart⟩, ?_, fun x => ?_⟩
        · exact forall_mem_cons.2 ⟨le_rfl, fun s hs => start.trans (merged.after s hs)⟩
        · simp only [mem_cons, exists_eq_or_imp, merged.points]

/-- Overlapping ranges are merged, in the order of the points, and no point is lost or added. -/
theorem deoverlap_spec (sort : StdSort (startsFirst (α := α))) (proper : ∀ r ∈ ranges, r.lower < r.upper) :
    ((deoverlap sort ranges).Pairwise fun r other => r.upper ≤ other.lower) ∧
      ∀ x, (∃ r ∈ deoverlap sort ranges, r.contains x = true) ↔ ∃ r ∈ ranges, r.contains x = true := by
  unfold deoverlap
  split
  next few =>
    refine ⟨?_, fun x => Iff.rfl⟩
    match ranges, few with
    | [], _ => exact .nil
    | [r], _ => exact pairwise_singleton _ _
  · have perm := sort.perm ranges
    have sorted := sort.sorted ranges
    split
    next none =>
      rw [none] at perm
      obtain rfl := perm.nil_eq
      exact ⟨.nil, fun x => Iff.rfl⟩
    next current rest eq =>
      rw [eq] at perm sorted
      obtain ⟨first, sorted⟩ := pairwise_cons.1 sorted
      have merged := merged_deoverlapLoop (fun r hr => proper r (perm.mem_iff.1 (mem_cons_of_mem _ hr)))
        (fun r hr => not_startsFirst_iff.1 (first r hr)) (sorted.imp not_startsFirst_iff.1)
      refine ⟨merged.apart, fun x => ?_⟩
      rw [merged.points]
      simp only [← perm.mem_iff, mem_cons, exists_eq_or_imp]

theorem intersection_comm (lt : other.lower < r.lower) : r.intersection other = other.intersection r := by
  rw [intersection, if_pos (RangeBound.startsBefore_iff.2 lt), intersection_of_le lt.le]

theorem any_intersection_of_le (le : r.lower ≤ other.lower) :
    (r.intersection other).any (·.contains x) = true ↔ r.contains x = true ∧ other.contains x = true := by
  rcases lt_or_ge other.lower r.upper with reach | far
  · obtain ⟨both, eq, low, high⟩ := intersection_eq_some le reach
    rw [eq, Option.any_some, contains_iff, contains_iff, contains_iff, low, high, lt_min_iff]
    exact ⟨fun ⟨l, u, u'⟩ => ⟨⟨le.trans l, u⟩, l, u'⟩, fun ⟨⟨_, u⟩, l, u'⟩ => ⟨l, u, u'⟩⟩
  · rw [intersection_eq_none le far]
    refine iff_of_false (by simp) fun ⟨here, there⟩ => ?_
    exact absurd ((contains_iff.1 here).2.trans_le far) (not_lt.2 (contains_iff.1 there).1)

theorem any_intersection :
    (r.intersection other).any (·.contains x) = true ↔ r.contains x = true ∧ other.contains x = true := by
  rcases le_or_gt r.lower other.lower with le | lt
  · exact any_intersection_of_le le
  · rw [intersection_comm lt, any_intersection_of_le lt.le, and_comm]

/-- Two ranges that are not empty have an intersection that is not, or none. -/
theorem lower_lt_upper_of_intersection {both : NonwrappingRange α} (here : r.lower < r.upper) (there : other.lower < other.upper)
    (h : r.intersection other = some both) : both.lower < both.upper := by
  wlog le : r.lower ≤ other.lower generalizing r other
  · exact this there here (intersection_comm (not_le.1 le) ▸ h) (not_le.1 le).le
  · rcases lt_or_ge other.lower r.upper with reach | far
    · obtain ⟨_, eq, low, high⟩ := intersection_eq_some le reach
      obtain rfl := Option.some.inj (eq.symm.trans h)
      rw [low, high]
      exact lt_min reach there
    · rw [intersection_eq_none le far] at h
      cases h

/-- The points of the range that are greater than the split point are left. -/
theorem any_splitAfter : (r.splitAfter p).any (·.contains x) = true ↔ r.contains x = true ∧ p < x := by
  rw [contains_iff]
  unfold splitAfter
  split
  next ended =>
    obtain ⟨e, stop, le⟩ := (Option.any_eq_true _ _).1 ended
    refine iff_of_false (by simp) fun ⟨⟨_, high⟩, gt⟩ => ?_
    have last : Cut.before x < Cut.after e.value := high.trans_le (upper_le_after stop)
    exact absurd ((Cut.before_lt_after.1 last).trans (of_decide_eq_true le)) (not_le.2 gt)
  · split
    next starts =>
      obtain ⟨s, start, lt⟩ := (Option.any_eq_true _ _).1 starts
      rw [Option.any_some, contains_iff]
      refine (and_iff_left_of_imp fun ⟨low, _⟩ => ?_).symm
      exact (of_decide_eq_true lt).trans_le (Cut.before_le_before.1 ((before_le_lower start).trans low))
    next starts =>
      have low : r.lower ≤ Cut.after p := by
        cases start : r.start with
        | none => simp [lower, start, RangeBound.lower]
        | some s =>
          rw [start] at starts
          exact (lower_le_after start).trans (Cut.after_le_after.2 (by simpa using starts))
      rw [Option.any_some, contains_iff]
      change Cut.after p ≤ Cut.before x ∧ Cut.before x < r.upper ↔ _
      rw [Cut.after_le_before]
      constructor
      · rintro ⟨gt, high⟩
        exact ⟨⟨low.trans (Cut.after_le_before.2 gt), high⟩, gt⟩
      · rintro ⟨⟨-, high⟩, gt⟩
        exact ⟨gt, high⟩

/-- Ranges that are not empty, over a dense order without end points: `deoverlap` puts their points in ranges of which
each lies behind those before it; `intersection` has the common points, and is absent exactly if there are none;
`split_after` has the points greater than the split point and `trim_front` those that are not before the new start. -/
theorem range_operations_exact [DenselyOrdered α] [NoMinOrder α] [NoMaxOrder α] [Nonempty α]
    (sort : StdSort (startsFirst (α := α))) (ranges : List (NonwrappingRange α))
    (nonempty : ∀ r ∈ ranges, ∃ x, r.contains x = true) :
    ((deoverlap sort ranges).Pairwise fun r other => ∀ x y, r.contains x = true → other.contains y = true → x < y) ∧
    (∀ x, (∃ r ∈ deoverlap sort ranges, r.contains x = true) ↔ ∃ r ∈ ranges, r.contains x = true) ∧
    (∀ r ∈ ranges, ∀ other ∈ ranges,
      (∀ x, (r.intersection other).any (·.contains x) = true ↔ r.contains x = true ∧ other.contains x = true) ∧
      (r.intersection other = none ↔ ¬∃ x, r.contains x = true ∧ other.contains x = true)) ∧
    (∀ r ∈ ranges, ∀ p x, (r.splitAfter p).any (·.contains x) = true ↔ r.contains x = true ∧ p < x) ∧
    ∀ r ∈ ranges, ∀ start x, (r.trimFront start).any (·.contains x) = true ↔
      r.contains x = true ∧ NonwrappingRange.before { start := start } x = false := by
  have proper : ∀ r ∈ ranges, r.lower < r.upper := fun r hr => lower_lt_upper (nonempty r hr).choose_spec
  obtain ⟨apart, points⟩ := deoverlap_spec sort proper
  refine ⟨apart.imp fun {r other} le x y hx hy => ?_, points, fun r hr other ho => ⟨fun x => any_intersection, ?_⟩,
    fun r hr p x => any_splitAfter, fun r hr start x => ?_⟩
  · exact Cut.before_lt_before.1 (((contains_iff.1 hx).2.trans_le le).trans_le (contains_iff.1 hy).1)
  · simp only [← any_intersection]
    cases eq : r.intersection other with
    | none => simp
    | some both =>
      have proper := lower_lt_upper_of_intersection (proper r hr) (proper other ho) eq
      simpa [contains_iff] using Cut.exists_point proper
  · rw [trimFront, any_intersection, contains_iff (r := { start := start }), before_eq_false]
    exact and_congr_right fun _ => and_iff_left Cut.before_lt_top

/-- A stable sort by the starts -/
def stableSort : StdSort (startsFirst (α := α)) where
  run l := l.mergeSort fun r other => !startsFirst other r
  perm l := l.mergeSort_perm _
  sorted l := by
    refine (pairwise_mergeSort (fun r s t => ?_) (fun r s => ?_) l).imp (Bool.not_eq_true' _).mp
    · simp only [Bool.not_eq_true', not_startsFirst_iff]
      exact le_trans
    · simp only [Bool.or_eq_true, Bool.not_eq_true', not_startsFirst_iff]
      exact le_total _ _

def overlappingRanges : List (NonwrappingRange ℚ) :=
  [{ start := some ⟨2, false⟩ }, { start := some ⟨1, true⟩, singular := true }, { last := some ⟨3, true⟩ }]

theorem range_operations_exact_overlapping : ∃ r ∈ deoverlap stableSort overlappingRanges, r.contains 1 = true :=
  ((range_operations_exact stableSort overlappingRanges fun r hr => by
    simp only [overlappingRanges, mem_cons, not_mem_nil, or_false] at hr
    rcases hr with rfl | rfl | rfl
    · exact ⟨3, by decide +kernel⟩
    · exact ⟨1, by decide +kernel⟩
    · exact ⟨3, by decide +kernel⟩).2.1 1).2 ⟨{ last := some ⟨3, true⟩ }, by simp [overlappingRanges], by decide +kernel⟩

end NonwrappingRange

end ScyllaMoon.Dht
