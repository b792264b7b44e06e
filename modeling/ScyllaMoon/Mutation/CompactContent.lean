import ScyllaMoon.Mutation.Compactor

/-!
# What compaction leaves of a partition

The accumulator has the greatest tombstone of the partition and of the ranges that cover a row, as long as
the fragments come in position order. So an sstable compaction compacts every row under the tombstone that
the partition has at its position.
-/

namespace ScyllaMoon.Mutation

open Lib Reader List

variable {Pos Key Id C : Type} [LinearOrder Key] [LinearOrder Id]

section Order

variable [LinearOrder Pos]

/-- The fragment is not in front of the position. -/
def Behind (x : Pos) : Fragment Pos C → Prop
  | .clusteringRow y _ => x ≤ y
  | .rangeTombstone rt => x ≤ rt.start
  | _ => True

variable {x : Pos}

theorem Behind.mono {y : Pos} {f : Fragment Pos C} (h : Behind y f) (le : x ≤ y) : Behind x f := by
  cases f with
  | clusteringRow z row | rangeTombstone rt => exact le.trans h
  | _ => trivial

/-- The order of the fragments of a partition: a range tombstone comes before the rows it covers. -/
def Before : Fragment Pos C → Fragment Pos C → Prop
  | .clusteringRow x _, .rangeTombstone rt => x < rt.start
  | .clusteringRow x _, g => Behind x g
  | .rangeTombstone rt, g => Behind rt.start g
  | _, _ => True

/-- `t` is the greatest of `pt` and the tombstones that cover `x`. -/
def IsCover (pt : Tombstone) (rts : List (RangeTombstone Pos)) (x : Pos) (t : Tombstone) : Prop :=
  ∀ u, t ≤ u ↔ pt ≤ u ∧ ∀ rt ∈ rts, rt.Covers x → rt.tomb ≤ u

variable {pt t : Tombstone}

theorem IsCover.congr {rts rts' : List (RangeTombstone Pos)} (h : IsCover pt rts x t)
    (same : ∀ rt, rt ∈ rts ↔ rt ∈ rts') : IsCover pt rts' x t := fun u => by
  simpa only [same] using h u

variable {rts : List (RangeTombstone Pos)}

theorem IsCover.unique {t' : Tombstone} (h : IsCover pt rts x t) (h' : IsCover pt rts x t') : t = t' :=
  eq_of_forall_ge_iff fun u => (h u).trans (h' u).symm

omit [LinearOrder Pos] in
theorem foldl_apply_le {u : Tombstone} :
    rts.foldl (fun t rt => t.apply rt.tomb) pt ≤ u ↔ pt ≤ u ∧ ∀ rt ∈ rts, rt.tomb ≤ u := by
  induction rts generalizing pt with
  | nil => simp
  | cons rt rts ih =>
    rw [foldl_cons, ih, Tombstone.apply_eq_max, max_le_iff, forall_mem_cons, and_assoc]

namespace RangeTombstoneAccumulator

/-- The accumulator has seen these range tombstones and has kept those that may cover one of the fragments
that are left. -/
structure Holds (a : RangeTombstoneAccumulator Pos) (pt : Tombstone) (seen : List (RangeTombstone Pos))
    (rest : List (Fragment Pos C)) : Prop where
  forward : a.reversed = false
  partitionTombstone : a.partitionTombstone = pt
  sub : ∀ rt ∈ a.rangeTombstones, rt ∈ seen
  sorted : a.rangeTombstones.Pairwise fun r r' => r.stop ≤ r'.stop
  complete : ∀ rt ∈ seen, rt ∈ a.rangeTombstones ∨ ∀ f ∈ rest, Behind rt.stop f
  started : ∀ rt ∈ seen, ∀ f ∈ rest, Behind rt.start f

variable {a : RangeTombstoneAccumulator Pos} {pt : Tombstone} {seen : List (RangeTombstone Pos)} {rest : List (Fragment Pos C)}

theorem dropped_eq (sorted : a.rangeTombstones.Pairwise fun r r' => r.stop ≤ r'.stop) (x : Pos) :
    a.rangeTombstones.dropWhile (fun rt => decide (rt.stop ≤ x)) = a.rangeTombstones.filter fun rt => !decide (rt.stop ≤ x) :=
  dropWhile_eq_filter (sorted.imp fun le h => decide_eq_true (le.trans (of_decide_eq_true h)))

/-- The tombstone for a row is the greatest that covers it. -/
theorem Holds.tombstoneForRow {x : Pos} {row : DeletableRow C} (h : a.Holds pt seen (.clusteringRow x row :: rest))
    (behind : ∀ f ∈ rest, Behind x f) :
    (a.tombstoneForRow x).Holds pt seen rest ∧ IsCover pt seen x (a.tombstoneForRow x).currentTombstone := by
  have kept : (a.tombstoneForRow x).rangeTombstones = a.rangeTombstones.filter fun rt => !decide (rt.stop ≤ x) := by
    rw [← dropped_eq h.sorted]
    simp [RangeTombstoneAccumulator.tombstoneForRow, dropUnneededTombstones, updateCurrentTombstone, h.forward]
  have mem : ∀ rt, rt ∈ (a.tombstoneForRow x).rangeTombstones ↔ rt ∈ a.rangeTombstones ∧ x < rt.stop := fun rt => by
    simp [kept]
  refine ⟨⟨h.forward, h.partitionTombstone, fun rt hrt => h.sub rt ((mem rt).1 hrt).1, ?_, fun rt hrt => ?_, fun rt hrt f hf =>
    h.started rt hrt f (mem_cons_of_mem _ hf)⟩, fun u => ?_⟩
  · rw [kept]
    exact h.sorted.sublist filter_sublist
  · rcases h.complete rt hrt with ha | gone
    · by_cases hx : x < rt.stop
      · exact .inl ((mem rt).2 ⟨ha, hx⟩)
      · exact .inr fun f hf => (behind f hf).mono (not_lt.1 hx)
    · exact .inr fun f hf => gone f (mem_cons_of_mem _ hf)
  · have current : (a.tombstoneForRow x).currentTombstone =
        (a.tombstoneForRow x).rangeTombstones.foldl (fun t rt => t.apply rt.tomb) pt := by
      rw [← h.partitionTombstone]
      rfl
    rw [current, foldl_apply_le]
    refine and_congr_right fun _ => ⟨fun le rt hrt covers => ?_, fun le rt hrt => ?_⟩
    · rcases h.complete rt hrt with ha | gone
      · exact le rt ((mem rt).2 ⟨ha, covers.2⟩)
      · exact absurd covers.2 (not_lt.2 (gone _ mem_cons_self))
    · obtain ⟨ha, hx⟩ := (mem rt).1 hrt
      have := h.sub rt ha
      exact le rt this ⟨h.started rt this _ mem_cons_self, hx⟩

/-- A range tombstone is kept as long as it may cover a row. -/
theorem Holds.apply {rt : RangeTombstone Pos} (h : a.Holds pt seen (.rangeTombstone rt :: rest))
    (behind : ∀ f ∈ rest, Behind rt.start f) : (a.apply rt).Holds pt (rt :: seen) rest := by
  have kept : ∃ l, (a.apply rt).rangeTombstones =
      l.takeWhile (fun it => !decide (rt.stop < it.stop)) ++ rt :: l.dropWhile (fun it => !decide (rt.stop < it.stop)) ∧
      l = a.rangeTombstones.filter fun it => !decide (it.stop ≤ rt.start) := by
    rw [← dropped_eq h.sorted]
    simp [RangeTombstoneAccumulator.apply, dropUnneededTombstones, updateCurrentTombstone, h.forward]
  obtain ⟨l, kept, hl⟩ := kept
  have sorted : l.Pairwise fun r r' => r.stop ≤ r'.stop := hl ▸ h.sorted.sublist filter_sublist
  have sub : ∀ it ∈ l, it ∈ a.rangeTombstones := fun it hit => mem_of_mem_filter (hl ▸ hit)
  have mem : ∀ it, it ∈ (a.apply rt).rangeTombstones ↔ it = rt ∨ it ∈ l := fun it => by
    have split : it ∈ l ↔ it ∈ l.takeWhile (fun it => !decide (rt.stop < it.stop)) ∨
        it ∈ l.dropWhile (fun it => !decide (rt.stop < it.stop)) := by
      rw [← mem_append, takeWhile_append_dropWhile]
    rw [kept, mem_append, mem_cons, split]
    tauto
  refine ⟨h.forward, h.partitionTombstone, fun it hit => ?_, ?_, fun it hit => ?_, fun it hit f hf => ?_⟩
  · rcases (mem it).1 hit with rfl | hit
    · exact mem_cons_self
    · exact mem_cons_of_mem _ (h.sub it (sub it hit))
  · rw [kept]
    have cut : l.Pairwise fun r r' => (!decide (rt.stop < r'.stop)) = true → (!decide (rt.stop < r.stop)) = true :=
      sorted.imp fun le h => by
        simp only [Bool.not_eq_true', decide_eq_false_iff_not, not_lt] at h ⊢
        exact le.trans h
    rw [takeWhile_eq_filter cut, dropWhile_eq_filter cut]
    refine pairwise_append.2 ⟨sorted.sublist filter_sublist, pairwise_cons.2
      ⟨fun it hit => ?_, sorted.sublist filter_sublist⟩, fun it hit it' hit' => ?_⟩
    · exact (by simpa using (mem_filter.1 hit).2 : rt.stop < it.stop).le
    · have le : it.stop ≤ rt.stop := by simpa using (mem_filter.1 hit).2
      rcases mem_cons.1 hit' with rfl | hit'
      · exact le
      · exact le.trans (by simpa using (mem_filter.1 hit').2 : rt.stop < it'.stop).le
  · rcases mem_cons.1 hit with rfl | hit
    · exact .inl ((mem it).2 (.inl rfl))
    · rcases h.complete it hit with ha | gone
      · by_cases hx : it.stop ≤ rt.start
        · exact .inr fun f hf => (behind f hf).mono hx
        · exact .inl ((mem it).2 (.inr (hl ▸ mem_filter.2 ⟨ha, by simpa using hx⟩)))
      · exact .inr fun f hf => gone f (mem_cons_of_mem _ hf)
  · rcases mem_cons.1 hit with rfl | hit
    · exact behind f hf
    · exact h.started it hit f (mem_cons_of_mem _ hf)

end RangeTombstoneAccumulator

theorem filterMap_cons_toList {α β : Type} (f : α → Option β) (a : α) (l : List α) :
    (a :: l).filterMap f = (f a).toList ++ l.filterMap f := by
  rw [filterMap_cons]
  cases f a <;> rfl

namespace CompactMutation

variable {mode : Mode} {s : CompactMutation Pos} {pt : Tombstone} {cover : Pos → Tombstone}

/-- What an sstable compaction leaves of a fragment, with the tombstones that cover the rows. -/
def outFragment (mode : Mode) (pt : Tombstone) (cover : Pos → Tombstone) :
    Fragment Pos (ColumnCell Key Id) → Option (Fragment Pos (ColumnCell Key Id))
  | .clusteringRow x r =>
    if isEmptyRow (mode.compactRow (cover x) r).1 then none else some (.clusteringRow x (mode.compactRow (cover x) r).1)
  | .rangeTombstone rt => if !mode.canPurgeTombstone rt.tomb ∧ rt.tomb > pt then some (.rangeTombstone rt) else none
  | .staticRow sr =>
    if (sr.compactAndExpire mode.expiry ⟨pt, pt⟩).2 || !(sr.compactAndExpire mode.expiry ⟨pt, pt⟩).1.empty then
      some (.staticRow (sr.compactAndExpire mode.expiry ⟨pt, pt⟩).1) else none
  | _ => none

/-- The partition tombstone was emitted, or will not be. -/
def Settled (mode : Mode) (pt : Tombstone) (s : CompactMutation Pos) : Prop :=
  s.emptyPartition = true → (pt.isSet && !mode.canPurgeTombstone pt) = false

open Compacted (fragment?)

omit [LinearOrder Pos] in
theorem partitionIsNotEmpty_settled {mode : Mode} (s : CompactMutation Pos)
    (h : s.Settled mode s.rangeTombstones.partitionTombstone) :
    (s.partitionIsNotEmpty (C := C) mode).2.filterMap fragment? = [] ∧
      (s.partitionIsNotEmpty (C := C) mode).1 = { s with emptyPartition := false } := by
  unfold CompactMutation.partitionIsNotEmpty
  split
  next empty =>
    simp only [h empty, Bool.false_eq_true, if_false]
    exact ⟨rfl, trivial⟩
  next full =>
    exact ⟨rfl, by rw [← Bool.eq_false_iff.2 full]⟩

/-- A row or a range tombstone. -/
def IsBody : Fragment Pos C → Prop
  | .clusteringRow .. | .rangeTombstone .. => True
  | _ => False

theorem consumePartition_cons {s' : CompactMutation Pos} {f : Fragment Pos (ColumnCell Key Id)}
    {fs : List (Fragment Pos (ColumnCell Key Id))} {out : List (Compacted Pos (ColumnCell Key Id))}
    (step : s.consume mode f = (s', out, false)) (notEnd : f ≠ .partitionEnd) :
    (consumePartition mode s (f :: fs)).2.1 = out ++ (consumePartition mode s' fs).2.1 := by
  cases f with
  | partitionEnd => exact absurd rfl notEnd
  | _ => simp only [consumePartition, step, Bool.false_eq_true, if_false]

section Sstable

variable (notOnlyLive : mode.onlyLive = false) (sstable : mode.sstableCompaction = true)

include notOnlyLive sstable

theorem consumeClusteringRow_sstable (settled : s.Settled mode s.rangeTombstones.partitionTombstone) (x : Pos)
    (cr : DeletableRow (ColumnCell Key Id)) : ∃ s', s'.rangeTombstones = s.rangeTombstones.tombstoneForRow x ∧
      s'.Settled mode s.rangeTombstones.partitionTombstone ∧ ∃ out, s.consume mode (.clusteringRow x cr) = (s', out, false) ∧
      out.filterMap fragment? = (outFragment mode s.rangeTombstones.partitionTombstone
        (fun _ => (s.rangeTombstones.tombstoneForRow x).currentTombstone) (.clusteringRow x cr)).toList := by
  have quiet := partitionIsNotEmpty_settled (C := ColumnCell Key Id)
    { s with rangeTombstones := s.rangeTombstones.tombstoneForRow x } settled
  unfold consume consumeClusteringRow outFragment
  simp only [notOnlyLive, sstable, Bool.false_eq_true, if_false, Bool.not_true, Bool.false_and]
  by_cases empty : isEmptyRow (mode.compactRow (s.rangeTombstones.tombstoneForRow x).currentTombstone cr).1 = true
  · simp only [empty, Bool.not_true, Bool.false_eq_true, if_false, if_true]
    exact ⟨{ s with rangeTombstones := s.rangeTombstones.tombstoneForRow x }, rfl, settled, [], rfl, rfl⟩
  · simp only [empty, Bool.not_false, if_true, Bool.false_eq_true, if_false]
    refine ⟨_, ?_, ?_, _, rfl, ?_⟩
    · rw [quiet.2]
    · rw [quiet.2]
      exact fun h => by cases h
    · rw [filterMap_append, quiet.1]
      rfl

omit notOnlyLive sstable in
theorem consumeRangeTombstone_sstable (cover : Pos → Tombstone)
    (settled : s.Settled mode s.rangeTombstones.partitionTombstone) (rt : RangeTombstone Pos) :
    ∃ s', s'.rangeTombstones = s.rangeTombstones.apply rt ∧ s'.Settled mode s.rangeTombstones.partitionTombstone ∧
      ∃ out : List (Compacted Pos (ColumnCell Key Id)), s.consume mode (.rangeTombstone rt) = (s', out, false) ∧
      out.filterMap fragment? = (outFragment mode s.rangeTombstones.partitionTombstone cover (.rangeTombstone rt)).toList := by
  have quiet := partitionIsNotEmpty_settled (C := ColumnCell Key Id)
    { s with rangeTombstones := s.rangeTombstones.apply rt } settled
  have pt : (s.rangeTombstones.apply rt).partitionTombstone = s.rangeTombstones.partitionTombstone := rfl
  unfold consume consumeRangeTombstone outFragment
  simp only [pt]
  by_cases emit : (!mode.canPurgeTombstone rt.tomb) = true ∧ rt.tomb > s.rangeTombstones.partitionTombstone
  · simp only [if_pos emit]
    refine ⟨_, ?_, ?_, _, rfl, ?_⟩
    · rw [quiet.2]
    · rw [quiet.2]
      exact fun h => by cases h
    · rw [filterMap_append, quiet.1]
      rfl
  · simp only [if_neg emit]
    exact ⟨{ s with rangeTombstones := s.rangeTombstones.apply rt }, rfl, settled, [], rfl, rfl⟩

variable {fs : List (Fragment Pos (ColumnCell Key Id))}

theorem consumePartition_body {a : CompactMutation Pos} {seen : List (RangeTombstone Pos)}
    (holds : a.rangeTombstones.Holds pt seen fs) (settled : a.Settled mode pt) (body : ∀ f ∈ fs, IsBody f)
    (order : fs.Pairwise Before)
    (covers : ∀ x r, .clusteringRow x r ∈ fs → IsCover pt (seen ++ fs.filterMap Fragment.rangeTombstone?) x (cover x)) :
    (consumePartition mode a (fs ++ [.partitionEnd])).2.1.filterMap fragment? =
      fs.filterMap (outFragment mode pt cover) := by
  induction fs generalizing a seen with
  | nil =>
    simp only [nil_append, consumePartition, consumeEndOfPartition, filterMap_nil]
    split <;> rfl
  | cons f fs ih =>
    obtain ⟨first, sorted⟩ := pairwise_cons.1 order
    obtain ⟨hf, bodies⟩ := forall_mem_cons.1 body
    rw [← holds.partitionTombstone] at settled
    cases f with
    | clusteringRow x r =>
      have behind : ∀ f ∈ fs, Behind x f := fun f hf => by
        have := first f hf
        cases f with
        | rangeTombstone rt => exact le_of_lt this
        | _ => exact this
      obtain ⟨holds', isCover⟩ := holds.tombstoneForRow behind
      obtain ⟨a', accumulated, settled', out, step, left⟩ :=
        consumeClusteringRow_sstable notOnlyLive sstable settled x r
      rw [holds.partitionTombstone] at left settled'
      -- the range tombstones that follow do not cover the row
      have current : (a.rangeTombstones.tombstoneForRow x).currentTombstone = cover x := by
        refine isCover.unique fun u => (covers x r mem_cons_self u).trans (and_congr_right fun _ => ?_)
        refine ⟨fun h rt hrt => h rt (mem_append_left _ hrt), fun h rt hrt cov => ?_⟩
        rcases mem_append.1 hrt with hrt | hrt
        · exact h rt hrt cov
        · obtain ⟨g, hg, hrt⟩ := mem_filterMap.1 hrt
          rcases mem_cons.1 hg with rfl | hg
          · cases hrt
          · cases g with
            | rangeTombstone rt' =>
              cases hrt
              exact absurd cov.1 (not_le.2 (first _ hg))
            | _ => cases hrt
      rw [current] at left
      have left : out.filterMap fragment? = (outFragment mode pt cover (.clusteringRow x r)).toList := left
      have tail := ih (accumulated ▸ holds') settled' bodies sorted fun y r' hr' =>
        covers y r' (mem_cons_of_mem _ hr')
      rw [cons_append, consumePartition_cons step (by simp), filterMap_append, left, tail, filterMap_cons_toList]
    | rangeTombstone rt =>
      have holds' := holds.apply first
      obtain ⟨a', accumulated, settled', out, step, left⟩ :
          ∃ a', _ ∧ _ ∧ ∃ out : List (Compacted Pos (ColumnCell Key Id)), _ := consumeRangeTombstone_sstable cover settled rt
      rw [holds.partitionTombstone] at left settled'
      have same : ∀ r, r ∈ seen ++ (Fragment.rangeTombstone rt :: fs).filterMap Fragment.rangeTombstone? ↔
          r ∈ rt :: seen ++ fs.filterMap Fragment.rangeTombstone? := fun r => by
        rw [filterMap_cons_toList, mem_append, mem_append, mem_append, mem_cons]
        change _ ∨ r ∈ [rt] ∨ _ ↔ _
        rw [mem_singleton]
        tauto
      have tail := ih (accumulated ▸ holds') settled' bodies sorted fun y r' hr' =>
        (covers y r' (mem_cons_of_mem _ hr')).congr same
      rw [cons_append, consumePartition_cons step (by simp), filterMap_append, left, tail, filterMap_cons_toList]
    | _ => exact hf.elim

omit sstable

theorem consume_partitionStart (written : pt.Written) (forward : s.rangeTombstones.reversed = false)
    (fs : List (Fragment Pos (ColumnCell Key Id))) : ∃ s', s'.rangeTombstones.Holds pt [] fs ∧ s'.Settled mode pt ∧
      ∃ out : List (Compacted Pos (ColumnCell Key Id)), s.consume mode (.partitionStart pt) = (s', out, false) ∧
      out.filterMap fragment? = if pt.isSet && !mode.canPurgeTombstone pt then [.partitionStart pt] else [] := by
  have holds : ∀ a : RangeTombstoneAccumulator Pos, a.reversed = false → a.partitionTombstone = pt →
      a.rangeTombstones = [] → a.Holds pt [] fs := fun a forward hpt none =>
    ⟨forward, hpt, by simp [none], by simp [none], by simp, by simp⟩
  unfold consume consumeTombstone CompactMutation.partitionIsNotEmpty consumeNewPartition
  by_cases isSet : pt.isSet = true
  · by_cases purge : mode.canPurgeTombstone pt = true
    · simp only [isSet, purge, notOnlyLive, if_true, Bool.not_true, Bool.not_false, Bool.and_false, Bool.false_eq_true, if_false]
      refine ⟨_, ?_, ?_, _, rfl, rfl⟩
      · exact holds _ forward rfl rfl
      · exact fun _ => by simp [purge]
    · simp only [isSet, purge, notOnlyLive, if_true, Bool.not_false, Bool.and_self, RangeTombstoneAccumulator.setPartitionTombstone,
        RangeTombstoneAccumulator.updateCurrentTombstone]
      refine ⟨_, ?_, ?_, _, rfl, rfl⟩
      · exact holds _ forward rfl rfl
      · exact fun h => by cases h
  · have empty : pt = {} := written.resolve_right fun lt => isSet (by simpa [Tombstone.isSet] using lt.ne')
    simp only [isSet, Bool.false_eq_true, if_false, Bool.false_and]
    refine ⟨_, ?_, ?_, _, rfl, rfl⟩
    · exact holds _ forward empty.symm rfl
    · exact fun _ => by simp [isSet]

theorem consumeStaticRow_sstable (holds : s.rangeTombstones.Holds pt [] fs) (settled : s.Settled mode pt)
    (cover : Pos → Tombstone) (sr : Row (ColumnCell Key Id)) :
    ∃ s', s'.rangeTombstones.Holds pt [] fs ∧ s'.Settled mode pt ∧
      ∃ out : List (Compacted Pos (ColumnCell Key Id)), s.consume mode (.staticRow sr) = (s', out, false) ∧
      out.filterMap fragment? = (outFragment mode pt cover (.staticRow sr)).toList := by
  have hpt := holds.partitionTombstone
  have quiet := partitionIsNotEmpty_settled (C := ColumnCell Key Id)
    { s with staticRowLive := (sr.compactAndExpire mode.expiry ⟨pt, pt⟩).2 } (hpt ▸ settled)
  unfold consume consumeStaticRow outFragment
  simp only [hpt, notOnlyLive, Bool.not_false, Bool.true_and]
  split
  · refine ⟨_, ?_, ?_, _, rfl, ?_⟩
    · rw [quiet.2]
      exact holds
    · rw [quiet.2]
      exact fun h => by cases h
    · rw [filterMap_append, quiet.1]
      rfl
  · refine ⟨_, ?_, ?_, _, rfl, rfl⟩
    · exact holds
    · exact settled

end Sstable

end CompactMutation

section Interleave

variable {rts : List (RangeTombstone Pos)} {rows : List (RowsEntry Pos C)}

theorem mem_interleave {f : Fragment Pos C} : f ∈ interleave rts rows ↔
    (∃ rt ∈ rts, f = .rangeTombstone rt) ∨ ∃ e ∈ rows, f = .clusteringRow e.position (clusteringRow e) := by
  fun_induction interleave rts rows with
  | case1 rows | case2 rts => simp [eq_comm]
  | case3 rt rts e rows lt ih =>
    rw [mem_cons, ih, exists_mem_cons_iff _ e, or_left_comm]
  | case4 rt rts e rows ge ih =>
    rw [mem_cons, ih, exists_mem_cons_iff _ rt, or_assoc]

theorem isBody_interleave : ∀ f ∈ interleave rts rows, CompactMutation.IsBody f := by
  intro f hf
  rcases mem_interleave.1 hf with ⟨rt, -, rfl⟩ | ⟨e, -, rfl⟩ <;> trivial

theorem rangeTombstones_interleave : (interleave rts rows).filterMap Fragment.rangeTombstone? = rts := by
  fun_induction interleave rts rows with
  | case1 rows => simp [Fragment.rangeTombstone?]
  | case2 rts =>
    rw [filterMap_map]
    exact filterMap_some
  | case3 rt rts e rows lt ih | case4 rt rts e rows ge ih =>
    rw [filterMap_cons_toList, ih]
    rfl

/-- The fragments come in position order. -/
theorem before_interleave (hrts : rts.Pairwise fun a b => a.start ≤ b.start) (hrows : Sorted RowsEntry.position rows) :
    (interleave rts rows).Pairwise Before := by
  fun_induction interleave rts rows with
  | case1 rows => exact pairwise_map.2 (hrows.imp le_of_lt)
  | case2 rts => exact pairwise_map.2 hrts
  | case3 rt rts e rows lt ih =>
    obtain ⟨first, hrows⟩ := pairwise_cons.1 hrows
    obtain ⟨firstRt, -⟩ := pairwise_cons.1 hrts
    refine pairwise_cons.2 ⟨fun f hf => ?_, ih hrts hrows⟩
    rcases mem_interleave.1 hf with ⟨rt', hrt', rfl⟩ | ⟨e', he', rfl⟩
    · rcases mem_cons.1 hrt' with rfl | hrt'
      · exact lt
      · exact lt.trans_le (firstRt rt' hrt')
    · exact le_of_lt (first e' he')
  | case4 rt rts e rows ge ih =>
    obtain ⟨first, -⟩ := pairwise_cons.1 hrows
    obtain ⟨firstRt, hrts⟩ := pairwise_cons.1 hrts
    refine pairwise_cons.2 ⟨fun f hf => ?_, ih hrts hrows⟩
    have le := not_lt.1 ge
    rcases mem_interleave.1 hf with ⟨rt', hrt', rfl⟩ | ⟨e', he', rfl⟩
    · exact firstRt rt' hrt'
    · rcases mem_cons.1 he' with rfl | he'
      · exact le
      · exact le.trans (le_of_lt (first e' he'))

end Interleave

namespace CompactMutation

variable {mode : Mode} {pt : Tombstone} {cover : Pos → Tombstone} {rts : List (RangeTombstone Pos)}
  {rows : List (ColumnEntry Pos Key Id)}

/-- What is left of an entry. -/
def outEntry (mode : Mode) (cover : Pos → Tombstone) (e : ColumnEntry Pos Key Id) :
    Option (ColumnEntry Pos Key Id) :=
  if isEmptyRow (mode.compactRow (cover e.position) (clusteringRow e)).1 then none
  else some { position := e.position, row := (mode.compactRow (cover e.position) (clusteringRow e)).1 }

omit [LinearOrder Pos] in
theorem position_outEntry {e d : ColumnEntry Pos Key Id} (h : outEntry mode cover e = some d) :
    d.position = e.position := by
  unfold outEntry at h
  split at h <;> cases h
  rfl

/-- The range tombstone is written again. -/
def keepsRangeTombstone (mode : Mode) (pt : Tombstone) (rt : RangeTombstone Pos) : Bool :=
  !mode.canPurgeTombstone rt.tomb && decide (pt < rt.tomb)

/-- What is left of the static row. -/
def outStaticRow (mode : Mode) (pt : Tombstone) (sr : Row (ColumnCell Key Id)) : Option (Row (ColumnCell Key Id)) :=
  if sr.empty then none
  else if (sr.compactAndExpire mode.expiry ⟨pt, pt⟩).2 || !(sr.compactAndExpire mode.expiry ⟨pt, pt⟩).1.empty then
    some (sr.compactAndExpire mode.expiry ⟨pt, pt⟩).1
  else none

section

omit [LinearOrder Pos]

theorem row_outFragment (e : ColumnEntry Pos Key Id) :
    (outFragment mode pt cover (.clusteringRow e.position (clusteringRow e))).bind Fragment.row? = outEntry mode cover e := by
  simp only [outFragment, outEntry]
  split <;> rfl

theorem rangeTombstone_outFragment (rt : RangeTombstone Pos) :
    (outFragment mode pt cover (.rangeTombstone rt : Fragment Pos (ColumnCell Key Id))).bind Fragment.rangeTombstone? =
      if keepsRangeTombstone mode pt rt then some rt else none := by
  unfold outFragment keepsRangeTombstone
  simp only [Bool.and_eq_true, decide_eq_true_eq, gt_iff_lt]
  split <;> rfl

end

theorem outFragment_yields : Yields ((interleave rts rows).filterMap (outFragment mode pt cover))
    (rows.filterMap (outEntry mode cover)) (rts.filter (keepsRangeTombstone mode pt)) := by
  have noRow : ∀ rt : RangeTombstone Pos,
      (outFragment mode pt cover (.rangeTombstone rt : Fragment Pos (ColumnCell Key Id))).bind Fragment.row? = none :=
    fun rt => by
      unfold outFragment
      simp only
      split <;> rfl
  have noRt : ∀ x (r : DeletableRow (ColumnCell Key Id)),
      (outFragment mode pt cover (.clusteringRow x r)).bind Fragment.rangeTombstone? = none := fun x r => by
    unfold outFragment
    simp only
    split <;> rfl
  refine ⟨?_, ?_, fun f hf => ?_⟩
  · rw [filterMap_filterMap]
    fun_induction interleave rts rows with
    | case1 rows =>
      rw [filterMap_map]
      exact filterMap_congr fun e _ => row_outFragment e
    | case2 rts =>
      rw [filterMap_map]
      exact filterMap_eq_nil_iff.2 fun rt _ => noRow rt
    | case3 rt rts e rows lt ih => rw [filterMap_cons_toList, ih, row_outFragment, ← filterMap_cons_toList]
    | case4 rt rts e rows ge ih => rw [filterMap_cons_toList, ih, noRow, Option.toList_none, nil_append]
  · rw [filterMap_filterMap, ← filterMap_eq_filter]
    fun_induction interleave rts rows with
    | case1 rows =>
      rw [filterMap_map]
      exact filterMap_eq_nil_iff.2 fun e _ => noRt _ _
    | case2 rts =>
      rw [filterMap_map]
      exact filterMap_congr fun rt _ => rangeTombstone_outFragment rt
    | case3 rt rts e rows lt ih => rw [filterMap_cons_toList, ih, noRt, Option.toList_none, nil_append]
    | case4 rt rts e rows ge ih =>
      rw [filterMap_cons_toList, ih, rangeTombstone_outFragment, filterMap_cons_toList]
      rfl
  · obtain ⟨g, hg, hf⟩ := mem_filterMap.1 hf
    rcases mem_interleave.1 hg with ⟨rt, -, rfl⟩ | ⟨e, -, rfl⟩
    · unfold outFragment at hf
      simp only at hf
      split at hf <;> cases hf
      exact ⟨rfl, rfl⟩
    · unfold outFragment at hf
      simp only at hf
      split at hf <;> cases hf
      exact ⟨rfl, rfl⟩

end CompactMutation

section Whole

variable {mode : CompactMutation.Mode} (notOnlyLive : mode.onlyLive = false) (sstable : mode.sstableCompaction = true)

include notOnlyLive sstable

open CompactMutation

theorem fragments_compacted {p : ColumnPartition Pos Key Id} (written : p.tombstone.Written)
    (rows : Sorted RowsEntry.position p.rows) (rts : p.rowTombstones.WellFormed) (cover : Pos → Tombstone)
    (covers : ∀ x, IsCover p.tombstone p.rowTombstones x (cover x)) :
    (consumePartition mode { rangeTombstones := { reversed := false } } p.fragments).2.1.filterMap Compacted.fragment? =
      (if p.tombstone.isSet && !mode.canPurgeTombstone p.tombstone then [.partitionStart p.tombstone] else []) ++
        ((if p.staticRow.empty then none else some (.staticRow p.staticRow)).bind
          (outFragment mode p.tombstone cover)).toList ++
        (interleave p.rowTombstones (p.rows.filter fun e => !e.dummy)).filterMap (outFragment mode p.tombstone cover) := by
  have body : ∀ f ∈ interleave p.rowTombstones (p.rows.filter fun e => !e.dummy), IsBody f := isBody_interleave
  have order := before_interleave (rts.disjoint.imp_of_mem fun {a b} ha _ le => (rts.proper a ha).le.trans le)
    (rows.sublist (filter_sublist (p := fun e => !e.dummy)))
  have cov : ∀ x r, .clusteringRow x r ∈ interleave p.rowTombstones (p.rows.filter fun e => !e.dummy) →
      IsCover p.tombstone ([] ++ (interleave p.rowTombstones (p.rows.filter fun e => !e.dummy)).filterMap
        Fragment.rangeTombstone?) x (cover x) := fun x _ _ => by
    rw [rangeTombstones_interleave]
    exact covers x
  unfold MutationPartition.fragments
  generalize interleave p.rowTombstones (p.rows.filter fun e => !e.dummy) = fs at body order cov ⊢
  obtain ⟨s₁, holds₁, settled₁, out₁, step₁, left₁⟩ := consume_partitionStart
    (s := { rangeTombstones := { reversed := false } }) notOnlyLive written rfl fs
  by_cases empty : p.staticRow.empty = true
  · have tail := consumePartition_body notOnlyLive sstable holds₁ settled₁ body order cov
    simp only [empty, if_true, Option.bind_none, Option.toList_none, append_nil, cons_append, nil_append]
    rw [consumePartition_cons step₁ (by simp), filterMap_append, left₁, tail]
  · obtain ⟨s₂, holds₂, settled₂, out₂, step₂, left₂⟩ :=
      consumeStaticRow_sstable notOnlyLive holds₁ settled₁ cover p.staticRow
    have tail := consumePartition_body notOnlyLive sstable holds₂ settled₂ body order cov
    simp only [empty, Bool.false_eq_true, if_false, Option.bind_some, cons_append, nil_append, append_assoc]
    rw [consumePartition_cons step₁ (by simp), consumePartition_cons step₂ (by simp), filterMap_append,
      filterMap_append, left₁, left₂, tail]

end Whole

/-- The tombstone of a partition and its ranges is the greatest that covers a position. -/
theorem isCover_tombstoneAt {pt : Tombstone} (least : {} ≤ pt) {rts : RangeTombstoneList Pos} (h : rts.WellFormed) (x : Pos) :
    IsCover pt rts x (max pt ((rts.tombstoneAt x).getD {})) := by
  intro u
  rw [max_le_iff]
  refine and_congr_right fun le => ?_
  cases found : rts.tombstoneAt x with
  | none =>
    have none : ∀ rt ∈ rts, ¬rt.Covers x := fun rt hrt covers => by
      have := h.tombstoneAt_eq_some.2 ⟨rt, hrt, covers, rfl⟩
      simp [found] at this
    exact iff_of_true (least.trans le) fun rt hrt covers => absurd covers (none rt hrt)
  | some t =>
    obtain ⟨rt, hrt, covers, rfl⟩ := h.tombstoneAt_eq_some.1 found
    refine ⟨fun le' rt' hrt' covers' => ?_, fun le' => le' rt hrt covers⟩
    have same := found.symm.trans (h.tombstoneAt_eq_some.2 ⟨rt', hrt', covers', rfl⟩)
    exact (Option.some.inj same) ▸ le'

end Order

namespace MutationPartition

open CompactMutation

variable [Position Pos] {now gcGrace maxPurgeable : Int} {p : ColumnPartition Pos Key Id}

theorem rows_compacted_sorted (mode : Mode) (cover : Pos → Tombstone) {rows : List (ColumnEntry Pos Key Id)}
    (h : Sorted RowsEntry.position rows) : Sorted RowsEntry.position (rows.filterMap (outEntry mode cover)) :=
  Sorted.filterMap (fun _ _ => position_outEntry) h

variable (written : p.tombstone.Written)
include written

theorem compacted_eq (h : p.Ordered) : p.compacted now gcGrace maxPurgeable =
      { tombstone := if p.tombstone.isSet && !(compactForCompaction now gcGrace maxPurgeable).canPurgeTombstone p.tombstone
          then p.tombstone else {}
        staticRow := (outStaticRow (compactForCompaction now gcGrace maxPurgeable) p.tombstone p.staticRow).elim {}
          (({} : Row (ColumnCell Key Id)).apply ·)
        rows := (p.rows.filter fun e => !e.dummy).filterMap
          (outEntry (compactForCompaction now gcGrace maxPurgeable) p.content.base)
        rowTombstones := RangeTombstoneList.applyAll []
          (p.rowTombstones.filter (keepsRangeTombstone (compactForCompaction now gcGrace maxPurgeable) p.tombstone)) } := by
  unfold MutationPartition.compacted
  generalize hmode : compactForCompaction now gcGrace maxPurgeable = mode
  have notOnlyLive : mode.onlyLive = false := by rw [← hmode]; rfl
  have sstable : mode.sstableCompaction = true := by rw [← hmode]; rfl
  have rows := rows_compacted_sorted mode p.content.base (h.rows.sublist (filter_sublist (p := fun e => !e.dummy)))
  have static : ((if p.staticRow.empty then none else some (.staticRow p.staticRow)).bind
      (outFragment mode p.tombstone p.content.base)) = (outStaticRow mode p.tombstone p.staticRow).map Fragment.staticRow := by
    unfold outStaticRow
    split
    · rfl
    · simp only [Option.bind_some, outFragment]
      split <;> rfl
  rw [fragments_compacted notOnlyLive sstable written h.rows h.rowTombstones p.content.base
    (isCover_tombstoneAt written.ge h.rowTombstones), static]
  split
  · exact rebuild_eq (Tombstone.apply_eq_max _ _ ▸ max_eq_right written.ge) _ outFragment_yields rows
  · exact rebuild_eq (t := {}) rfl _ outFragment_yields rows

theorem Ordered.compacted (h : p.Ordered) : (p.compacted now gcGrace maxPurgeable).Ordered := by
  rw [compacted_eq written h]
  refine ⟨?_, rows_compacted_sorted _ _ (h.rows.sublist filter_sublist), fun e he => ?_, ?_⟩
  · cases outStaticRow (compactForCompaction now gcGrace maxPurgeable) p.tombstone p.staticRow with
    | none => exact Row.sorted_empty
    | some r => exact Row.sorted_empty.apply r 0
  · obtain ⟨d, hd, he⟩ := mem_filterMap.1 he
    unfold outEntry at he
    split at he <;> cases he
    exact (h.cells d (mem_of_mem_filter hd)).compactAndExpire
  · exact RangeTombstoneList.wellFormed_nil.applyAll fun rt hrt => h.rowTombstones.proper rt (mem_of_mem_filter hrt)

theorem staticRow_compacted (h : p.Ordered) (id : ColumnId) :
    (p.compacted now gcGrace maxPurgeable).staticRow.data id = (p.staticRow.data id).bind fun d =>
      (d.compactAndExpire (compactForCompaction now gcGrace maxPurgeable).expiry ⟨p.tombstone, p.tombstone⟩).1 := by
  rw [compacted_eq written h, ← Row.data_compactAndExpire h.staticRow]
  generalize compactForCompaction now gcGrace maxPurgeable = mode
  have none : ∀ {r : Row (ColumnCell Key Id)}, r.empty = true → r.data id = none := fun empty => by
    simp [Row.data, Row.findCell, isEmpty_iff.1 empty]
  change Row.data (Option.elim (outStaticRow _ _ _) _ _) id = _
  unfold outStaticRow
  split
  next empty =>
    have left : (p.staticRow.compactAndExpire mode.expiry ⟨p.tombstone, p.tombstone⟩).1.empty = true := by
      simp [Row.compactAndExpire, Row.empty, isEmpty_iff.1 empty]
    exact (none rfl).trans (none left).symm
  · split
    · have sorted : (p.staticRow.compactAndExpire mode.expiry ⟨p.tombstone, p.tombstone⟩).1.Sorted :=
        h.staticRow.compactAndExpire
      refine (congrFun (Row.data_apply Row.sorted_empty sorted) id).trans ?_
      simp [joinCells, Row.data, Row.findCell]
    next drop =>
      simp only [Bool.or_eq_true, Bool.not_eq_true', not_or, Bool.not_eq_false] at drop
      exact (none rfl).trans (none drop.2).symm

end MutationPartition

namespace RowContent

/-- What is left of a row under the tombstone of its partition and ranges. -/
def compacted (mode : CompactMutation.Mode) (base : Tombstone) (r : RowContent Key Id) : RowContent Key Id where
  deletedAt := if r.deletedAt.shadowable ≤ base ∨ mode.canPurgeRowTombstone r.deletedAt then {} else r.deletedAt
  marker := r.marker.compactAndExpire mode.expiry (max r.deletedAt.shadowable base)
  cells id := (r.cells id).bind fun d =>
    (d.compactAndExpire mode.expiry ⟨max r.deletedAt.regular base, max r.deletedAt.shadowable base⟩).1

/-- The rows differ at most in what is left of markers that are missing. -/
structure Alike (r s : RowContent Key Id) : Prop where
  deletedAt : r.deletedAt = s.deletedAt
  marker : RowMarker.Same r.marker s.marker
  cells : r.cells = s.cells

theorem Alike.refl (r : RowContent Key Id) : r.Alike r := ⟨rfl, .inl rfl, rfl⟩

theorem Alike.symm {r s : RowContent Key Id} (h : r.Alike s) : s.Alike r where
  deletedAt := h.deletedAt.symm
  marker := h.marker.imp Eq.symm And.symm
  cells := h.cells.symm

end RowContent

/-- The row without anything in it. -/
abbrev emptyRow : RowContent Key Id := ({} : DeletableRow (ColumnCell Key Id)).content

variable {r : DeletableRow (ColumnCell Key Id)} (mode : CompactMutation.Mode)

theorem DeletableRow.content_compactRow (base : Tombstone) (h : r.cells.Sorted) :
    (mode.compactRow base r).1.content = r.content.compacted mode base := by
  simp only [CompactMutation.Mode.compactRow, DeletableRow.content, RowContent.compacted, Tombstone.apply_eq_max,
    RowContent.mk.injEq, true_and]
  exact ⟨rfl, funext (Row.data_compactAndExpire h)⟩

/-- A row tombstone without a timestamp is the empty one. -/
theorem RowTombstone.Proper.eq_empty {t : RowTombstone} (h : t.Proper) (unset : t.shadowable.isSet = false) : t = {} := by
  have missing : t.shadowable.timestamp = missingTimestamp := by simpa [Tombstone.isSet] using unset
  have shadowable : t.shadowable = {} := h.shadowable.resolve_right fun lt => lt.ne' missing
  have regular : t.regular = {} := le_antisymm (shadowable ▸ h.le) h.regular.ge
  cases t
  simp_all

theorem compactRow_proper (base : Tombstone) (h : r.deletedAt.Proper) :
    (mode.compactRow base r).1.deletedAt.Proper := by
  simp only [CompactMutation.Mode.compactRow]
  split
  · exact RowTombstone.proper_empty
  · exact h

theorem RowContent.compacted_empty {base : Tombstone} (least : {} ≤ base) :
    (emptyRow : RowContent Key Id).compacted mode base = emptyRow := by
  have noCells : (emptyRow : RowContent Key Id).cells = fun _ => none := rfl
  have cells : ((emptyRow : RowContent Key Id).compacted mode base).cells = fun _ => none := by
    simp only [compacted, noCells, Option.bind_none]
  have deletedAt : ((emptyRow : RowContent Key Id).compacted mode base).deletedAt = {} := if_pos (.inl least)
  have marker : ((emptyRow : RowContent Key Id).compacted mode base).marker = {} := rfl
  calc _ = ⟨{}, {}, fun _ => none⟩ := by rw [← deletedAt, ← marker, ← cells]
    _ = emptyRow := rfl

namespace MutationPartition

open CompactMutation

variable [Position Pos] {types : ColumnKind → ColumnId → CellType} {now gcGrace maxPurgeable : Int}
  {p : ColumnPartition Pos Key Id}

theorem row_compacted (hp : p.Valid types) (written : p.tombstone.Written) (dummies : ∀ e ∈ p.rows, e.dummy = false) (x : Pos) :
    ((p.compacted now gcGrace maxPurgeable).content.row x).Alike
      ((p.content.row x).compacted (compactForCompaction now gcGrace maxPurgeable) (p.content.base x)) := by
  have all : (p.rows.filter fun e => !e.dummy) = p.rows := filter_eq_self.2 fun e he => by simp [dummies e he]
  have least : {} ≤ p.content.base x := written.ge.trans (le_max_left _ _)
  have entry : (p.compacted now gcGrace maxPurgeable).content.rows x = ((p.entry x).bind
      (outEntry (compactForCompaction now gcGrace maxPurgeable) p.content.base)).map fun e => e.row.content := by
    rw [compacted_eq written hp.ordered, all]
    have found := Sorted.find?_filterMap (g := outEntry (compactForCompaction now gcGrace maxPurgeable) p.content.base)
      (fun _ _ => position_outEntry) hp.ordered.rows x
    exact congrArg (Option.map fun e => e.row.content) found
  unfold Content.row
  rw [entry, rows_eq]
  generalize compactForCompaction now gcGrace maxPurgeable = mode
  cases found : p.entry x with
  | none =>
    refine Eq.subst (motive := RowContent.Alike _) (RowContent.compacted_empty mode least).symm ?_
    exact .refl _
  | some e =>
    have valid := hp.rows e (entry_mem found)
    have position : e.position = x := by simpa using find?_some found
    have row : clusteringRow e = e.row := by
      have : e.row.deletedAt.maybeShadow e.row.marker = e.row.deletedAt := valid.shadowed
      simp only [clusteringRow, this]
    have content := DeletableRow.content_compactRow mode (p.content.base x) valid.sorted
    simp only [Option.bind_some, Option.map_some, Option.getD_some, outEntry, position, row]
    split
    next empty =>
      simp only [isEmptyRow, Bool.and_eq_true, Bool.not_eq_true', Row.empty, List.isEmpty_iff] at empty
      obtain ⟨⟨unset, missing⟩, none⟩ := empty
      rw [← content]
      refine RowContent.Alike.symm ⟨?_, .inr ⟨missing, rfl⟩, ?_⟩
      · exact (compactRow_proper mode (p.content.base x) valid.deletedAt).eq_empty unset
      · funext id
        simp [DeletableRow.content, Row.data, Row.findCell, none]
    · rw [Option.map_some, Option.getD_some, content]
      exact .refl _

end MutationPartition

end ScyllaMoon.Mutation
