import ScyllaMoon.Mutation.Difference

/-!
# What a difference repairs

Read repair sends a replica the difference of what all replicas have and of what it has itself, so that
it ends up with the sum. For atomic cells, counters, markers, range tombstones and the partition
tombstone it does. It does not always for a row tombstone, whose regular part goes unnoticed where the
shadowable part is not greater, and not for collections, of which the difference does not know what the
tombstones kill when the two are merged. `Repairs` says exactly when it does for a collection; rows and
partitions follow in `ReadRepair`.
-/

namespace ScyllaMoon.Mutation

open Lib Option

variable {Pos Key Id : Type} [LinearOrder Key] [LinearOrder Id]

namespace CollectionMutation

variable {a b : CollectionMutation Key} {k : Key} {c d : AtomicCell}

/-- An element is in the difference where the other side has none, or a lesser one. -/
theorem find_difference : (a.difference b).find k = some c ↔
    a.find k = some c ∧ ∀ d, b.find k = some d → c.compareForMerge d = .gt := by
  have cells : (a.difference b).cells = _ := alongside_filter a.sorted b.sorted newElement
  rw [find_eq_some, find_eq_some, cells, List.mem_filter]
  unfold newElement find
  cases b.cells.find? fun e => decide (e.1 = k) <;> simp

theorem tomb_difference : (a.difference b).tomb = if b.tomb < a.tomb then a.tomb else {} := rfl

/-- A difference is empty if the tombstone is not newer and no element is. -/
theorem isEmpty_difference : (a.difference b).isEmpty = true ↔
    ¬b.tomb < a.tomb ∧ ∀ k, (a.difference b).find k = none := by
  unfold isEmpty
  rw [Bool.and_eq_true, decide_eq_true_iff, List.isEmpty_iff]
  refine and_congr ⟨fun missing newer => ?_, fun old => ?_⟩ ⟨fun nil k => ?_, fun none => ?_⟩
  · rw [tomb_difference, if_pos newer] at missing
    rcases a.written with empty | written
    · rw [empty] at newer
      exact absurd newer (not_lt.2 b.written.ge)
    · exact absurd missing written.ne'
  · rw [tomb_difference, if_neg old]
  · unfold find
    rw [nil]
    rfl
  · refine List.eq_nil_iff_forall_not_mem.2 fun (k, c) hc => ?_
    rw [← find_eq_some, none] at hc
    cases hc

/-- What a collection becomes when the difference is applied to it. -/
def repaired (a b : CollectionMutation Key) : CollectionMutation Key :=
  if (a.difference b).isEmpty then b else b.merge (a.difference b)

/-- The element of a key becomes what it becomes when all of `a` is applied to `b`. -/
structure RepairsAt (a b : CollectionMutation Key) (k : Key) : Prop where
  /-- Elements that reconciliation does not tell apart, and that no tombstone kills, are equal. -/
  ties : ∀ c d, a.find k = some c → b.find k = some d → c.compareForMerge d = .eq →
    b.tomb.timestamp < c.timestamp → a.tomb.timestamp < d.timestamp → c = d
  /-- Where the tombstone of `a` is newer, no element of `b` that it kills is there in place of one of
  `a`. -/
  killed : b.tomb < a.tomb → ∀ c d, a.find k = some c → b.find k = some d → c.compareForMerge d ≠ .gt →
    b.tomb.timestamp < c.timestamp → a.tomb.timestamp < d.timestamp
  /-- Where it is not, it kills no element of `b`, unless `a` has one that `b` has not deleted, or the
  element has no timestamp and `a` has something else that is new. -/
  covered : ¬b.tomb < a.tomb → ∀ d, b.find k = some d → d.timestamp ≤ a.tomb.timestamp →
    (∃ c, a.find k = some c ∧ b.tomb.timestamp < c.timestamp) ∨
      d.timestamp ≤ missingTimestamp ∧ ∃ j c, a.find j = some c ∧ ∀ e, b.find j = some e → c.compareForMerge e = .gt

/-- The difference of `a` and `b` brings `b` up to date. -/
def Repairs (a b : CollectionMutation Key) : Prop := ∀ k, RepairsAt a b k

theorem tomb_repaired (a b : CollectionMutation Key) : (repaired a b).tomb = (b.merge a).tomb := by
  unfold repaired
  split
  next empty =>
    exact (max_eq_left (not_lt.1 (isEmpty_difference.1 empty).1)).symm
  · change max b.tomb (a.difference b).tomb = max b.tomb a.tomb
    rw [tomb_difference]
    split
    · rfl
    next old =>
      rw [max_eq_left b.written.ge, max_eq_left (not_lt.1 old)]

open AtomicCell (pick)

/-- The element that is picked where the difference has none for the key. -/
theorem pick_eq_iff (hc : c.Fits) (hd : d.Fits) (le : c.compareForMerge d ≠ .gt) :
    d.pick c = d ↔ (c.compareForMerge d = .eq → c = d) := by
  unfold pick
  rw [← AtomicCell.compareForMerge_swap hc hd]
  cases h : c.compareForMerge d with
  | lt => simp
  | eq => simp
  | gt => exact absurd h le

theorem pick_of_gt (hc : c.Fits) (hd : d.Fits) (gt : c.compareForMerge d = .gt) : d.pick c = c := by
  unfold pick
  rw [← AtomicCell.compareForMerge_swap hc hd, gt]
  rfl

theorem find_difference_of_none (hd : b.find k = none) : (a.difference b).find k = a.find k :=
  ext fun c => by simp [find_difference, hd]

theorem find_difference_of_gt (hc : a.find k = some c) (hd : b.find k = some d) (gt : c.compareForMerge d = .gt) :
    (a.difference b).find k = some c := find_difference.2 ⟨hc, fun e he => by
  rw [hd] at he
  cases he
  exact gt⟩

theorem find_difference_of_le (hd : b.find k = some d) (le : ∀ c, a.find k = some c → c.compareForMerge d ≠ .gt) :
    (a.difference b).find k = none := eq_none_iff_forall_ne_some.2 fun c h =>
  le c (find_difference.1 h).1 ((find_difference.1 h).2 d hd)

/-- A difference that is not empty is merged. -/
theorem find_repaired_of_new (new : (a.difference b).isEmpty = false) (k : Key) : (repaired a b).find k =
    Option.merge pick (spared (a.difference b).tomb (b.find k)) (spared b.tomb ((a.difference b).find k)) := by
  rw [repaired, new, if_neg (by decide), find_merge]

/-- An element of `a` that the difference leaves out, where the tombstones leave the one of `b`. -/
theorem left_out_iff (hc : c.Fits) (hd : d.Fits) (le : c.compareForMerge d ≠ .gt) {t : Tombstone} :
    some d = Option.merge pick (some d) (spared t (some c)) ↔
      (c.compareForMerge d = .eq → t.timestamp < c.timestamp → c = d) := by
  by_cases alive : t.timestamp < c.timestamp
  · rw [spared_of_lt alive, merge_some_some, some.injEq, eq_comm, pick_eq_iff hc hd le]
    exact ⟨fun tie eq _ => tie eq, fun tie eq => tie eq alive⟩
  · rw [spared_of_le (not_lt.1 alive), merge_none_right]
    exact iff_of_true rfl fun _ h => absurd h alive

theorem find_repaired_newer (ha : a.Fits) (hb : b.Fits) (newer : b.tomb < a.tomb) (k : Key) :
    (repaired a b).find k = (b.merge a).find k ↔ RepairsAt a b k := by
  have new : (a.difference b).isEmpty = false := by
    rw [← Bool.not_eq_true, isEmpty_difference]
    exact fun h => h.1 newer
  rw [find_repaired_of_new new, tomb_difference, if_pos newer, find_merge]
  cases hd : b.find k with
  | none =>
    rw [find_difference_of_none hd]
    exact iff_of_true rfl ⟨by simp [hd], by simp [hd], absurd newer⟩
  | some d => cases hc : a.find k with
    | none =>
      rw [find_difference_of_le hd (by simp [hc])]
      exact iff_of_true rfl ⟨by simp [hc], by simp [hc], absurd newer⟩
    | some c =>
      by_cases gt : c.compareForMerge d = .gt
      · rw [find_difference_of_gt hc hd gt]
        exact iff_of_true rfl ⟨by simp [hc, hd, gt], by simp [hc, hd, gt], absurd newer⟩
      · rw [find_difference_of_le hd (by simpa [hc] using gt), spared_none, merge_none_right]
        by_cases alive : a.tomb.timestamp < d.timestamp
        · rw [spared_of_lt alive, left_out_iff (ha k c hc) (hb k d hd) gt]
          exact ⟨fun tie => ⟨by simpa [hc, hd, alive] using tie, by simp [hd, alive], absurd newer⟩,
            fun h eq alive' => h.ties c d hc hd eq alive' alive⟩
        · -- the tombstone kills the element of `b`, so that of `a` has to be dead as well
          rw [spared_of_le (not_lt.1 alive), merge_none_left]
          by_cases alive' : b.tomb.timestamp < c.timestamp
          · rw [spared_of_lt alive']
            exact iff_of_false (by simp) fun h => alive (h.killed newer c d hc hd gt alive')
          · rw [spared_of_le (not_lt.1 alive')]
            exact iff_of_true rfl ⟨by simp [hd, alive], by simp [hc, hd, alive'], absurd newer⟩

/-- Where the tombstone of `a` is not newer, the difference is not empty because of some element. -/
theorem isEmpty_difference_older (older : ¬b.tomb < a.tomb) : (a.difference b).isEmpty = false ↔
    ∃ j c, a.find j = some c ∧ ∀ e, b.find j = some e → c.compareForMerge e = .gt := by
  rw [← Bool.not_eq_true, isEmpty_difference]
  simp only [older, not_false_iff, true_and, not_forall, ← find_difference, ne_none_iff_exists']

/-- Without a tombstone the difference kills only what has no timestamp, if it is merged at all. -/
theorem find_repaired_of_older (older : ¬b.tomb < a.tomb) (k : Key) : (repaired a b).find k =
    Option.merge pick (if (a.difference b).isEmpty then b.find k else spared {} (b.find k))
      (spared b.tomb ((a.difference b).find k)) := by
  cases new : (a.difference b).isEmpty with
  | false => rw [find_repaired_of_new new, tomb_difference, if_neg older, if_neg (by decide)]
  | true =>
    rw [repaired, new, if_pos rfl, if_pos rfl, (isEmpty_difference.1 new).2 k, spared_none, merge_none_right]

theorem find_repaired_older (ha : a.Fits) (hb : b.Fits) (older : ¬b.tomb < a.tomb) (k : Key) :
    (repaired a b).find k = (b.merge a).find k ↔ RepairsAt a b k := by
  have tomb_le : a.tomb.timestamp ≤ b.tomb.timestamp := Tombstone.timestamp_le (not_lt.1 older)
  have missing_le : missingTimestamp ≤ a.tomb.timestamp := Tombstone.timestamp_le a.written.ge
  rw [find_repaired_of_older older, find_merge]
  cases hd : b.find k with
  | none =>
    rw [find_difference_of_none hd]
    refine iff_of_true ?_ ⟨by simp [hd], fun newer => absurd newer older, by simp [hd]⟩
    split <;> rfl
  | some d =>
    by_cases alive : a.tomb.timestamp < d.timestamp
    · have kept : (if (a.difference b).isEmpty then some d else spared {} (some d)) = some d := by
        split
        · rfl
        · exact spared_of_lt (missing_le.trans_lt alive)
      rw [kept, spared_of_lt alive]
      have covered : ∀ e, b.find k = some e → ¬e.timestamp ≤ a.tomb.timestamp := by simpa [hd] using alive
      cases hc : a.find k with
      | none =>
        rw [find_difference_of_le hd (by simp [hc])]
        exact iff_of_true rfl ⟨by simp [hc], by simp [hc], fun _ e he le => absurd le (covered e he)⟩
      | some c =>
        by_cases gt : c.compareForMerge d = .gt
        · rw [find_difference_of_gt hc hd gt]
          exact iff_of_true rfl ⟨by simp [hc, hd, gt], by simp [hc, hd, gt], fun _ e he le => absurd le (covered e he)⟩
        · rw [find_difference_of_le hd (by simpa [hc] using gt), spared_none, merge_none_right,
            left_out_iff (ha k c hc) (hb k d hd) gt]
          exact ⟨fun tie => ⟨by simpa [hc, hd, alive] using tie, by simp [hd, alive], fun _ e he le =>
            absurd le (covered e he)⟩, fun h eq alive' => h.ties c d hc hd eq alive' alive⟩
    · rw [spared_of_le (not_lt.1 alive), merge_none_left]
      by_cases fresh : ∃ c, a.find k = some c ∧ b.tomb.timestamp < c.timestamp
      · -- what `a` has is newer than both tombstones
        refine iff_of_true ?_ ⟨by simp [hd, alive], fun newer => absurd newer older, fun _ _ _ _ => .inl fresh⟩
        obtain ⟨c, hc, alive'⟩ := fresh
        have gt : c.compareForMerge d = .gt :=
          AtomicCell.compareForMerge_of_timestamp_gt (((not_lt.1 alive).trans tomb_le).trans_lt alive')
        rw [find_difference_of_gt hc hd gt, hc, spared_of_lt alive']
        split
        · rw [merge_some_some, pick_of_gt (ha k c hc) (hb k d hd) gt]
        · by_cases written : missingTimestamp < d.timestamp
          · rw [spared_of_lt written, merge_some_some, pick_of_gt (ha k c hc) (hb k d hd) gt]
          · rw [spared_of_le (not_lt.1 written), merge_none_left]
      · have dead : ∀ c, a.find k = some c → c.timestamp ≤ b.tomb.timestamp := fun c hc =>
          not_lt.1 fun alive' => fresh ⟨c, hc, alive'⟩
        have none : spared b.tomb (a.find k) = none := by
          cases hc : a.find k with
          | none => rfl
          | some c => exact spared_of_le (dead c hc)
        have none' : spared b.tomb ((a.difference b).find k) = Option.none := by
          cases hc : (a.difference b).find k with
          | none => rfl
          | some c => exact spared_of_le (dead c (find_difference.1 hc).1)
        have cond : RepairsAt a b k ↔ d.timestamp ≤ missingTimestamp ∧ (a.difference b).isEmpty = false := by
          rw [isEmpty_difference_older older]
          refine ⟨fun h => (h.covered older d hd (not_lt.1 alive)).resolve_left fresh, fun h => ?_⟩
          exact ⟨by simp [hd, alive], fun newer => absurd newer older, by simpa [hd] using fun _ _ => .inr h⟩
        rw [none, none', merge_none_right, cond]
        cases (a.difference b).isEmpty with
        | true => simp
        | false =>
          by_cases written : missingTimestamp < d.timestamp
          · simp [spared_of_lt (t := {}) written, written]
          · simp [spared_of_le (t := {}) (not_lt.1 written), not_lt.1 written]

/-- The difference brings a collection up to date just where it repairs every key. -/
theorem repaired_eq_iff (ha : a.Fits) (hb : b.Fits) : repaired a b = b.merge a ↔ Repairs a b := by
  have keys : (∀ k, (repaired a b).find k = (b.merge a).find k) ↔ Repairs a b := forall_congr' fun k => by
    by_cases newer : b.tomb < a.tomb
    · exact find_repaired_newer ha hb newer k
    · exact find_repaired_older ha hb newer k
  rw [← keys]
  exact ⟨fun h k => by rw [h], ext_find (tomb_repaired a b)⟩

end CollectionMutation

theorem CounterShard.combine_new {s s' : List (CounterShard Id)} (hs : Sorted CounterShard.id s)
    (hs' : Sorted CounterShard.id s') : combine CounterShard.id newer s' (alongside CounterShard.id CounterShard.id
      (fun a it => if CounterCell.newShard a it then some a else none) s s') = combine CounterShard.id newer s' s := by
  have keeps : ∀ x y : CounterShard Id, x.id = y.id → (x.newer y).id = x.id := fun _ _ => newer_id
  rw [alongside_filter hs hs']
  refine (hs'.combine (hs.sublist List.filter_sublist) keeps).eq_of_find? (hs'.combine hs keeps) fun k => ?_
  rw [find?_combine hs' (hs.sublist List.filter_sublist) keeps, find?_combine hs' hs keeps, hs.find?_filter]
  cases hx : s.find? fun a => decide (a.id = k) with
  | none => rfl
  | some x =>
    have hk : x.id = k := by simpa using List.find?_some hx
    simp only [Option.filter, hk]
    cases s'.find? fun a => decide (a.id = k) with
    | none => rfl
    | some y =>
      by_cases lt : y.logicalClock < x.logicalClock <;> simp [CounterCell.newShard, newer, lt]

theorem CounterCell.merge_difference (a b : CounterCell Id) : (a.difference b).elim b b.merge = b.merge a := by
  cases a with
  | dead t d => cases b with
    | live t' s' hs' => rfl
    | dead t' d' =>
      by_cases lt : (AtomicCell.dead t' d').compareForMerge (.dead t d) = .lt <;> simp [difference, merge, lt]
  | live t s hs => cases b with
    | dead t' d' => rfl
    | live t' s' hs' =>
      have new := CounterShard.combine_new hs hs'
      simp only [difference]
      split
      · simp only [Option.elim, merge, CounterShard.apply_eq, new, live.injEq, and_true]
        omega
      next none =>
        rw [not_ne_iff.1 none, combine_nil_right] at new
        split
        · simp only [Option.elim, merge, CounterShard.apply_eq, combine_nil_right, ← new]
        · simp only [Option.elim, merge, CounterShard.apply_eq, ← new, live.injEq, and_true]
          omega

theorem AtomicCell.merge_difference {a b : AtomicCell} (ha : a.Fits) (hb : b.Fits) :
    (if a.compareForMerge b = .gt then b.merge a else b) = b.merge a := by
  unfold AtomicCell.merge
  rw [← compareForMerge_swap ha hb]
  cases a.compareForMerge b <;> rfl

namespace CellData

/-- Of the cells of a column only those of a collection may not be brought up to date. -/
theorem merge_difference_iff {t : CellType} {a b : CellData Key Id} (ha : a.Ok t) (hb : b.Ok t) :
    (a.difference b).elim b b.merge = b.merge a ↔ ∀ m n, a = collection m → b = collection n → m.Repairs n := by
  cases a with
  | atomic x => cases b with
    | atomic y =>
      refine iff_of_true ?_ fun _ _ h => by cases h
      rw [merge, ← AtomicCell.merge_difference ha.2 hb.2, difference]
      split <;> rfl
    | counter y => exact absurd (ha.1.symm.trans hb) (by decide)
    | collection y => exact absurd (ha.1.symm.trans hb.1) (by decide)
  | counter x => cases b with
    | atomic y | collection y => exact absurd (hb.1.symm.trans ha) (by decide)
    | counter y =>
      refine iff_of_true ?_ fun _ _ h => by cases h
      rw [merge, ← CounterCell.merge_difference x y, difference]
      cases x.difference y <;> rfl
  | collection x => cases b with
    | atomic y => exact absurd (ha.1.symm.trans hb.1) (by decide)
    | counter y => exact absurd (ha.1.symm.trans hb) (by decide)
    | collection y =>
      have applied : ((collection x : CellData Key Id).difference (collection y)).elim (collection y) (collection y).merge =
          collection (CollectionMutation.repaired x y) := by
        rw [difference, CollectionMutation.repaired]
        split <;> rfl
      rw [applied, merge, collection.injEq, CollectionMutation.repaired_eq_iff ha.2 hb.2]
      constructor
      · rintro h _ _ ⟨⟩ ⟨⟩
        exact h
      · exact fun h => h x y rfl rfl

/-- What the difference has for a column. -/
def against (c : CellData Key Id) : Option (CellData Key Id) → Option (CellData Key Id)
  | none => some c
  | some d => c.difference d

end CellData

/-- The collections of a row that the difference brings up to date. -/
def CellsRepair (r s : ColumnId → Option (CellData Key Id)) : Prop :=
  ∀ id m n, r id = some (.collection m) → s id = some (.collection n) → m.Repairs n

namespace Row

variable {r other : Row (ColumnCell Key Id)}

theorem cells_difference (h : r.Sorted) (ho : other.Sorted) : (r.difference other).cells =
    r.cells.filterMap fun c => differenceCell c (other.cells.find? fun d => decide (d.1 = c.1)) := by
  have cells := cells_foldl_appendCell ({} : Row (ColumnCell Key Id)) (f := id)
  simp only [id] at cells
  unfold Row.difference
  rw [cells, alongside_eq h ho]
  simp

/-- Cells stay in their columns. -/
theorem differenceCell_fst {c d : ColumnId × ColumnCell Key Id} {it : Option (ColumnId × ColumnCell Key Id)}
    (h : differenceCell c it = some d) : d.1 = c.1 := by
  cases it with
  | none =>
    cases h
    rfl
  | some e =>
    obtain ⟨-, -, rfl⟩ := map_eq_some_iff.1 h
    rfl

theorem Sorted.difference (h : r.Sorted) (ho : other.Sorted) : (r.difference other).Sorted := by
  unfold Row.Sorted
  rw [cells_difference h ho]
  exact Lib.Sorted.filterMap (fun _ _ => differenceCell_fst) h

theorem data_difference (h : r.Sorted) (ho : other.Sorted) (id : ColumnId) :
    (r.difference other).data id = (r.data id).bind fun c => c.against (other.data id) := by
  unfold data findCell
  rw [cells_difference h ho, Lib.Sorted.find?_filterMap (fun _ _ => differenceCell_fst) h]
  cases hc : r.cells.find? fun p => decide (p.1 = id) with
  | none => rfl
  | some c =>
    have key : c.1 = id := by simpa using List.find?_some hc
    simp only [bind_some, map_some, key]
    cases other.cells.find? fun p => decide (p.1 = id) with
    | none => rfl
    | some d => simp [differenceCell, ColumnCell.difference, CellData.against, map_map, Function.comp_def]

end Row

/-- The difference brings the cells of a row up to date just where it repairs every collection. -/
theorem joinCells_difference_iff {types : ColumnId → CellType} {r s d : ColumnId → Option (CellData Key Id)}
    (hr : ∀ id, OptionOk (CellData.Ok (types id)) (r id)) (hs : ∀ id, OptionOk (CellData.Ok (types id)) (s id))
    (hd : ∀ id, d id = (r id).bind fun c => c.against (s id)) :
    joinCells s d = joinCells s r ↔ CellsRepair r s := by
  refine funext_iff.trans (forall_congr' fun id => ?_)
  unfold joinCells
  rw [hd id]
  cases hc : r id with
  | none => exact iff_of_true rfl fun _ _ h => by cases h
  | some c => cases he : s id with
    | none => exact iff_of_true rfl fun _ _ _ h => by cases h
    | some e =>
      have applied : merge CellData.merge (some e) (c.difference e) = some ((c.difference e).elim e e.merge) := by
        cases c.difference e <;> rfl
      simp only [bind_some, CellData.against, applied, merge_some_some, some.injEq]
      exact CellData.merge_difference_iff (hr id c hc) (hs id e he)

end ScyllaMoon.Mutation
