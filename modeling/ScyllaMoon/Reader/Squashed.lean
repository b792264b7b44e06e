import ScyllaMoon.Mvcc.Contents
import ScyllaMoon.Mvcc.Usertable
import ScyllaMoon.Reader.Flat
import ScyllaMoon.Reader.Streamed

/-!
# What the snapshot readers show

Both readers are compared with `partition_snapshot::squashed()`, the sum of all versions the snapshot
covers. The flat reader shows the partition tombstone and the static row of the sum, and the rows and
range tombstones of the newest version alone. The non-flat reader merges the rows of all versions, in an order
that is up to its heap.
-/

namespace ScyllaMoon.Reader

open Lib Mutation Tombstone List

variable {S Pos C : Type} {fs : List (Fragment Pos C)} {rows : List (RowsEntry Pos C)} {rts : RangeTombstoneList Pos}

/-- Range tombstones and rows leave the partition tombstone and the static row alone. -/
theorem mergeFragments_body [Position Pos] [CellOps C] (h : Yields fs rows rts) (p : MutationPartition Pos C)
    (ht : p.tombstone.apply {} = p.tombstone) :
    mergeFragments p fs = { p with
      rows := rows.foldl (fun l e => upsertRow e (fun i => { i with row := i.row.apply e.row }) l) p.rows
      rowTombstones := p.rowTombstones.applyAll rts } := by
  obtain ⟨rfl, rfl, body⟩ := h
  induction fs generalizing p with
  | nil => rfl
  | cons f fs ih =>
    obtain ⟨⟨htomb, hstatic⟩, body⟩ := forall_mem_cons.1 body
    have merged : p.merge f.partition = { p with
        rows := f.partition.rows.foldl (fun l e => upsertRow e (fun i => { i with row := i.row.apply e.row }) l) p.rows
        rowTombstones := p.rowTombstones.applyAll f.partition.rowTombstones } := by
      unfold MutationPartition.merge
      rw [htomb, hstatic, ht]
      rfl
    rw [mergeFragments, foldl_cons, ← mergeFragments, ih _ (by rw [merged]; exact ht) body, merged]
    cases f <;> rfl

section

variable [Position Pos] [CellOps C]

/-- The fragments of a reader merge to a partition with just their content. -/
theorem rebuild_eq {t : Tombstone} (ht : apply {} t = t) (sr : Option (Row C)) (h : Yields fs rows rts)
    (sorted : Sorted RowsEntry.position rows) :
    rebuild (.partitionStart t :: (sr.map Fragment.staticRow).toList ++ fs) =
      { tombstone := t, staticRow := sr.elim {} (({} : Row C).apply ·), rows,
        rowTombstones := RangeTombstoneList.applyAll [] rts } := by
  have right := apply_empty_right ht
  have rowsEq : rows.foldl (fun l e => upsertRow e (fun i => { i with row := i.row.apply e.row }) l) [] = rows :=
    foldl_upsert_of_sorted sorted _
  have begun : ∀ staticRow : Row C, mergeFragments { tombstone := t, staticRow } fs =
      { tombstone := t, staticRow, rows, rowTombstones := RangeTombstoneList.applyAll [] rts } := fun staticRow => by
    rw [mergeFragments_body h _ right]
    simp only [rowsEq]
  have header : ({} : MutationPartition Pos C).merge (Fragment.partitionStart t).partition = { tombstone := t } := by
    simp only [MutationPartition.merge, Fragment.partition, ht]
    rfl
  cases sr with
  | none => exact (congrArg (mergeFragments · fs) header).trans (begun {})
  | some r =>
    have static : ({ tombstone := t } : MutationPartition Pos C).merge (Fragment.staticRow r).partition =
        { tombstone := t, staticRow := ({} : Row C).apply r } := by
      simp only [MutationPartition.merge, Fragment.partition, right]
      rfl
    rw [Option.elim_some, ← begun, ← static, ← header]
    rfl

/-- What a row entry tells a reader. -/
def rowContent (e : RowsEntry Pos C) : Pos × DeletableRow C := (e.position, e.row)

/-- `p` is `q` restricted to the ranges. -/
structure IsRestriction (ckRanges : List (ClusteringRange Pos)) (p q : MutationPartition Pos C) : Prop where
  tombstone : p.tombstone = q.tombstone
  staticRow : p.staticRow.cells = q.staticRow.cells
  rows : p.rows.map rowContent = (ckRanges.flatMap (rowsOf q)).map rowContent
  deleted : ∀ r ∈ ckRanges, ∀ x, r.start ≤ x → x < r.stop →
    p.rowTombstones.tombstoneAt x = q.rowTombstones.tombstoneAt x

/-- Two partitions have the same rows and range tombstones in the ranges. -/
structure SameIn (ckRanges : List (ClusteringRange Pos)) (p q : MutationPartition Pos C) : Prop where
  rows : (ckRanges.flatMap (rowsOf p)).map rowContent = (ckRanges.flatMap (rowsOf q)).map rowContent
  deleted : ∀ r ∈ ckRanges, ∀ x, r.start ≤ x → x < r.stop →
    p.rowTombstones.tombstoneAt x = q.rowTombstones.tombstoneAt x

variable {v : MutationPartition Pos C} {ckRanges : List (ClusteringRange Pos)}

omit [Position Pos] [CellOps C] in
theorem clusteringRow_eq {e : RowsEntry Pos C} (shadowed : e.row.Shadowed) : clusteringRow e = e.row := by
  unfold clusteringRow
  rw [shadowed]

omit [Position Pos] in
theorem applyEntry_eq : applyEntry = fun (r : DeletableRow C) (e : RowsEntry Pos C) => r.apply e.row := by
  funext r e
  simp only [applyEntry, DeletableRow.apply, RowTombstone.apply, apply_eq_max, max_comm]

omit [CellOps C] in
theorem map_shownRows (hv : v.WellFormed) (r : ClusteringRange Pos) :
    (shownRows (rowsOf v r)).map rowContent = (rowsOf v r).map rowContent := by
  have entries : ∀ e ∈ rowsOf v r, e.row.Shadowed ∧ e.dummy = false := fun e he =>
    hv.entries e ((mem_rowsOf hv.rows).1 he).1
  unfold shownRows
  rw [filter_eq_self.2 fun e he => by simp [(entries e he).2], map_map]
  refine map_congr_left fun e he => ?_
  simp only [Function.comp_apply, rowContent, shown, clusteringRow_eq (entries e he).1]

omit [CellOps C] in
theorem sorted_shownRows (hv : v.WellFormed) (disjoint : ckRanges.Pairwise fun a b => a.stop ≤ b.start) :
    Sorted RowsEntry.position (ckRanges.flatMap fun r => shownRows (rowsOf v r)) := by
  have mem : ∀ r, ∀ e ∈ shownRows (rowsOf v r), r.start ≤ e.position ∧ e.position < r.stop := by
    intro r e he
    obtain ⟨e', he', rfl⟩ := mem_map.1 he
    exact ((mem_rowsOf hv.rows).1 (mem_of_mem_filter he')).2
  refine pairwise_flatMap.2 ⟨fun r _ => ?_, disjoint.imp fun hab x hx y hy =>
    ((mem _ x hx).2.trans_le hab).trans_le (mem _ y hy).1⟩
  exact pairwise_map.2 ((sorted_rowsOf hv.rows r).sublist filter_sublist)

open RangeTombstoneList (applyAll wellFormed_nil tombstoneAt_nil tombstoneAt_applyAll_flatMap)
open StreamedReader (slices)

variable {versions : List (MutationPartition Pos C)} {x : Pos} {r : ClusteringRange Pos}

omit [CellOps C] in
/-- The slices of all versions delete in their ranges what the version with the greatest tombstone does. -/
theorem tombstoneAt_slices (h : ∀ q ∈ versions, q.rowTombstones.WellFormed) (hr : r ∈ ckRanges)
    (hx : r.start ≤ x ∧ x < r.stop) : (applyAll [] (ckRanges.flatMap (slices versions))).tombstoneAt x =
      (versions.filterMap fun q => q.rowTombstones.tombstoneAt x).max? := by
  have sliced (r) := fun q hq => (h q hq).slice r
  have wf (r) : (slices versions r).WellFormed :=
    wellFormed_nil.applyAll (forall_mem_flatMap.2 fun q hq => (sliced r q hq).proper)
  have each (r) : (slices versions r).tombstoneAt x =
      (versions.filterMap fun q => (q.rowTombstones.slice r).tombstoneAt x).max? :=
    tombstoneAt_applyAll_flatMap wellFormed_nil (sliced r) x
  have inside := each r
  rw [filterMap_congr fun q hq => (h q hq).tombstoneAt_slice hx] at inside
  refine (tombstoneAt_applyAll_flatMap wellFormed_nil (fun r _ => wf r) x).trans ?_
  rw [tombstoneAt_nil, Option.toList_none, nil_append]
  have outside (r t) (ht : (slices versions r).tombstoneAt x = some t) :
      t ∈ versions.filterMap fun q => q.rowTombstones.tombstoneAt x := by
    obtain ⟨q, hq, at_x⟩ := mem_filterMap.1 (max?_eq_some_iff.1 ((each r).symm.trans ht)).1
    rcases (h q hq).tombstoneAt_slice_or r x with none | same
    · cases none.symm.trans at_x
    · exact mem_filterMap.2 ⟨q, hq, same.symm.trans at_x⟩
  cases greatest : (versions.filterMap fun q => q.rowTombstones.tombstoneAt x).max? with
  | none =>
    rw [max?_eq_none_iff] at greatest ⊢
    refine filterMap_eq_nil_iff.2 fun r _ => Option.eq_none_iff_forall_ne_some.2 fun t ht => ?_
    simpa [greatest] using outside r t ht
  | some t =>
    refine max?_eq_some_iff.2 ⟨mem_filterMap.2 ⟨r, hr, inside.trans greatest⟩, fun u hu => ?_⟩
    obtain ⟨r', -, at_x⟩ := mem_filterMap.1 hu
    exact (max?_eq_some_iff.1 greatest).2 u (outside r' u at_x)

variable {sr : Option (Row C)}

/-- Fragments with the rows of `v` in the ranges and range tombstones that sum up to its own rebuild `v` there. -/
theorem isRestriction_rebuild (hv : v.WellFormed) (disjoint : ckRanges.Pairwise fun a b => a.stop ≤ b.start)
    (h : ∀ q ∈ versions, q.rowTombstones.WellFormed) (sum : ∀ x, v.rowTombstones.tombstoneAt x =
      (versions.filterMap fun q => q.rowTombstones.tombstoneAt x).max?)
    {t : Tombstone} (ht : apply {} t = t) (hsr : ∀ r ∈ sr, r.Sorted) {staticRow : Row C}
    (hcells : sr.elim [] Row.cells = staticRow.cells)
    (yields : Yields fs (ckRanges.flatMap fun r => shownRows (rowsOf v r)) (ckRanges.flatMap (slices versions))) :
    IsRestriction ckRanges (rebuild (.partitionStart t :: (sr.map Fragment.staticRow).toList ++ fs))
      { v with tombstone := t, staticRow } := by
  have cells : (sr.elim {} (({} : Row C).apply ·)).cells = sr.elim [] Row.cells := by
    cases sr with
    | none => rfl
    | some r => exact (hsr r rfl).cells_apply_empty rfl 0
  rw [rebuild_eq ht sr yields (sorted_shownRows hv disjoint)]
  refine ⟨rfl, cells.trans hcells, ?_, fun r hr x hx hx' => ?_⟩
  · simp only [map_flatMap, map_shownRows hv]
    rfl
  · exact (tombstoneAt_slices h hr ⟨hx, hx'⟩).trans (sum x).symm

variable {p q : MutationPartition Pos C}

variable [SchemaOps S C] {older : List (MutationPartition Pos C)}

open Mvcc.Chain (squash)

/-- Versions read with one schema are merged without an upgrade. -/
theorem squash_eq (schema : S) (v : MutationPartition Pos C) (older : List (MutationPartition Pos C)) :
    squash schema v older = older.foldl (fun p q => p.merge q) v := by
  unfold squash
  congr 1
  funext p q
  exact if_neg fun h => h rfl

theorem tombstone_squash (schema : S) (v : MutationPartition Pos C) (older : List (MutationPartition Pos C)) :
    (squash schema v older).tombstone = partitionTombstone (v :: older) := by
  rw [squash_eq]
  exact (foldl_hom MutationPartition.tombstone fun _ _ => rfl).symm

theorem staticRow_squash (schema : S) (v : MutationPartition Pos C) (older : List (MutationPartition Pos C)) :
    (squash schema v older).staticRow = squashedStaticRow (v :: older) := by
  rw [squash_eq]
  exact (foldl_hom MutationPartition.staticRow fun _ _ => rfl).symm

omit [CellOps C] [SchemaOps S C] in
/-- What has the content of `v` in the ranges has that of `q` if `v` and `q` have the same. -/
theorem IsRestriction.iff_sameIn
    (h : IsRestriction ckRanges p { v with tombstone := q.tombstone, staticRow := q.staticRow }) :
    IsRestriction ckRanges p q ↔ SameIn ckRanges v q :=
  ⟨fun h' => ⟨h.rows.symm.trans h'.rows, fun r hr x hx hx' => (h.deleted r hr x hx hx').symm.trans (h'.deleted r hr x hx hx')⟩,
    fun same => ⟨h.tombstone, h.staticRow, h.rows.trans same.rows, fun r hr x hx hx' =>
      (h.deleted r hr x hx hx').trans (same.deleted r hr x hx hx')⟩⟩

theorem wellFormed_squash (schema : S) (hv : ∀ q ∈ v :: older, q.WellFormed) : (squash schema v older).WellFormed := by
  obtain ⟨hv, hold⟩ := forall_mem_cons.1 hv
  rw [squash_eq]
  exact foldlRecOn older _ hv fun _ hp q hq => hp.merge (hold q hq) 0

/-- The sum has the greatest of the tombstones of the versions everywhere. -/
theorem tombstoneAt_squash (schema : S) (hv : ∀ q ∈ v :: older, q.WellFormed) (x : Pos) :
    (squash schema v older).rowTombstones.tombstoneAt x =
      ((v :: older).filterMap fun q => q.rowTombstones.tombstoneAt x).max? := by
  obtain ⟨hv, hold⟩ := forall_mem_cons.1 hv
  have lists : (squash schema v older).rowTombstones =
      applyAll v.rowTombstones (older.flatMap MutationPartition.rowTombstones) := by
    rw [squash_eq]
    exact (foldl_hom MutationPartition.rowTombstones fun _ _ => rfl).symm.trans (foldl_flatMap ..).symm
  rw [lists, tombstoneAt_applyAll_flatMap hv.rowTombstones fun q hq => (hold q hq).rowTombstones]
  cases hx : v.rowTombstones.tombstoneAt x <;> simp [hx]

/-- The entries of the versions at a position. -/
def entriesAt (versions : List (MutationPartition Pos C)) (x : Pos) : List (RowsEntry Pos C) :=
  versions.flatMap fun v => v.rows.filter fun e => decide (e.position = x)

/-- Entries merged one after the other. -/
def mergeEntries : List (RowsEntry Pos C) → Option (DeletableRow C)
  | [] => none
  | e :: es => some (es.foldl (fun r e => r.apply e.row) e.row)

/-- The rows that the versions have at a position of the ranges merge to the same in any order. -/
def OrderFree (ckRanges : List (ClusteringRange Pos)) (versions : List (MutationPartition Pos C)) : Prop :=
  ∀ r ∈ ckRanges, ∀ x, r.start ≤ x → x < r.stop → ∀ es : List (RowsEntry Pos C), es.Perm (entriesAt versions x) →
    mergeEntries es = mergeEntries (entriesAt versions x)

omit [CellOps C] [SchemaOps S C] in
theorem entriesAt_cons (hv : v.WellFormed) (x : Pos) : entriesAt (v :: older) x =
    (v.rows.find? fun e => decide (e.position = x)).toList ++ entriesAt older x := by
  rw [entriesAt, flatMap_cons, ← entriesAt, hv.rows.filter_eq]

/-- The sum has the rows of the versions, merged from the newest to the oldest. -/
theorem find?_squash (schema : S) (hv : ∀ q ∈ v :: older, q.WellFormed) (x : Pos) :
    ((squash schema v older).rows.find? fun e => decide (e.position = x)).map RowsEntry.row =
      mergeEntries (entriesAt (v :: older) x) := by
  rw [squash_eq]
  induction older generalizing v with
  | nil =>
    rw [entriesAt_cons (hv v mem_cons_self), foldl_nil]
    cases v.rows.find? fun e => decide (e.position = x) <;> rfl
  | cons q older ih =>
    obtain ⟨hv, hq, hold⟩ := forall_mem_cons.1 hv |>.imp_right forall_mem_cons.1
    have rows : (v.merge q).rows.find? (fun e => decide (e.position = x)) =
        Option.merge (fun i e => { i with row := i.row.apply e.row }) (v.rows.find? fun e => decide (e.position = x))
          (q.rows.find? fun e => decide (e.position = x)) :=
      find?_foldl_upsert hv.rows hq.rows
        (fun e i => (rfl : ({ i with row := i.row.apply e.row } : RowsEntry Pos C).position = i.position)) x
    rw [foldl_cons, ih (forall_mem_cons.2 ⟨hv.merge hq 0, hold⟩), entriesAt_cons (hv.merge hq 0), entriesAt_cons hv,
      entriesAt_cons hq, rows]
    cases v.rows.find? fun e => decide (e.position = x) <;> cases q.rows.find? fun e => decide (e.position = x) <;> rfl

/-- The sum has a row where a version has one. -/
theorem exists_row_squash (schema : S) (hv : ∀ q ∈ v :: older, q.WellFormed) (x : Pos) :
    (∃ e ∈ (squash schema v older).rows, e.position = x) ↔ ∃ a, ∃ q ∈ v :: older, a ∈ q.rows ∧ a.position = x := by
  have some := congrArg Option.isSome (find?_squash schema hv x)
  have merged : (mergeEntries (entriesAt (v :: older) x)).isSome ↔ ∃ a, a ∈ entriesAt (v :: older) x := by
    cases entriesAt (v :: older) x <;> simp [mergeEntries]
  rw [Bool.eq_iff_iff, merged] at some
  simpa [entriesAt] using some

/-- The rows of the versions merge to those of the sum, if they do so in any order. -/
theorem merges_squash (schema : S) (hv : ∀ q ∈ v :: older, q.WellFormed) (free : OrderFree ckRanges (v :: older))
    (hr : r ∈ ckRanges) :
    Merges (iterators ((v :: older).map (rowsOf · r))) (rowsOf (squash schema v older) r) := by
  have wf := wellFormed_squash schema hv
  have flat : (iterators ((v :: older).map (rowsOf · r))).flatten = (v :: older).flatMap (rowsOf · r) := by
    rw [iterators, flatten_filter_not_isEmpty, flatMap_def]
  have mem (a) : a ∈ (v :: older).flatMap (rowsOf · r) ↔
      ∃ q ∈ v :: older, a ∈ q.rows ∧ r.start ≤ a.position ∧ a.position < r.stop := by
    rw [mem_flatMap]
    exact exists_congr fun q => and_congr_right fun hq => mem_rowsOf (hv q hq).rows
  have at_x {x : Pos} (hx : r.start ≤ x) (hx' : x < r.stop) :
      (((v :: older).flatMap (rowsOf · r)).filter fun a => decide (a.position = x)) = entriesAt (v :: older) x := by
    rw [filter_flatMap, entriesAt]
    refine flatMap_congr fun q hq => ?_
    rw [rowsOf_eq (hv q hq).rows, filter_filter]
    refine filter_congr fun a _ => ?_
    by_cases here : a.position = x
    · simp [here, hx, hx']
    · simp [here]
  refine ⟨ready_iterators (forall_mem_map.2 fun q hq => sorted_rowsOf (hv q hq).rows r), ⟨?_, fun e he => ?_⟩,
    sorted_rowsOf wf.rows r, fun x => ?_, fun e he a l perm => ?_⟩
  · rw [flat]
    intro a ha
    obtain ⟨q, hq, ha, -⟩ := (mem a).1 ha
    exact ((hv q hq).entries a ha).2
  · exact (wf.entries e ((mem_rowsOf wf.rows).1 he).1).2
  · have same := exists_row_squash schema hv x
    simp only [flat, mem, mem_rowsOf wf.rows]
    grind
  · obtain ⟨he, hx, hx'⟩ := (mem_rowsOf wf.rows).1 he
    rw [flat] at perm
    obtain ⟨q, hq, ha, -⟩ := (mem a).1 (mem_of_mem_filter (perm.subset mem_cons_self))
    have sum := find?_squash schema hv e.position
    rw [wf.rows.mem_iff_find?.1 he, ← free r hr e.position hx hx' _ (at_x hx hx' ▸ perm)] at sum
    rw [clusteringRow_eq (wf.entries e he).1, clusteringRow_eq ((hv q hq).entries a ha).1,
      applyEntry_eq]
    exact (Option.some.inj sum).symm

/-- The functions of `mutation_partition` keep it well-formed. -/
theorem contentInvariant : Mvcc.ContentInvariant (S := S) (V := MutationPartitionView Pos C) (P := MutationPartition Pos C)
    MutationPartitionView.WellFormed MutationPartition.WellFormed where
  empty _ := MutationPartition.wellFormed_empty
  continuous _ h := ⟨h.tombstone, h.staticRow, h.rows, h.entries, h.rowTombstones⟩
  apply s t hp hq := hp.apply hq s t
  applyView s t n hp hv := hp.applyView hv s t n
  setMostRecentVersion _ _ hp hq := hp.setMostRecentVersion hq
  applyIncomplete _ hdst hsrc := MutationPartition.wellFormed_applyIncomplete hdst hsrc

omit [SchemaOps S C]

omit [CellOps C] in
/-- The tombstone of the sum, as both readers compute it. -/
theorem wellFormed_partitionTombstone (hv : ∀ q ∈ v :: older, q.WellFormed) :
    apply {} (partitionTombstone (v :: older)) = partitionTombstone (v :: older) := by
  obtain ⟨hv, hold⟩ := forall_mem_cons.1 hv
  refine foldlRecOn (motive := fun t => apply {} t = t) older _ hv.tombstone fun t ht q hq => ?_
  rcases apply_choice t q.tombstone with e | e <;> rw [e]
  · exact ht
  · exact (hold q hq).tombstone

omit [Position Pos] [CellOps C] in
theorem tomb_eq [LinearOrder Pos] (hv : v.WellFormed) : tomb (v :: older) = partitionTombstone (v :: older) := by
  unfold tomb partitionTombstone
  rw [foldl_cons, hv.tombstone]

theorem sorted_squashedStaticRow (hv : v.WellFormed) : (squashedStaticRow (v :: older)).Sorted :=
  foldlRecOn older _ hv.staticRow fun _ hr q _ => hr.apply q.staticRow 0

/-- A static row that was possibly not read yet has the cells of `r`. -/
def ReadsAs (sr : Option (Row C)) (r : Row C) : Prop :=
  (∀ r' ∈ sr, r'.Sorted) ∧ sr.elim [] Row.cells = r.cells

/-- An empty static row, which `read_static_row` skips, has no cells to add. -/
theorem ReadsAs.add {r : Row C} (h : ReadsAs sr r) (hq : q.WellFormed) :
    ReadsAs (addStaticRow sr q) (r.apply q.staticRow) := by
  obtain ⟨sorted, cells⟩ := h
  unfold addStaticRow
  split
  next empty =>
    rw [Row.apply, isEmpty_iff.1 empty]
    exact ⟨sorted, cells⟩
  · cases sr with
    | none =>
      exact ⟨fun _ h => Option.some.inj h ▸ hq.staticRow, (hq.staticRow.cells_apply_empty cells.symm 0).symm⟩
    | some r' =>
      exact ⟨fun _ h => Option.some.inj h ▸ (sorted r' rfl).apply q.staticRow 0, Row.cells_apply_congr cells q.staticRow⟩

theorem ReadsAs.foldl {r : Row C} (h : ReadsAs sr r) (hold : ∀ q ∈ older, q.WellFormed) :
    ReadsAs (older.foldl addStaticRow sr) (older.foldl (fun r v => r.apply v.staticRow) r) := by
  induction older generalizing sr r with
  | nil => exact h
  | cons q older ih =>
    obtain ⟨hq, hold⟩ := forall_mem_cons.1 hold
    exact ih (h.add hq) hold

theorem readsAs_readStaticRow (hv : ∀ q ∈ v :: older, q.WellFormed) :
    ReadsAs (readStaticRow (v :: older)) (squashedStaticRow (v :: older)) := by
  obtain ⟨hv, hold⟩ := forall_mem_cons.1 hv
  have first : ReadsAs (addStaticRow none v) v.staticRow := by
    unfold addStaticRow
    split
    next empty =>
      exact ⟨fun _ h => (nomatch h), (isEmpty_iff.1 empty).symm⟩
    · exact ⟨fun _ h => Option.some.inj h ▸ hv.staticRow, rfl⟩
  exact first.foldl hold

/-- The content of the newest version, with the partition tombstone and the static row of the sum. -/
def newestOfSum (v : MutationPartition Pos C) (older : List (MutationPartition Pos C)) : MutationPartition Pos C :=
  { v with tombstone := partitionTombstone (v :: older), staticRow := squashedStaticRow (v :: older) }

variable {top : Iterators Pos C → Nat}

/-- What the flat reader shows of the versions of a snapshot. -/
theorem FlatReader.isRestriction (isTop : IsTop top)
    (hv : ∀ q ∈ v :: older, q.WellFormed) (disjoint : ckRanges.Pairwise fun a b => a.stop ≤ b.start)
    (changed : Nat → Bool) :
    ∃ n, (FlatReader.emitted top (v :: older) ckRanges changed n).1.endOfStream = true ∧
      IsRestriction ckRanges (rebuild (FlatReader.emitted top (v :: older) ckRanges changed n).2) (newestOfSum v older) := by
  have first := hv v mem_cons_self
  have sorted : (squashedStaticRow (v :: older)).Sorted := sorted_squashedStaticRow first
  have alone (x) : v.rowTombstones.tombstoneAt x = ([v].filterMap fun q => q.rowTombstones.tombstoneAt x).max? := by
    cases hx : v.rowTombstones.tombstoneAt x <;> simp [hx]
  obtain ⟨n, fs, done, eq, yields⟩ := FlatReader.emitted_eq isTop first older ckRanges changed
  have sliced : slices [v] = fun r => applyAll [] (v.rowTombstones.slice r) :=
    funext fun r => congrArg (applyAll []) (append_nil _)
  rw [← sliced] at yields
  have rebuilt (sr : Option (Row C)) (hsr : ∀ r ∈ sr, r.Sorted)
      (cells : sr.elim [] Row.cells = (squashedStaticRow (v :: older)).cells) :=
    isRestriction_rebuild first disjoint (forall_mem_singleton.2 first.rowTombstones) alone
      (wellFormed_partitionTombstone hv) hsr cells yields
  refine ⟨n, done, ?_⟩
  rw [eq]
  split
  next empty => exact rebuilt none nofun (isEmpty_iff.1 empty).symm
  · exact rebuilt (some _) (fun _ h => Option.some.inj h ▸ sorted) rfl

open StreamedReader (emitted start)

/-- The non-flat reader shows the sum, if it is the same in any order. -/
theorem StreamedReader.isRestriction [SchemaOps S C] (schema : S)
    (isTop : IsTop top) (hv : ∀ q ∈ v :: older, q.WellFormed) (disjoint : ckRanges.Pairwise fun a b => a.stop ≤ b.start)
    (free : OrderFree ckRanges (v :: older)) {changed : Nat → Bool}
    (past : ∀ n, changed n = true → (emitted top (v :: older) ckRanges changed n).1.PastStart) :
    ∃ n, (emitted top (v :: older) ckRanges changed n).1.endOfStream = true ∧
      IsRestriction ckRanges (rebuild (emitted top (v :: older) ckRanges changed n).2) (squash schema v older) := by
  have first := hv v mem_cons_self
  have static := readsAs_readStaticRow hv
  have wf := wellFormed_squash schema hv
  obtain ⟨n, fs, done, eq, yields⟩ := StreamedReader.emitted_eq isTop (fun q hq => (hv q hq).rows) wf.rows disjoint
    (fun r hr => merges_squash schema hv free hr) changed past
  have header : (start (v :: older) ckRanges).2 =
      .partitionStart (partitionTombstone (v :: older)) :: ((readStaticRow (v :: older)).map Fragment.staticRow).toList := by
    rw [← tomb_eq first, start]
    cases readStaticRow (v :: older) <;> rfl
  have sum : squash schema v older = { squash schema v older with
      tombstone := partitionTombstone (v :: older)
      staticRow := squashedStaticRow (v :: older) } := by
    rw [← tombstone_squash schema, ← staticRow_squash schema]
  refine ⟨n, done, ?_⟩
  rw [eq, header, sum]
  exact isRestriction_rebuild wf disjoint (fun q hq => (hv q hq).rowTombstones) (tombstoneAt_squash schema hv)
    (wellFormed_partitionTombstone hv) static.1 static.2 yields

end

open Mvcc in
/-- In every run that brings well-formed writes, and every snapshot of it, the flat reader comes to the end
of the stream, with the partition tombstone and the static row of `squashed()` and the rows and range
tombstones that the newest version has in the ranges. So it shows `squashed()` exactly if the sum has the rows
and range tombstones of the newest version there. The non-flat reader shows `squashed()` if the rows of the
versions there merge to the same in any order, as long as it looks up its place only behind a row of the current
range. -/
theorem flat_reader_restriction [Position Pos] [CellOps C] [SchemaOps S C]
    {top : Iterators Pos C → Nat} (isTop : IsTop top) (e : EntryAddr) {mp : MutationPartition Pos C}
    (hmp : mp.WellFormed)
    {tr : List (Op S (MutationPartitionView Pos C) (MutationPartition Pos C) × Answer (MutationPartition Pos C))}
    {w : Heap S (MutationPartition Pos C)}
    (run : Run Heap.step (fun _ _ op => op.Brings MutationPartitionView.WellFormed MutationPartition.WellFormed ∧
      ∀ fromSchema toSchema, op ≠ .upgrade fromSchema toSchema) (Heap.ofPartition e mp) tr w)
    {s : SnapshotId} (live : (w.snapshots s).isSome) {ckRanges : List (ClusteringRange Pos)}
    (disjoint : ckRanges.Pairwise fun a b => a.stop ≤ b.start) :
    ∃ schema v older sum, w.snapshotVersions s = .ok (schema, v :: older) ∧ w.squashed s = .ok sum ∧
      (∀ changed, ∃ n, (FlatReader.emitted top (v :: older) ckRanges changed n).1.endOfStream = true ∧
        let flat := rebuild (FlatReader.emitted top (v :: older) ckRanges changed n).2
        IsRestriction ckRanges flat { v with tombstone := sum.tombstone, staticRow := sum.staticRow } ∧
        (IsRestriction ckRanges flat sum ↔ SameIn ckRanges v sum)) ∧
      (OrderFree ckRanges (v :: older) →
        ∀ changed, (∀ n, changed n = true → (StreamedReader.emitted top (v :: older) ckRanges changed n).1.PastStart) →
          ∃ n, (StreamedReader.emitted top (v :: older) ckRanges changed n).1.endOfStream = true ∧
            IsRestriction ckRanges (rebuild (StreamedReader.emitted top (v :: older) ckRanges changed n).2) sum) := by
  obtain ⟨schema, v, older, versions⟩ := snapshotVersions_ok (run.mono fun _ _ _ h => h.2) live
  have hv := snapshotVersions_good contentInvariant hmp (run.mono fun _ _ _ h => h.1) versions
  have sum : w.squashed s = .ok (Chain.squash schema v older) := by
    rw [Heap.squashed_eq, versions]
    rfl
  have newest : newestOfSum v older = { v with
      tombstone := (Chain.squash schema v older).tombstone
      staticRow := (Chain.squash schema v older).staticRow } := by
    rw [tombstone_squash, staticRow_squash]
    rfl
  refine ⟨schema, v, older, _, versions, sum, fun changed => ?_, fun free changed past =>
    StreamedReader.isRestriction schema isTop hv disjoint free past⟩
  obtain ⟨n, done, shown⟩ := FlatReader.isRestriction isTop hv disjoint changed
  rw [newest] at shown
  exact ⟨n, done, shown, shown.iff_sameIn⟩

section Samples

open Mvcc

/-- A heap that has the newest of the versions at the earliest position on top. -/
def newestFirst [LinearOrder Pos] (rows : Iterators Pos C) : Nat :=
  rows.findIdx fun l => l.head?.all fun e => rows.all fun l' => l'.head?.all fun e' => decide (e.position ≤ e'.position)

theorem exists_least [LinearOrder Pos] {rows : Iterators Pos C} (h : rows ≠ []) :
    ∃ l ∈ rows, ∀ e ∈ l.head?, ∀ l' ∈ rows, ∀ e' ∈ l'.head?, e.position ≤ e'.position := by
  induction rows with
  | nil => exact absurd rfl h
  | cons l rows ih =>
    cases hl : l.head? with
    | none => exact ⟨l, mem_cons_self, by simp [hl]⟩
    | some e =>
      by_cases least : ∀ l' ∈ rows, ∀ e' ∈ l'.head?, e.position ≤ e'.position
      · refine ⟨l, mem_cons_self, fun x hx => ?_⟩
        cases hl.symm.trans hx
        exact forall_mem_cons.2 ⟨fun e' he' => by cases hl.symm.trans he'; exact le_refl _, least⟩
      · push Not at least
        obtain ⟨l', hl', e', he', lt⟩ := least
        obtain ⟨m, hm, hle⟩ := ih (ne_nil_of_mem hl')
        refine ⟨m, mem_cons_of_mem _ hm, fun x hx => forall_mem_cons.2 ⟨fun y hy => ?_, hle x hx⟩⟩
        cases hl.symm.trans hy
        exact (hle x hx l' hl' e' he').trans lt.le

theorem isTop_newestFirst [LinearOrder Pos] : IsTop (newestFirst : Iterators Pos C → Nat) := by
  intro rows h
  obtain ⟨l, hl, least⟩ := exists_least h
  have found : newestFirst rows < rows.length :=
    findIdx_lt_length_of_exists ⟨l, hl, by simpa [Option.all_eq_true] using least⟩
  refine ⟨rows[newestFirst rows], getElem?_eq_getElem found, ?_⟩
  have isLeast := findIdx_getElem (w := found)
  simp only [Option.all_eq_true, all_eq_true, decide_eq_true_eq] at isLeast
  exact isLeast

/-- An untagged write of one byte into the row at `position`. -/
def putRow (position : Nat) (b : UInt8) : UsertableOp :=
  .applyView usertable { rows := [(position, {}, {}, [(0, { cell := .live 0 [b] })])] } usertable 0

theorem flat_reader_restriction_one_write : ∃ schema v older sum,
    (entryAfter [put 1 0 7, readAt 1]).snapshotVersions 0 = .ok (schema, v :: older) ∧
      (entryAfter [put 1 0 7, readAt 1]).squashed 0 = .ok sum ∧
      ∃ n, (FlatReader.emitted newestFirst (v :: older) [{ start := 0, stop := 10 }] (fun _ => false) n).1.endOfStream = true ∧
        IsRestriction [{ start := 0, stop := 10 }]
          (rebuild (FlatReader.emitted newestFirst (v :: older) [{ start := 0, stop := 10 }] (fun _ => false) n).2)
          { v with tombstone := sum.tombstone, staticRow := sum.staticRow } := by
  have run : Run Heap.step (fun _ _ op =>
      op.Brings MutationPartitionView.WellFormed MutationPartition.WellFormed ∧
        ∀ fromSchema toSchema, op ≠ .upgrade fromSchema toSchema) newEntry _ (entryAfter [put 1 0 7, readAt 1]) :=
    .snoc (.snoc .init (i := put 1 0 7) ⟨⟨.nil, nofun⟩, fun _ _ => nofun⟩ rfl)
      (i := readAt 1) ⟨trivial, fun _ _ => nofun⟩ rfl
  have ranges : [({ start := 0, stop := 10 } : ClusteringRange Nat)].Pairwise fun a b => a.stop ≤ b.start :=
    pairwise_singleton _ _
  obtain ⟨schema, v, older, sum, versions, squashed, flat, -⟩ :=
    flat_reader_restriction isTop_newestFirst 0 MutationPartition.wellFormed_empty run (s := 0) rfl ranges
  obtain ⟨n, done, shown, -⟩ := flat fun _ => false
  exact ⟨schema, v, older, sum, versions, squashed, n, done, shown⟩

/-- Two writes to different rows: the flat reader shows only the second one. -/
theorem flat_reader_loses_row : ∃ schema versions sum,
    (entryAfter [putRow 0 7, putRow 5 8, readAt 0]).snapshotVersions 0 = .ok (schema, versions) ∧
      (entryAfter [putRow 0 7, putRow 5 8, readAt 0]).squashed 0 = .ok sum ∧
      (FlatReader.emitted newestFirst versions [{ start := 0, stop := 10 }] (fun _ => false) 9).1.endOfStream = true ∧
      ¬IsRestriction [{ start := 0, stop := 10 }]
        (rebuild (FlatReader.emitted newestFirst versions [{ start := 0, stop := 10 }] (fun _ => false) 9).2) sum :=
  ⟨_, _, _, rfl, rfl, rfl, fun h => absurd h.rows (by decide +kernel)⟩

end Samples

end ScyllaMoon.Reader
