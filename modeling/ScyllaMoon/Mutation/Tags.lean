import ScyllaMoon.Mutation.Absorb

/-!
# The cells of a mutation, and their tags

`partition_entry::apply` writes the version of a tagged write into one cell: that of the first regular column, in the
row of the empty clustering key. Whether it is there depends on the mutation. If it is, nothing but its tag changes.
-/

namespace ScyllaMoon.Mutation

open Lib RowsEntry List

variable {S Pos C : Type}

/-- A row with some cells tagged anew -/
def RowsEntry.retag [CellOps C] (e : RowsEntry Pos C) (tags : ColumnId → Option UInt32) : RowsEntry Pos C :=
  { e with row := { e.row with cells := { e.row.cells with cells := e.row.cells.cells.map fun c => match tags c.1 with
    | some v => (c.1, CellOps.setMostRecentVersion c.2 v)
    | none => c } } }

namespace MutationPartition

section Rows

variable [Position Pos] {p : MutationPartition Pos C}

/-- The row at a position, or the empty one that `clustered_row` would create there -/
def rowAt (p : MutationPartition Pos C) (x : Pos) : DeletableRow C :=
  match p.rows.find? fun e => decide (e.position = x) with
  | some e => e.row
  | none => {}

/-- The mutation has a cell of this column in the row at this position. -/
def HasCell (p : MutationPartition Pos C) (x : Pos) (id : ColumnId) : Prop :=
  ∃ c ∈ (p.rowAt x).cells.cells, c.1 = id

theorem findCell_isSome {r : Row C} {id : ColumnId} : (r.findCell id).isSome = true ↔ ∃ c ∈ r.cells, c.1 = id := by
  simp [Row.findCell]

theorem sorted_modifyRow (h : Sorted position p.rows) (e : RowsEntry Pos C)
    (f : DeletableRow C → DeletableRow C) : Sorted position (p.modifyRow e f).rows :=
  Sorted.upsert h fun _ => rfl

variable {e : RowsEntry Pos C}

theorem rowAt_modifyRow (h : Sorted position p.rows) (new : e.row = {})
    (f : DeletableRow C → DeletableRow C) (x : Pos) :
    (p.modifyRow e f).rowAt x = if x = e.position then f (p.rowAt x) else p.rowAt x := by
  unfold rowAt
  have found := @find?_upsert _ _ _ position { e with row := f e.row } (fun i => { i with row := f i.row })
    p.rows h (fun _ => rfl) x
  change (match (upsertRow _ _ p.rows).find? _ with
    | some e => e.row
    | none => {}) = _
  rw [upsertRow, found]
  by_cases hx : x = e.position
  · rw [if_pos hx, if_pos hx]
    cases p.rows.find? fun e => decide (e.position = x) with
    | none => exact congrArg f new
    | some i => rfl
  · rw [if_neg hx, if_neg hx]

theorem rowAt_of_mem (h : Sorted position p.rows) (he : e ∈ p.rows) :
    p.rowAt e.position = e.row := by
  unfold rowAt
  rw [h.mem_iff_find?.1 he]

variable [CellOps C]

/-- A partition with some cells tagged anew -/
def retag (p : MutationPartition Pos C) (tags : Pos → ColumnId → Option UInt32) : MutationPartition Pos C :=
  { p with rows := p.rows.map fun e => e.retag (tags e.position) }

open Position (emptyKey)

/-- The tag that `partition_entry::apply` writes -/
def firstCellTag (v : UInt32) (x : Pos) (id : ColumnId) : Option UInt32 :=
  if x = emptyKey ∧ id = 0 then some v else none

theorem firstCellTag_of_ne {v : UInt32} {x : Pos} (hx : x ≠ emptyKey) (id : ColumnId) :
    firstCellTag v x id = none := if_neg fun h => hx h.1

/-- The pointer is null unless the cell is there, and then only its tag changes. -/
theorem setMostRecentVersion_eq (h : Sorted position p.rows) (v : UInt32) : p.setMostRecentVersion v =
      if ((p.rowAt emptyKey).cells.findCell 0).isSome then some (p.retag (firstCellTag v)) else none := by
  unfold setMostRecentVersion
  dsimp only
  split
  next cell =>
    replace cell : (p.rowAt emptyKey).cells.findCell 0 = none := cell
    rw [cell]
    rfl
  next c cell =>
    replace cell : (p.rowAt emptyKey).cells.findCell 0 = some c := cell
    rw [cell]
    -- the cell is in a row that was there, so that no row is created
    obtain ⟨e, found⟩ : ∃ e, p.rows.find? (fun e => decide (e.position = emptyKey)) = some e := by
      rw [rowAt] at cell
      cases found : p.rows.find? fun e => decide (e.position = emptyKey) with
      | none =>
        rw [found] at cell
        cases cell
      | some e => exact ⟨e, rfl⟩
    refine congrArg some (congrArg (fun rows => { p with rows }) ?_)
    refine (upsert_of_mem h found).trans (map_congr_left fun i _ => ?_)
    by_cases hi : i.position = emptyKey
    · rw [if_pos hi]
      refine congrArg (fun cells : List (ColumnId × C) =>
        { i with row := { i.row with cells := { i.row.cells with cells } } }) ?_
      refine map_congr_left fun c _ => ?_
      by_cases hc : c.1 = 0 <;> simp [firstCellTag, hi, hc]
    · rw [if_neg hi]
      simp only [RowsEntry.retag, firstCellTag_of_ne hi, map_id']

end Rows

section Cells

variable [Position Pos] [CellOps C] {p : MutationPartition Pos C}

/-- The rows of a partition that is built from a view, from those of `p` on -/
theorem cells_rowAt_build (rows : List (Pos × RowTombstone × RowMarker × List (ColumnId × C))) (x : Pos)
    (h : Sorted position p.rows) :
    ((rows.foldl acceptRow p).rowAt x).cells.cells =
      (p.rowAt x).cells.cells ++ (rows.filter (·.1 = x)).flatMap fun r =>
        r.2.2.2.map fun c => (c.1, CellOps.setMostRecentVersion c.2 0) := by
  induction rows generalizing p with
  | nil => simp
  | cons r rows ih =>
    rw [foldl_cons, acceptRow, ih (sorted_modifyRow h _ _), rowAt_modifyRow h rfl]
    by_cases hx : x = r.1
    · subst hx
      rw [if_pos rfl, filter_cons_of_pos (by simp), flatMap_cons, ← append_assoc]
      refine congrArg (· ++ _) ?_
      exact Row.cells_foldl_appendCell (p.rowAt r.1).cells r.2.2.2 (CellOps.setMostRecentVersion · 0)
    · rw [if_neg hx, filter_cons_of_neg (by simpa using Ne.symm hx)]

variable [SchemaOps S C] (oldSchema newSchema : S)

theorem sorted_rows_upgrade (p : MutationPartition Pos C) : Sorted position (p.upgrade oldSchema newSchema).rows :=
  foldlRecOn (motive := fun q : MutationPartition Pos C => Sorted position q.rows) p.rows _ .nil
    fun _ hq _ _ => sorted_modifyRow hq _ _

/-- The rows of a partition keep their positions in another schema. -/
theorem cells_rowAt_upgrade (h : Sorted position p.rows) (x : Pos) :
    ((p.upgrade oldSchema newSchema).rowAt x).cells = convertRow oldSchema newSchema .regular (p.rowAt x).cells := by
  obtain ⟨tombstone, staticRow, continuous, rows, rowTombstones⟩ := p
  unfold upgrade rowAt
  dsimp only
  induction rows using reverseRecOn with
  | nil => rfl
  | append_singleton rows e ih =>
    obtain ⟨h, -, last⟩ := pairwise_append.1 h
    replace ih := ih h
    rw [foldl_append, find?_append]
    generalize upgraded : rows.foldl _ ({} : MutationPartition Pos C) = q at ih ⊢
    have sorted : Sorted position q.rows := by
      rw [← upgraded]
      exact sorted_rows_upgrade oldSchema newSchema { rows }
    rw [foldl_cons, foldl_nil]
    change ((q.modifyRow _ _).rowAt x).cells = _
    rw [rowAt_modifyRow sorted rfl]
    by_cases hx : x = e.position
    · -- no row before the last one is at its position
      have none : rows.find? (fun e => decide (e.position = x)) = none := by
        refine find?_eq_none.2 fun i hi => ?_
        simpa [hx] using (last i hi e (mem_singleton_self e)).ne
      rw [if_pos hx, none, find?_cons_of_pos (by simp [hx])]
      rfl
    · rw [if_neg hx, find?_cons_of_neg (by simpa using Ne.symm hx), find?_nil, Option.or_none]
      exact ih

open SchemaOps (convert version)

theorem findCell_foldl_convert (kind : ColumnKind) (id : ColumnId) (cells : List (ColumnId × C)) {dst : Row C}
    (sorted : dst.Sorted) : ((cells.foldl (fun dst p =>
        match convert oldSchema newSchema kind p.1 (CellOps.setMostRecentVersion p.2 0) with
        | some (id, c) => dst.applyCell id c 0
        | none => dst) dst).findCell id).isSome = true ↔ (dst.findCell id).isSome = true ∨ ∃ c ∈ cells,
      (convert oldSchema newSchema kind c.1 (CellOps.setMostRecentVersion c.2 0)).map Prod.fst = some id := by
  induction cells generalizing dst with
  | nil => simp
  | cons c cells ih =>
    rw [foldl_cons]
    simp only [mem_cons, exists_eq_or_imp]
    cases converted : convert oldSchema newSchema kind c.1 (CellOps.setMostRecentVersion c.2 0) with
    | none =>
      rw [ih sorted]
      simp
    | some q =>
      rw [ih (sorted.applyCell q.1 q.2 0), Row.findCell_applyCell sorted, Option.map_some, Option.some_inj, ← or_assoc]
      by_cases hid : id = q.1
      · simp [hid]
      · simp [hid, Ne.symm hid]

theorem findCell_convertRow (kind : ColumnKind) (r : Row C) (id : ColumnId) :
    ((convertRow oldSchema newSchema kind r).findCell id).isSome = true ↔ ∃ c ∈ r.cells,
      (convert oldSchema newSchema kind c.1 (CellOps.setMostRecentVersion c.2 0)).map Prod.fst = some id :=
  (findCell_foldl_convert oldSchema newSchema kind id r.cells Row.sorted_empty).trans (by simp [Row.findCell])

/-- The column of the entry's schema that a cell of a mutation goes to -/
def columnOf (s vSchema : S) (c : ColumnId × C) : Option ColumnId :=
  if version C vSchema = version C s then some c.1
  else (convert vSchema s .regular c.1
    (CellOps.setMostRecentVersion (CellOps.setMostRecentVersion c.2 0) 0)).map Prod.fst

theorem sorted_rows_build (v : MutationPartitionView Pos C) : Sorted position (build v).rows :=
  (wellFormed_buildRows v.rows).rows

omit [SchemaOps S C] in
/-- Merging into an empty partition adds the rows as they are. -/
theorem rows_merge_empty {q : MutationPartition Pos C} (h : Sorted position q.rows) (n : UInt32) :
    (({} : MutationPartition Pos C).merge q n).rows = q.rows :=
  foldl_upsert_of_sorted (l := []) h fun e i => { i with row := i.row.apply e.row n }

/-- An empty partition has nothing to merge with, so that no version is recorded. -/
theorem applyView_empty (s : S) (v : MutationPartitionView Pos C) (vSchema : S) (n : UInt32) :
    ({} : MutationPartition Pos C).applyView s v vSchema n = ({} : MutationPartition Pos C).applyView s v vSchema 0 := by
  have same {q : MutationPartition Pos C} (h : Sorted position q.rows) :
      ({} : MutationPartition Pos C).merge q n = ({} : MutationPartition Pos C).merge q 0 := by
    have rows := (rows_merge_empty h n).trans (rows_merge_empty h 0).symm
    exact congrArg (fun rows => { ({} : MutationPartition Pos C).merge q 0 with rows }) rows
  unfold MutationPartition.applyView
  split
  · exact same (sorted_rows_build v)
  · exact same (sorted_rows_upgrade vSchema s _)

theorem sorted_rows_applyView (s : S) (v : MutationPartitionView Pos C) (vSchema : S) (n : UInt32) :
    Sorted position (({} : MutationPartition Pos C).applyView s v vSchema n).rows := by
  unfold MutationPartition.applyView
  split
  · rw [rows_merge_empty (sorted_rows_build v)]
    exact sorted_rows_build v
  · rw [rows_merge_empty (sorted_rows_upgrade vSchema s _)]
    exact sorted_rows_upgrade vSchema s _

/-- The cells of a mutation that is applied to an empty partition are those of the view. -/
theorem hasCell_applyView (s : S) (v : MutationPartitionView Pos C) (vSchema : S) (n : UInt32) (x : Pos) (id : ColumnId) :
    (({} : MutationPartition Pos C).applyView s v vSchema n).HasCell x id ↔
      ∃ r ∈ v.rows, r.1 = x ∧ ∃ c ∈ r.2.2.2, columnOf s vSchema c = some id := by
  have mem c : c ∈ ((build v).rowAt x).cells.cells ↔
      ∃ r ∈ v.rows, r.1 = x ∧ ∃ d ∈ r.2.2.2, (d.1, CellOps.setMostRecentVersion d.2 0) = c := by
    have built : ((build v).rowAt x).cells.cells = (v.rows.filter (·.1 = x)).flatMap fun r =>
        r.2.2.2.map fun c => (c.1, CellOps.setMostRecentVersion c.2 0) := cells_rowAt_build v.rows x .nil
    simp only [built, mem_flatMap, mem_filter, mem_map, decide_eq_true_eq, and_assoc]
  unfold HasCell MutationPartition.applyView columnOf
  split
  · rw [rowAt, rows_merge_empty (sorted_rows_build v), ← rowAt]
    constructor
    · rintro ⟨c, hc, rfl⟩
      obtain ⟨r, hr, hx, d, hd, rfl⟩ := (mem c).1 hc
      exact ⟨r, hr, hx, d, hd, rfl⟩
    · rintro ⟨r, hr, hx, d, hd, same⟩
      exact ⟨_, (mem _).2 ⟨r, hr, hx, d, hd, rfl⟩, Option.some.inj same⟩
  · rw [rowAt, rows_merge_empty (sorted_rows_upgrade vSchema s _), ← rowAt,
      cells_rowAt_upgrade vSchema s (sorted_rows_build v), ← findCell_isSome, findCell_convertRow]
    constructor
    · rintro ⟨c, hc, converted⟩
      obtain ⟨r, hr, hx, d, hd, rfl⟩ := (mem c).1 hc
      exact ⟨r, hr, hx, d, hd, converted⟩
    · rintro ⟨r, hr, hx, d, hd, converted⟩
      exact ⟨_, (mem _).2 ⟨r, hr, hx, d, hd, rfl⟩, converted⟩

end Cells

end MutationPartition

end ScyllaMoon.Mutation
