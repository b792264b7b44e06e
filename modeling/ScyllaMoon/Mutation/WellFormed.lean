import ScyllaMoon.Mutation.Deletions
import ScyllaMoon.Mutation.Partition

/-!
# Well-formed partitions

`mutation_partition` keeps its cells by column, its rows by position and its range tombstones disjoint
and in order; its tombstone is never below the empty one, and a live row marker has shadowed the
shadowable tombstones below it; and it has no dummy entries, which only the row cache makes. Every function that changes a partition
keeps it so, as long as the writes carry cells in column order and range tombstones that start before
they end, as serialized partitions do.
-/

namespace ScyllaMoon.Mutation

open Lib List

variable {S Pos C : Type}

theorem Tombstone.apply_choice (t u : Tombstone) : t.apply u = t ∨ t.apply u = u := by
  unfold Tombstone.apply
  split
  · exact .inr rfl
  · exact .inl rfl

theorem Tombstone.compare_swap (t u : Tombstone) : (t.compare u).swap = u.compare t := by
  unfold Tombstone.compare
  rw [Ordering.swap_then]
  congr 1
  · exact Std.OrientedOrd.eq_swap.symm
  · exact Std.OrientedOrd.eq_swap.symm

theorem Tombstone.apply_empty_right {t : Tombstone} (h : Tombstone.apply {} t = t) : t.apply {} = t := by
  unfold Tombstone.apply at h ⊢
  split at h
  next lt =>
    have gt : t.compare {} = .gt := by rw [← Tombstone.compare_swap, lt]; rfl
    rw [gt, if_neg (by decide)]
  · rw [← h]
    rfl

namespace Row

/-- Cells are in column order, one for a column. -/
def Sorted (r : Row C) : Prop := Lib.Sorted Prod.fst r.cells

theorem sorted_empty : ({} : Row C).Sorted := .nil

variable {r : Row C}

theorem Sorted.reserve (h : r.Sorted) (last : ColumnId) : (r.reserve last).Sorted := by
  unfold Row.reserve
  split <;> exact h

theorem cells_foldl_appendCell (r : Row C) (cells : List (ColumnId × C)) (f : C → C) :
    (cells.foldl (fun r p => r.appendCell p.1 (f p.2)) r).cells = r.cells ++ cells.map fun p => (p.1, f p.2) := by
  induction cells generalizing r with
  | nil => simp
  | cons p cells ih => rw [foldl_cons, ih, appendCell, map_cons, append_assoc, singleton_append]

variable [CellOps C]

theorem cells_applyCell (r : Row C) (id : ColumnId) (value : C) (v : UInt32) :
    ∃ merge, (r.applyCell id value v).cells = upsert id value merge r.cells := by
  unfold applyCell
  split
  · exact ⟨(CellOps.merge · value v), rfl⟩
  · exact ⟨(CellOps.merge · value 0), rfl⟩

theorem Sorted.applyCell (h : r.Sorted) (id : ColumnId) (value : C) (v : UInt32) :
    (r.applyCell id value v).Sorted := by
  obtain ⟨merge, hm⟩ := cells_applyCell r id value v
  unfold Row.Sorted
  rw [hm]
  exact Lib.Sorted.upsert h fun _ => rfl

theorem Sorted.apply (h : r.Sorted) (other : Row C) (v : UInt32) : (r.apply other v).Sorted := by
  unfold Row.apply
  split
  · exact h
  · exact foldlRecOn _ _ (h.reserve _) fun r hr p _ => hr.applyCell p.1 p.2 v

theorem cells_foldl_applyCell {cells : List (ColumnId × C)} (h : Lib.Sorted Prod.fst (r.cells ++ cells))
    (v : UInt32) : (cells.foldl (fun r p => r.applyCell p.1 p.2 v) r).cells = r.cells ++ cells := by
  induction cells generalizing r with
  | nil => simp
  | cons p cells ih =>
    obtain ⟨merge, hm⟩ := cells_applyCell r p.1 p.2 v
    have added : (r.applyCell p.1 p.2 v).cells = r.cells ++ [p] := by
      rw [hm]
      exact upsert_of_lt fun a ha => (pairwise_append.1 h).2.2 a ha p mem_cons_self
    rw [foldl_cons, ih (by rw [added]; simpa using h), added, append_assoc, singleton_append]

omit [CellOps C] in
theorem cells_reserve (r : Row C) (last : ColumnId) : (r.reserve last).cells = r.cells := by
  unfold Row.reserve
  split <;> rfl

theorem Sorted.cells_apply_empty (h : r.Sorted) {q : Row C} (hq : q.cells = []) (v : UInt32) :
    (q.apply r v).cells = r.cells := by
  unfold Row.apply
  cases hl : r.cells.getLast? with
  | none => simp [getLast?_eq_none_iff.1 hl, hq]
  | some p =>
    have reserved : (q.reserve p.1).cells = [] := (cells_reserve q p.1).trans hq
    rw [cells_foldl_applyCell (by rw [reserved]; exact h), reserved, nil_append]

/-- Without a version to record, the kind of storage does not show in the cells. -/
theorem cells_apply_congr {q r : Row C} (h : q.cells = r.cells) (other : Row C) :
    (q.apply other).cells = (r.apply other).cells := by
  have cell : ∀ (r : Row C) id value, (r.applyCell id value 0).cells = upsert id value (CellOps.merge · value 0) r.cells := by
    intro r id value
    unfold applyCell
    split <;> rfl
  unfold Row.apply
  split
  · exact h
  next last _ _ =>
    have reserved : (q.reserve last).cells = (r.reserve last).cells := by rw [cells_reserve, cells_reserve, h]
    generalize q.reserve last = q at reserved
    generalize r.reserve last = r at reserved
    induction other.cells generalizing q r with
    | nil => exact reserved
    | cons p cells ih => exact ih _ _ (by rw [cell, cell, reserved])

end Row

theorem RowTombstone.maybeShadow_idem (t : RowTombstone) (m : RowMarker) :
    (t.maybeShadow m).maybeShadow m = t.maybeShadow m := by
  unfold RowTombstone.maybeShadow
  split
  · split <;> rfl
  · rfl

theorem RowTombstone.maybeShadow_apply (t u : RowTombstone) (m : RowMarker) :
    (t.apply u m).maybeShadow m = t.apply u m := by
  exact maybeShadow_idem _ m

namespace DeletableRow

/-- The row's marker has shadowed what it can. -/
def Shadowed (r : DeletableRow C) : Prop := r.deletedAt.maybeShadow r.marker = r.deletedAt

theorem shadowed_empty : ({} : DeletableRow C).Shadowed := rfl

theorem shadowed_applyTombstone (r : DeletableRow C) (t : RowTombstone) : (r.applyTombstone t).Shadowed :=
  RowTombstone.maybeShadow_apply r.deletedAt t r.marker

theorem shadowed_apply [CellOps C] (r src : DeletableRow C) (v : UInt32) : (r.apply src v).Shadowed :=
  RowTombstone.maybeShadow_apply src.deletedAt r.deletedAt (r.marker.apply src.marker)

end DeletableRow

namespace MutationPartition

/-- The order that a partition keeps in each of its parts. -/
structure WellFormed [LinearOrder Pos] (p : MutationPartition Pos C) : Prop where
  tombstone : Tombstone.apply {} p.tombstone = p.tombstone
  staticRow : p.staticRow.Sorted
  rows : Sorted RowsEntry.position p.rows
  entries : ∀ e ∈ p.rows, e.row.Shadowed ∧ e.dummy = false
  rowTombstones : p.rowTombstones.WellFormed

theorem wellFormed_empty [LinearOrder Pos] : ({} : MutationPartition Pos C).WellFormed :=
  ⟨rfl, Row.sorted_empty, .nil, nofun, RangeTombstoneList.wellFormed_nil⟩

end MutationPartition

/-- What a serialized partition keeps of it. -/
structure MutationPartitionView.WellFormed [LinearOrder Pos] (v : MutationPartitionView Pos C) : Prop where
  staticCells : Sorted Prod.fst v.staticCells
  rowTombstones : ∀ rt ∈ v.rowTombstones, rt.start < rt.stop

namespace MutationPartition

variable [Position Pos] {p q : MutationPartition Pos C}

theorem WellFormed.modifyRow (h : p.WellFormed) {e : RowsEntry Pos C} (he : e.row.Shadowed ∧ e.dummy = false)
    {f : DeletableRow C → DeletableRow C} (hf : ∀ row, row.Shadowed → (f row).Shadowed) : (p.modifyRow e f).WellFormed :=
  ⟨h.tombstone, h.staticRow, Sorted.upsert h.rows fun _ => rfl,
    forall_mem_upsert ⟨hf _ he.1, he.2⟩ h.entries fun i _ hi => ⟨hf i.row hi.1, hi.2⟩, h.rowTombstones⟩

theorem WellFormed.tombstone_apply (h : p.WellFormed) (hq : q.WellFormed) :
    Tombstone.apply {} (p.tombstone.apply q.tombstone) = p.tombstone.apply q.tombstone := by
  rcases Tombstone.apply_choice p.tombstone q.tombstone with e | e <;> rw [e]
  · exact h.tombstone
  · exact hq.tombstone

theorem tombstone_apply_empty (t : Tombstone) : Tombstone.apply {} (Tombstone.apply {} t) = Tombstone.apply {} t := by
  rcases Tombstone.apply_choice {} t with e | e <;> rw [e]
  · rfl
  · exact e

variable [CellOps C]

open DeletableRow (shadowed_apply shadowed_empty)

theorem WellFormed.merge (h : p.WellFormed) (hq : q.WellFormed) (v : UInt32) : (p.merge q v).WellFormed where
  tombstone := h.tombstone_apply hq
  staticRow := h.staticRow.apply q.staticRow 0
  rows := foldlRecOn q.rows _ h.rows fun _ hl _ _ => Sorted.upsert hl fun _ => rfl
  entries := foldlRecOn (motive := fun l : List (RowsEntry Pos C) => ∀ e ∈ l, e.row.Shadowed ∧ e.dummy = false)
    q.rows _ h.entries fun _ hl e he => forall_mem_upsert (hq.entries e he) hl fun i _ hi =>
      ⟨shadowed_apply i.row e.row v, hi.2⟩
  rowTombstones := h.rowTombstones.applyAll hq.rowTombstones.proper

theorem wellFormed_buildRows (rows : List (Pos × RowTombstone × RowMarker × List (ColumnId × C))) :
    (rows.foldl acceptRow {}).WellFormed := by
  refine foldlRecOn rows _ wellFormed_empty fun _ hp r _ => hp.modifyRow ?_ fun row _ => ?_
  · exact ⟨shadowed_empty, rfl⟩
  · exact DeletableRow.shadowed_applyTombstone (row.applyMarker r.2.2.1) r.2.1

variable {v : MutationPartitionView Pos C}

theorem wellFormed_build (h : v.WellFormed) : (build v).WellFormed where
  tombstone := tombstone_apply_empty _
  staticRow := by
    have cells := Row.cells_foldl_appendCell {} v.staticCells (CellOps.setMostRecentVersion · 0)
    exact (congrArg (Sorted Prod.fst) cells).mpr (pairwise_map.2 h.staticCells)
  rows := (wellFormed_buildRows v.rows).rows
  entries := (wellFormed_buildRows v.rows).entries
  rowTombstones := RangeTombstoneList.wellFormed_nil.applyAll h.rowTombstones

variable [SchemaOps S C]

theorem sorted_convertRow (oldSchema newSchema : S) (kind : ColumnKind) (r : Row C) :
    (convertRow oldSchema newSchema kind r).Sorted := by
  refine foldlRecOn r.cells _ Row.sorted_empty fun dst hdst p _ => ?_
  split
  · exact hdst.applyCell _ _ 0
  · exact hdst

theorem wellFormed_upgradeRows (oldSchema newSchema : S) {rows : List (RowsEntry Pos C)}
    (real : ∀ e ∈ rows, e.dummy = false) : (rows.foldl (convertEntry oldSchema newSchema) {}).WellFormed := by
  refine foldlRecOn rows _ wellFormed_empty fun _ hp e he => hp.modifyRow ?_ fun row _ => ?_
  · exact ⟨shadowed_empty, real e he⟩
  · exact DeletableRow.shadowed_applyTombstone (row.applyMarker e.row.marker) e.row.deletedAt

theorem WellFormed.upgrade (h : p.WellFormed) (oldSchema newSchema : S) : (p.upgrade oldSchema newSchema).WellFormed where
  tombstone := tombstone_apply_empty _
  staticRow := sorted_convertRow oldSchema newSchema .static p.staticRow
  rows := (wellFormed_upgradeRows oldSchema newSchema fun e he => (h.entries e he).2).rows
  entries := (wellFormed_upgradeRows oldSchema newSchema fun e he => (h.entries e he).2).entries
  rowTombstones := RangeTombstoneList.wellFormed_nil.applyAll h.rowTombstones.proper

theorem WellFormed.apply (h : p.WellFormed) (hq : q.WellFormed) (s qSchema : S) : (p.apply s q qSchema).WellFormed := by
  unfold MutationPartition.apply
  split
  · exact h.merge (hq.upgrade qSchema s) 0
  · exact h.merge hq 0

theorem WellFormed.applyView (h : p.WellFormed) (hv : v.WellFormed) (s vSchema : S)
    (n : UInt32) : (p.applyView s v vSchema n).WellFormed := by
  unfold MutationPartition.applyView
  split
  · exact h.merge (wellFormed_build hv) n
  · exact h.merge ((wellFormed_build hv).upgrade vSchema s) n

omit [SchemaOps S C] in
theorem WellFormed.setMostRecentVersion (h : p.WellFormed) {v : UInt32} (hq : p.setMostRecentVersion v = some q) :
    q.WellFormed := by
  unfold MutationPartition.setMostRecentVersion at hq
  simp only at hq
  split at hq <;> cases hq
  exact h.modifyRow ⟨shadowed_empty, rfl⟩ fun _ hrow => hrow

theorem WellFormed.applyIncompleteRow (h : p.WellFormed) (dst : List (MutationPartition Pos C)) (key : Pos)
    (es : List (RowsEntry Pos C)) : (p.applyIncompleteRow dst key es).WellFormed := by
  have stored : ∀ continuous, (p.modifyRow { position := key, continuous } (      es.foldl (fun row e => row.apply e.row))).WellFormed := fun _ =>
    h.modifyRow ⟨shadowed_empty, rfl⟩ fun row hrow =>
      foldlRecOn es _ hrow fun row _ e _ => shadowed_apply row e.row 0
  unfold MutationPartition.applyIncompleteRow
  split
  · exact stored true
  · split
    · split
      · exact h
      · exact stored _
    · split
      · exact stored true
      · exact h

theorem wellFormed_applyIncomplete {dst src : List (MutationPartition Pos C)} (hdst : ∀ p ∈ dst, p.WellFormed)
    (hsrc : ∀ p ∈ src, p.WellFormed) : (applyIncomplete dst src).WellFormed := by
  cases dst with
  | nil => exact wellFormed_empty
  | cons d dst =>
    have hd := hdst d mem_cons_self
    refine foldlRecOn (sourceRows src) _ ?_ fun m hm g _ => ?_
    · refine foldlRecOn src _ hd fun m hm p hp => ?_
      refine ⟨hm.tombstone_apply (hsrc p hp), ?_, hm.rows, hm.entries, hm.rowTombstones.applyAll (hsrc p hp).rowTombstones.proper⟩
      split
      · exact hm.staticRow.apply p.staticRow 0
      · exact hm.staticRow
    · split
      · exact hm
      · exact hm.applyIncompleteRow _ _ _

end MutationPartition

end ScyllaMoon.Mutation
