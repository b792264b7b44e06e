import ScyllaMoon.Mutation.Absorb
import ScyllaMoon.Mutation.ColumnCell

/-!
# What a partition says

A partition is a set of writes. Read as such it is a tombstone, a tombstone for every position that is
deleted by a range, a cell for every column of the static row, and a row for every position that has
one. How the cells, rows and ranges are stored does not show in it, and neither does the order in which
they were written. `mutation_partition::apply` joins what two partitions say.
-/

namespace ScyllaMoon.Mutation

open Lib

variable {Pos Key Id : Type} [LinearOrder Key] [LinearOrder Id]

/-- What one row says. -/
structure RowContent (Key Id : Type) [LinearOrder Key] [LinearOrder Id] where
  deletedAt : RowTombstone
  marker : RowMarker
  cells : ColumnId → Option (CellData Key Id)

/-- What a partition says. -/
structure Content (Pos Key Id : Type) [LinearOrder Key] [LinearOrder Id] where
  tombstone : Tombstone
  deletion : Pos → Option Tombstone
  staticRow : ColumnId → Option (CellData Key Id)
  rows : Pos → Option (RowContent Key Id)

/-- The cells of two rows, column by column. -/
def joinCells (r s : ColumnId → Option (CellData Key Id)) : ColumnId → Option (CellData Key Id) :=
  fun id => Option.merge CellData.merge (r id) (s id)

def RowContent.join (r s : RowContent Key Id) : RowContent Key Id where
  deletedAt := s.deletedAt.apply r.deletedAt (r.marker.apply s.marker)
  marker := r.marker.apply s.marker
  cells := joinCells r.cells s.cells

def Content.join (c d : Content Pos Key Id) : Content Pos Key Id where
  tombstone := max c.tombstone d.tombstone
  deletion x := Option.merge max (c.deletion x) (d.deletion x)
  staticRow := joinCells c.staticRow d.staticRow
  rows x := Option.merge RowContent.join (c.rows x) (d.rows x)

namespace Row

/-- The data of a column. -/
def data (r : Row (ColumnCell Key Id)) (id : ColumnId) : Option (CellData Key Id) :=
  (r.findCell id).map ColumnCell.data

variable {C : Type} [CellOps C]

open CellOps (merge)

variable {cells : List (ColumnId × C)}

/-- In `vector` storage the version is handed on to every merge. -/
theorem foldl_applyCell_vector (small : ∀ p ∈ cells, p.1 < maxVectorSize) (v : UInt32)
    (l : List (ColumnId × C)) : (cells.foldl (fun r p => r.applyCell p.1 p.2 v) ⟨.vector, l⟩ : Row C) =
      ⟨.vector, cells.foldl (fun l e => Lib.upsert Prod.fst e (fun p => (p.1, merge p.2 e.2 v)) l) l⟩ := by
  induction cells generalizing l with
  | nil => rfl
  | cons p cells ih =>
    obtain ⟨lt, small⟩ := List.forall_mem_cons.1 small
    have applied : (⟨.vector, l⟩ : Row C).applyCell p.1 p.2 v =
        ⟨.vector, upsert p.1 p.2 (merge · p.2 v) l⟩ := if_pos ⟨rfl, lt⟩
    rw [List.foldl_cons, applied, ih small]
    rfl

/-- In `set` storage none is. -/
theorem foldl_applyCell_set (cells : List (ColumnId × C)) (v : UInt32) (l : List (ColumnId × C)) :
    (cells.foldl (fun r p => r.applyCell p.1 p.2 v) ⟨.set, l⟩ : Row C) =
      ⟨.set, cells.foldl (fun l e => Lib.upsert Prod.fst e (fun p => (p.1, merge p.2 e.2 0)) l) l⟩ := by
  induction cells generalizing l with
  | nil => rfl
  | cons p cells ih =>
    exact ih (upsert p.1 p.2 (merge · p.2 0) l)

/-- The version that the merges of `r.apply other v` are given -/
def handedOn {C : Type} (r other : Row C) (v : UInt32) : UInt32 :=
  if r.storage = .vector ∧ ∀ p ∈ other.cells, p.1 < maxVectorSize then v else 0

omit [CellOps C] in
/-- The columns of a row come before the last one. -/
theorem le_getLast (h : Lib.Sorted Prod.fst cells) {last : ColumnId × C}
    (hl : cells.getLast? = some last) : ∀ p ∈ cells, p.1 ≤ last.1 := by
  obtain ⟨front, rfl⟩ := List.getLast?_eq_some_iff.1 hl
  intro p hp
  rcases List.mem_append.1 hp with hp | hp
  · exact ((List.pairwise_append.1 h).2.2 p hp last (List.mem_singleton_self last)).le
  · exact (congrArg Prod.fst (List.mem_singleton.1 hp)).le

variable {r other : Row C}

theorem cells_apply_version (ho : other.Sorted) (v : UInt32) : (r.apply other v).cells =
    other.cells.foldl (fun l e => Lib.upsert Prod.fst e (fun p => (p.1, merge p.2 e.2 (r.handedOn other v))) l)
      r.cells := by
  obtain ⟨storage, l⟩ := r
  unfold Row.apply handedOn
  cases hl : other.cells.getLast? with
  | none => rw [List.getLast?_eq_none_iff.1 hl, List.foldl_nil]
  | some last =>
    have below := le_getLast ho hl
    dsimp only
    unfold reserve
    by_cases large : last.1 ≥ maxVectorSize
    · have wide : ¬(storage = .vector ∧ ∀ p ∈ other.cells, p.1 < maxVectorSize) := fun h =>
        absurd (h.2 last (List.mem_of_getLast? hl)) (Nat.not_lt.2 large)
      rw [if_pos large, if_neg wide, foldl_applyCell_set]
    · have small : ∀ p ∈ other.cells, p.1 < maxVectorSize := fun p hp =>
        Nat.lt_of_le_of_lt (below p hp) (Nat.not_le.1 large)
      rw [if_neg large]
      cases storage with
      | vector => rw [if_pos ⟨rfl, small⟩, foldl_applyCell_vector small]
      | set => rw [if_neg (fun h => nomatch h.1), foldl_applyCell_set]

theorem findCell_apply_version (h : r.Sorted) (ho : other.Sorted) (v : UInt32) (id : ColumnId) :
    (r.apply other v).findCell id =
      Option.merge (merge · · (r.handedOn other v)) (r.findCell id) (other.findCell id) := by
  have keeps : ∀ e p : ColumnId × C, (p.1, merge p.2 e.2 (r.handedOn other v)).1 = p.1 := fun _ _ => rfl
  simp only [findCell]
  rw [cells_apply_version ho, find?_foldl_upsert h ho keeps]
  exact map_merge fun _ _ _ _ => rfl

theorem findCell_apply (h : r.Sorted) (ho : other.Sorted) (id : ColumnId) :
    (r.apply other).findCell id = Option.merge (merge · · 0) (r.findCell id) (other.findCell id) := by
  have none : r.handedOn other 0 = 0 := ite_self 0
  have found := findCell_apply_version h ho 0 id
  rwa [none] at found

theorem data_apply {r other : Row (ColumnCell Key Id)} (h : r.Sorted) (ho : other.Sorted) :
    (r.apply other).data = joinCells r.data other.data := by
  funext id
  unfold data joinCells
  rw [findCell_apply h ho]
  exact map_merge fun _ _ _ _ => rfl

end Row

def DeletableRow.content (r : DeletableRow (ColumnCell Key Id)) : RowContent Key Id where
  deletedAt := r.deletedAt
  marker := r.marker
  cells := r.cells.data

theorem DeletableRow.content_apply {r src : DeletableRow (ColumnCell Key Id)} (h : r.cells.Sorted)
    (hs : src.cells.Sorted) : (r.apply src).content = r.content.join src.content := by
  unfold DeletableRow.apply content RowContent.join
  rw [Row.data_apply h hs]

namespace MutationPartition

/-- The containers of a partition are in order. -/
structure Ordered [LinearOrder Pos] (p : ColumnPartition Pos Key Id) : Prop where
  staticRow : p.staticRow.Sorted
  rows : Sorted RowsEntry.position p.rows
  cells : ∀ e ∈ p.rows, e.row.cells.Sorted
  rowTombstones : p.rowTombstones.WellFormed

variable [Position Pos] {p q : ColumnPartition Pos Key Id}

theorem ordered_empty : ({} : ColumnPartition Pos Key Id).Ordered :=
  ⟨Row.sorted_empty, .nil, nofun, RangeTombstoneList.wellFormed_nil⟩

theorem Ordered.merge (h : p.Ordered) (hq : q.Ordered) : (p.merge q).Ordered where
  staticRow := h.staticRow.apply q.staticRow 0
  rows := List.foldlRecOn q.rows _ h.rows fun _ hl _ _ => Sorted.upsert hl fun _ => rfl
  cells := List.foldlRecOn (motive := fun l : List (ColumnEntry Pos Key Id) => ∀ e ∈ l, e.row.cells.Sorted)
    q.rows _ h.cells fun _ hl e he => forall_mem_upsert (hq.cells e he) hl fun _ _ hi => hi.apply e.row.cells 0
  rowTombstones := h.rowTombstones.applyAll hq.rowTombstones.proper

/-- What a partition says. -/
def content (p : ColumnPartition Pos Key Id) : Content Pos Key Id where
  tombstone := p.tombstone
  deletion := p.rowTombstones.tombstoneAt
  staticRow := p.staticRow.data
  rows x := (p.rows.find? fun e => decide (e.position = x)).map fun e => e.row.content

theorem rows_merge (h : p.Ordered) (hq : q.Ordered) (x : Pos) : (p.merge q).content.rows x =
    Option.merge RowContent.join (p.content.rows x) (q.content.rows x) := by
  have keeps : ∀ e i : ColumnEntry Pos Key Id, { i with row := i.row.apply e.row 0 }.position =
      i.position := fun _ _ => rfl
  have found := find?_foldl_upsert h.rows hq.rows keeps x
  exact (congrArg (Option.map fun e => e.row.content) found).trans <| map_merge fun i hi e he =>
    DeletableRow.content_apply (h.cells i (List.mem_of_find?_eq_some hi)) (hq.cells e (List.mem_of_find?_eq_some he))

/-- `mutation_partition::apply` joins what the partitions say. -/
theorem content_merge (h : p.Ordered) (hq : q.Ordered) : (p.merge q).content = p.content.join q.content := by
  have rows := funext (rows_merge h hq)
  have deletion : (p.merge q).content.deletion = fun x => Option.merge max (p.content.deletion x) (q.content.deletion x) :=
    funext fun x => (RangeTombstoneList.tombstoneAt_applyAll h.rowTombstones hq.rowTombstones x).trans
      (Tombstone.overlay_eq_merge _ _)
  have staticRow : (p.merge q).content.staticRow = joinCells p.content.staticRow q.content.staticRow :=
    Row.data_apply h.staticRow hq.staticRow
  have tombstone : (p.merge q).content.tombstone = max p.content.tombstone q.content.tombstone :=
    Tombstone.apply_eq_max _ _
  unfold Content.join
  rw [← rows, ← deletion, ← staticRow, ← tombstone]

end MutationPartition

end ScyllaMoon.Mutation
