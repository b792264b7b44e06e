import ScyllaMoon.Mutation.Content
import ScyllaMoon.Mutation.RangeDifference

/-!
# The difference of two partitions

`mutation_partition::difference` is meant to give the least partition that brings another one up to
date. It is put together from the differences of range tombstones, rows, cells, counters and
collections, each of which leaves out what the other side has already.
-/

namespace ScyllaMoon.Mutation

open Lib

variable {Pos Key Id : Type} [LinearOrder Key] [LinearOrder Id]

namespace CounterCell

/-- Whether a shard is not in the other cell, or is newer. -/
def newShard (a : CounterShard Id) (it : Option (CounterShard Id)) : Bool :=
  it.all fun b => decide (a.logicalClock > b.logicalClock)

/-- `counter_cell_view::difference` -/
def difference : (a b : CounterCell Id) → Option (CounterCell Id)
  | live t s hs, live t' s' hs' =>
    let shards := alongside CounterShard.id CounterShard.id (fun a it => if newShard a it then some a else none) s s'
    have sorted : Sorted CounterShard.id shards := by
      rw [show shards = _ from alongside_filter hs hs' newShard]
      exact hs.sublist List.filter_sublist
    if shards ≠ [] then some (live (max t t') shards sorted)
    else if t > t' then some (live t [] .nil) else none
  | dead t d, live .. => some (dead t d)
  | dead t d, dead t' d' =>
    if (AtomicCell.dead t' d').compareForMerge (.dead t d) = .lt then some (dead t d) else none
  | live .., dead .. => none

end CounterCell

namespace CollectionMutation

/-- Whether an element is not in the other collection, or is greater. -/
def newElement (c : Key × AtomicCell) (it : Option (Key × AtomicCell)) : Bool :=
  it.all fun d => decide (c.2.compareForMerge d.2 = .gt)

/-- `collection_type_impl::difference` -/
def difference (a b : CollectionMutation Key) : CollectionMutation Key where
  tomb := if a.tomb > b.tomb then a.tomb else {}
  cells := alongside Prod.fst Prod.fst (fun c it => if newElement c it then some c else none) a.cells b.cells
  written := by
    split
    · exact a.written
    · exact Tombstone.written_empty
  sorted := by
    rw [alongside_filter a.sorted b.sorted]
    exact a.sorted.sublist List.filter_sublist

/-- `collection_type_impl::is_empty` -/
def isEmpty (a : CollectionMutation Key) : Bool := decide (a.tomb.timestamp = missingTimestamp) && a.cells.isEmpty

end CollectionMutation

namespace CellData

/-- What `row::difference` appends for a column that both rows have. -/
def difference : (a b : CellData Key Id) → Option (CellData Key Id)
  | atomic a, atomic b => if a.compareForMerge b = .gt then some (atomic a) else none
  | counter a, counter b => (a.difference b).map counter
  | collection a, collection b => if (a.difference b).isEmpty then none else some (collection (a.difference b))
  -- the cells of one column are of one type
  | _, _ => none

end CellData

namespace ColumnCell

/-- `CellData.difference`, with the `most_recent_version` of the cell where it is copied as it is. -/
def difference (a b : ColumnCell Key Id) : Option (ColumnCell Key Id) :=
  (a.data.difference b.data).map fun data =>
    { data, mostRecentVersion := if a.data.type = .atomic then a.mostRecentVersion else 0 }

end ColumnCell

/-- What `row::difference` appends for a cell, given the one that the other row has in its column. -/
def Row.differenceCell (c : ColumnId × ColumnCell Key Id) :
    (it : Option (ColumnId × ColumnCell Key Id)) → Option (ColumnId × ColumnCell Key Id)
  | none => some c
  | some d => (c.2.difference d.2).map fun diff => (c.1, diff)

/-- `row::difference` -/
def Row.difference (r other : Row (ColumnCell Key Id)) : Row (ColumnCell Key Id) :=
  (alongside Prod.fst Prod.fst Row.differenceCell r.cells other.cells).foldl (fun r p => r.appendCell p.1 p.2) {}

namespace DeletableRow

/-- `deletable_row::difference` -/
def difference (r other : DeletableRow (ColumnCell Key Id)) : DeletableRow (ColumnCell Key Id) :=
  let dr : DeletableRow (ColumnCell Key Id) := {}
  -- row tombstones compare by their shadowable part
  let dr := if r.deletedAt.shadowable > other.deletedAt.shadowable then dr.applyTombstone r.deletedAt else dr
  let dr := if r.marker.compareForMerge other.marker = .gt then dr.applyMarker r.marker else dr
  { dr with cells := r.cells.difference other.cells }

/-- `deletable_row::empty` -/
def empty (r : DeletableRow (ColumnCell Key Id)) : Bool :=
  decide (r.deletedAt.shadowable.timestamp = missingTimestamp) && r.marker.isMissing && r.cells.empty

end DeletableRow

/-- What `mutation_partition::difference` inserts for a row, given the one that the other partition has. -/
def RowsEntry.difference (r : ColumnEntry Pos Key Id) :
    (it : Option (ColumnEntry Pos Key Id)) → Option (ColumnEntry Pos Key Id)
  | none => some { position := r.position, row := r.row }
  | some e =>
    let dr := r.row.difference e.row
    if dr.empty then none else some { position := r.position, row := dr }

/-- `mutation_partition::difference` -/
def MutationPartition.difference [Position Pos] (p other : ColumnPartition Pos Key Id) :
    ColumnPartition Pos Key Id where
  tombstone := if p.tombstone > other.tombstone then Tombstone.apply {} p.tombstone else {}
  staticRow := p.staticRow.difference other.staticRow
  rowTombstones := p.rowTombstones.difference other.rowTombstones
  rows := alongside RowsEntry.position RowsEntry.position RowsEntry.difference
    (p.rows.filter fun r => !r.dummy) (other.rows.filter fun e => !e.dummy)

end ScyllaMoon.Mutation
