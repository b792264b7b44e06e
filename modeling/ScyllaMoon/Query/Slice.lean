import ScyllaMoon.Mutation.Compactor
import ScyllaMoon.Mutation.Counters

/-!
# Slices and results

A `partition_slice` says which rows and columns of a partition a query reads. Its clustering ranges are listed
in the order of the query. A result has for each partition the cells of the static row and of its rows, where a
cell that is not live is left out.
-/

namespace ScyllaMoon.Query

open Lib Mutation

/-- `query::clustering_range`; a missing bound leaves the range open. -/
structure RowRange (Pos : Type) where
  start : Option Pos := none
  stop : Option Pos := none
  deriving DecidableEq, Repr

/-- `is_full` -/
def RowRange.isFull {Pos : Type} (r : RowRange Pos) : Bool := r.start.isNone && r.stop.isNone

/-- `has_ck_selector` -/
def hasCkSelector {Pos : Type} (ranges : List (RowRange Pos)) : Bool := ranges.isEmpty || ranges.any fun r => !r.isFull

/-- `query::max_rows` and `query::max_partitions` -/
def maxRows : UInt32 := 4294967295

/-- `query::partition_slice`, with the ranges it has for the key of the partition. -/
structure PartitionSlice (Pos Key : Type) [LinearOrder Key] where
  rowRanges : List (RowRange Pos)
  staticColumns : List ColumnId := []
  regularColumns : List ColumnId := []
  partitionRowLimit : UInt32 := maxRows
  reversed : Bool := false
  distinct : Bool := false
  sendClusteringKey : Bool := false
  sendTimestamp : Bool := false
  sendExpiry : Bool := false
  sendTtl : Bool := false
  /-- `to_value` of a collection, for the format and options of the slice -/
  toValue : CollectionMutation Key → List UInt8 := fun _ => []

/-- The value of a cell in a result. -/
inductive ResultValue where
  | bytes (v : List UInt8)
  | counter (total : Int)
  deriving DecidableEq, Repr

/-- `qr_cell` -/
structure ResultCell where
  timestamp : Option Int := none
  expiry : Option Int := none
  value : ResultValue
  mostRecentVersion : UInt32 := 0
  ttl : Option Int := none
  deriving DecidableEq, Repr

/-- `qr_clustered_row` -/
structure ResultRow (Pos : Type) where
  key : Option Pos
  cells : List (Option ResultCell)
  deriving DecidableEq, Repr

/-- `qr_partition` -/
structure ResultPartition (Pos : Type) where
  staticRow : List (Option ResultCell)
  rows : List (ResultRow Pos)
  deriving DecidableEq, Repr

/-- `gc_clock::time_point::min()` -/
def gcClockMin : Int := -2147483648

section Write

variable {Pos Key Id : Type} [LinearOrder Key] [LinearOrder Id] (slice : PartitionSlice Pos Key)

/-- `write_cell`, of an atomic cell -/
def writeCell (c : AtomicCell) (mostRecentVersion : UInt32) : ResultCell where
  timestamp := if slice.sendTimestamp then some c.timestamp else none
  expiry := match c with
    | .expiring _ _ expiry _ => if slice.sendExpiry then some expiry else none
    | _ => none
  value := match c with
    | .live _ v | .expiring _ v _ _ => .bytes v
    | .dead .. => .bytes []
  mostRecentVersion
  ttl := match c with
    | .expiring _ _ _ ttl => if slice.sendTtl then some ttl else none
    | _ => none

/-- `write_counter_cell` -/
def writeCounterCell (c : CounterCell Id) : ResultCell where
  timestamp := if slice.sendTimestamp then some c.timestamp else none
  value := .counter c.totalValue

/-- What is written of the cell of a column: nothing unless some of it is live. -/
def writeColumn (c : ColumnCell Key Id) : Option ResultCell :=
  match c.data with
  | .atomic a => if a.isLive then some (writeCell slice a c.mostRecentVersion) else none
  | .counter a => if a.isLive then some (writeCounterCell slice a) else none
  | .collection m =>
    if (.collection m : CellData Key Id).isAnyLive {} gcClockMin then some { value := .bytes (slice.toValue m) } else none

/-- `get_compacted_row_slice` -/
def getCompactedRowSlice (cells : Row (ColumnCell Key Id)) (columns : List ColumnId) : List (Option ResultCell) :=
  columns.map fun id => (cells.findCell id).bind (writeColumn slice)

/-- A row as it is written. -/
def writeRow (x : Pos) (cells : Row (ColumnCell Key Id)) : ResultRow Pos where
  key := if slice.sendClusteringKey then some x else none
  cells := getCompactedRowSlice slice cells slice.regularColumns

/-- What `compact_mutation` compacts a partition with, for a query. -/
def queryMode (now gcGrace : Int) : CompactMutation.Mode where
  onlyLive := true
  sstableCompaction := false
  queryTime := now
  gcBefore := saturatingSubtract now gcGrace
  reversed := slice.reversed
  partitionRowLimit := if slice.distinct then 1 else slice.partitionRowLimit
  hasCkSelector := hasCkSelector slice.rowRanges

end Write

end ScyllaMoon.Query
