import ScyllaMoon.Query.Slice

/-!
# Results, digests and their memory

A replica is asked for a result, for the digest of one, or for both. What it writes is charged to a memory accounter,
which ends the read when there is too much of it. For a digest alone nothing has to be written, so that the size is
measured with a stream that only counts.
-/

namespace ScyllaMoon.Query

open Lib Mutation

/-- `result_request` -/
inductive ResultRequest where
  | onlyResult
  | onlyDigest
  | resultAndDigest
  deriving DecidableEq, Repr

/-- `result_memory_accounter`, of a read that is not stopped by the memory of the shard. It remembers what it was
charged. -/
structure MemoryAccounter where
  totalUsedMemory : Nat := 0
  maximumResultSize : Nat
  charges : List Nat := []
  deriving DecidableEq, Repr

namespace MemoryAccounter

variable (a : MemoryAccounter)

/-- `update` -/
def update (n : Nat) : MemoryAccounter :=
  { a with totalUsedMemory := a.totalUsedMemory + n, charges := a.charges ++ [n] }

/-- `update_and_check` -/
def updateAndCheck (n : Nat) : MemoryAccounter × Bool :=
  (a.update n, decide ((a.update n).totalUsedMemory > a.maximumResultSize))

/-- `check`, which goes by the default of the limit -/
def check : Bool := decide (a.totalUsedMemory > 1024 * 1024)

end MemoryAccounter

section Size

variable {Pos : Type}

/-- A `size_type`, which stands in front of a frame or of a vector -/
def placeHolderSize : Nat := 4

/-- An optional value: whether it is there, and the value -/
def optionalSize (size : Option Nat) : Nat := 1 + size.getD 0

/-- `bytes` -/
def ResultValue.size : ResultValue → Nat
  | bytes v => 4 + v.length
  | counter _ => 4 + 8

/-- `qr_cell` -/
def ResultCell.size (c : ResultCell) : Nat :=
  placeHolderSize + optionalSize (c.timestamp.map fun _ => 8) + optionalSize (c.expiry.map fun _ => 8) + c.value.size + 4 +
    optionalSize (c.ttl.map fun _ => 4)

/-- What `get_compacted_row_slice` writes -/
def cellsSize (cells : List (Option ResultCell)) : Nat := (cells.map fun c => optionalSize (c.map ResultCell.size)).sum

/-- `qr_clustered_row`: the row, its key, and the cells in a frame of their own -/
def ResultRow.size (keySize : Pos → Nat) (r : ResultRow Pos) : Nat :=
  placeHolderSize + optionalSize (r.key.map keySize) + placeHolderSize + placeHolderSize + cellsSize r.cells

end Size

section Digest

variable {PK Pos Key Id : Type} [LinearOrder Key] [LinearOrder Id]

/-- What is fed to the hasher -/
inductive Hashed (PK Pos Key Id : Type) [LinearOrder Key] [LinearOrder Id] where
  | partitionKey (k : PK)
  | clusteringKey (x : Pos)
  | tombstone (t : Tombstone)
  | rowTombstone (t : RowTombstone)
  | cell (id : ColumnId) (data : CellData Key Id)

/-- The time of the latest update to a cell, where `last_update` is that of a collection -/
def lastUpdate : CellData Key Id → Int
  | .atomic c => c.timestamp
  | .counter c => c.timestamp
  | .collection m => m.cells.foldl (fun t e => max t e.2.timestamp) (max missingTimestamp m.tomb.timestamp)

/-- `hash_row_slice`: what is fed, and the time of the latest update -/
def hashRowSlice (cells : Row (ColumnCell Key Id)) (columns : List ColumnId) : List (Hashed PK Pos Key Id) × Int :=
  let found := columns.filterMap fun id => (cells.findCell id).map fun c => (id, c.data)
  (found.map fun c => .cell c.1 c.2, found.foldl (fun t c => max t (lastUpdate c.2)) missingTimestamp)

end Digest

/-- `mutation_querier`; the writer of the rows is there once the static row is written. -/
structure MutationQuerier (Pos : Type) where
  staticRow : Option (List (Option ResultCell)) := none
  rows : List (ResultRow Pos) := []
  liveDataInStaticRow : Bool := false
  liveClusteringRows : UInt32 := 0

/-- `query_result_builder`, with the `result::builder` that it fills. Its querier is that of the last partition, and
`digestPos` is the digest to go back to if the partition is retracted. -/
structure ResultBuilder (PK Pos Key Id : Type) [LinearOrder Key] [LinearOrder Id] where
  request : ResultRequest
  shortReadAllowed : Bool
  accounter : MemoryAccounter
  digest : List (Hashed PK Pos Key Id) := []
  lastModified : Int := missingTimestamp
  partitions : List (ResultPartition Pos) := []
  rowCount : UInt32 := 0
  partitionCount : UInt32 := 0
  shortRead : Bool := false
  stop : Bool := false
  querier : MutationQuerier Pos := {}
  digestPos : List (Hashed PK Pos Key Id) := []

namespace ResultBuilder

variable {PK Pos Key Id : Type} [LinearOrder Key] [LinearOrder Id] (b : ResultBuilder PK Pos Key Id)

/-- `requested_digest` -/
def requestedDigest : Bool := b.request != .onlyResult

/-- `requested_result` -/
def requestedResult : Bool := b.request != .onlyDigest

/-- What goes into the digest, and when it was updated last -/
def feed (items : List (Hashed PK Pos Key Id)) (updated : Int) : ResultBuilder PK Pos Key Id :=
  if b.requestedDigest then { b with digest := b.digest ++ items, lastModified := max b.lastModified updated } else b

/-- `consume_new_partition` -/
def consumeNewPartition (key : PK) : ResultBuilder PK Pos Key Id :=
  let digest := if b.requestedDigest then b.digest ++ [.partitionKey key] else b.digest
  { b with digest, digestPos := digest, querier := {} }

section Consume

variable (slice : PartitionSlice Pos Key) (keySize : Pos → Nat) (b : ResultBuilder PK Pos Key Id)

/-- What the accounter is charged for the static row. For a digest, the cells go to the writer of the result, and the
stream that counts has seen the number of cells only. -/
def staticCharge (cells : List (Option ResultCell)) : Option Nat :=
  if slice.staticColumns.isEmpty then none
  else if b.requestedResult then some (cellsSize cells)
  else if b.shortReadAllowed then some placeHolderSize
  else none

/-- `query_static_row` -/
def queryStaticRow (r : Row (ColumnCell Key Id)) (current : Tombstone) : ResultBuilder PK Pos Key Id :=
  let cells := getCompactedRowSlice slice r slice.staticColumns
  let b := { b with accounter := (b.staticCharge slice cells).elim b.accounter b.accounter.update }
  let hashed := hashRowSlice r slice.staticColumns
  let b := if slice.staticColumns.isEmpty then b else b.feed (.tombstone current :: hashed.1) (max current.timestamp hashed.2)
  let written := if b.requestedResult || b.shortReadAllowed then cells else []
  { b with querier := { b.querier with staticRow := some written } }

/-- `prepare_writers` -/
def prepareWriters : ResultBuilder PK Pos Key Id :=
  if b.querier.staticRow.isNone then
    let b := b.queryStaticRow slice {} {}
    { b with querier := { b.querier with liveDataInStaticRow := false } }
  else b

/-- `consume(static_row&&)` -/
def consumeStaticRow (r : Row (ColumnCell Key Id)) (current : Tombstone) : ResultBuilder PK Pos Key Id :=
  let b := b.queryStaticRow slice r current
  { b with querier := { b.querier with liveDataInStaticRow := true }, stop := false }

/-- What the accounter is charged for a row. The stream that counts has also seen the number of rows. -/
def rowCharge (row : ResultRow Pos) : Option Nat :=
  if b.requestedResult then some (row.size keySize)
  else if b.shortReadAllowed then some (placeHolderSize + row.size keySize)
  else none

/-- `consume(clustering_row&&)`, and whether it is to stop -/
def consumeClusteringRow (x : Pos) (cr : DeletableRow (ColumnCell Key Id)) (current : RowTombstone) :
    ResultBuilder PK Pos Key Id × Bool :=
  let b := b.prepareWriters slice
  let hashed := hashRowSlice cr.cells slice.regularColumns
  let b := b.feed (.clusteringKey x :: .rowTombstone current :: hashed.1) (max current.shadowable.timestamp hashed.2)
  let row := writeRow slice x cr.cells
  let charged := (b.rowCharge keySize row).elim (b.accounter, false) b.accounter.updateAndCheck
  let stop := charged.2 && b.shortReadAllowed
  ({ b with
    accounter := charged.1
    stop
    querier := { b.querier with
      rows := if b.requestedResult then b.querier.rows ++ [row] else b.querier.rows
      liveClusteringRows := b.querier.liveClusteringRows + 1 } }, stop)

/-- `consume_end_of_partition`, and whether it is to stop -/
def consumeEndOfPartition : ResultBuilder PK Pos Key Id × Bool :=
  let b := b.prepareWriters slice
  let q := b.querier
  let retracted := q.liveClusteringRows == 0 && (hasCkSelector slice.rowRanges || !q.liveDataInStaticRow)
  let b := if retracted then { b with digest := b.digestPos }
    else
      { b with
        rowCount := b.rowCount + max q.liveClusteringRows 1
        partitionCount := b.partitionCount + 1
        partitions := b.partitions ++ [{ staticRow := q.staticRow.getD [], rows := q.rows }] }
  let stop := if b.shortReadAllowed && !retracted && !b.stop then b.accounter.check else b.stop
  ({ b with stop, shortRead := b.shortRead || stop }, stop)

/-- The consumer of the compactor -/
def consume (key : PK) : Compacted Pos (ColumnCell Key Id) → ResultBuilder PK Pos Key Id × Bool
  | .newPartition => (b.consumeNewPartition key, false)
  | .tombstone _ => (b, false)
  | .staticRow row tomb _ => (b.consumeStaticRow slice row tomb, false)
  | .clusteringRow x row tomb _ => b.consumeClusteringRow slice keySize x row tomb
  | .rangeTombstone _ => ({ b with stop := false }, false)
  | .endOfPartition => b.consumeEndOfPartition slice

/-- The partition is ended when the builder wants no more of it. -/
def consumePartition (key : PK) :
    ResultBuilder PK Pos Key Id → List (Compacted Pos (ColumnCell Key Id)) → ResultBuilder PK Pos Key Id × Bool
  | b, [] => (b, false)
  | b, .endOfPartition :: _ => b.consumeEndOfPartition slice
  | b, out :: outs =>
    let consumed := b.consume slice keySize key out
    if consumed.2 then consumed.1.consumeEndOfPartition slice else consumePartition key consumed.1 outs

end Consume

end ResultBuilder

end ScyllaMoon.Query
