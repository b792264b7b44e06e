import ScyllaMoon.Mutation.Compact
import ScyllaMoon.Reader.Squashed

/-!
# `compact_mutation`

The compactor consumes the fragments of a partition in position order and hands what is left of them to
its consumer. A `range_tombstone_accumulator` holds the range tombstones that may cover the next row. The
compactor runs in two modes: for sstables, where a tombstone is only purged if its timestamp is below the
one given for the partition, and for queries, where rows are counted against the limits of the query.
-/

namespace ScyllaMoon.Mutation

open Lib Reader

variable {Pos Key Id : Type} [LinearOrder Key] [LinearOrder Id]

/-- `range_tombstone_accumulator` -/
structure RangeTombstoneAccumulator (Pos : Type) where
  reversed : Bool
  partitionTombstone : Tombstone := {}
  rangeTombstones : List (RangeTombstone Pos) := []
  currentTombstone : Tombstone := {}

namespace RangeTombstoneAccumulator

variable (a : RangeTombstoneAccumulator Pos)

/-- `update_current_tombstone` -/
def updateCurrentTombstone : RangeTombstoneAccumulator Pos :=
  { a with currentTombstone := a.rangeTombstones.foldl (fun t rt => t.apply rt.tomb) a.partitionTombstone }

/-- `set_partition_tombstone` -/
def setPartitionTombstone (t : Tombstone) : RangeTombstoneAccumulator Pos :=
  updateCurrentTombstone { a with partitionTombstone := t }

/-- `drop_unneeded_tombstones` -/
def dropUnneededTombstones (unneeded : RangeTombstone Pos → Bool) : RangeTombstoneAccumulator Pos :=
  updateCurrentTombstone { a with rangeTombstones := a.rangeTombstones.dropWhile unneeded }

variable [LinearOrder Pos] (a : RangeTombstoneAccumulator Pos)

/-- `tombstone_for_row` -/
def tombstoneForRow (x : Pos) : RangeTombstoneAccumulator Pos :=
  a.dropUnneededTombstones fun rt => if a.reversed then decide (x < rt.start) else decide (rt.stop ≤ x)

/-- `apply` -/
def apply (rt : RangeTombstone Pos) : RangeTombstoneAccumulator Pos :=
  let a := a.dropUnneededTombstones fun it =>
    if a.reversed then decide (rt.stop ≤ it.start) else decide (it.stop ≤ rt.start)
  let behind := fun it : RangeTombstone Pos =>
    if a.reversed then decide (it.start < rt.start) else decide (rt.stop < it.stop)
  { a with
    currentTombstone := a.currentTombstone.apply rt.tomb
    -- `upper_bound`
    rangeTombstones := a.rangeTombstones.takeWhile (fun it => !behind it) ++
      rt :: a.rangeTombstones.dropWhile fun it => !behind it }

end RangeTombstoneAccumulator

/-- What `compact_mutation` hands to its consumer. -/
inductive Compacted (Pos C : Type) where
  | newPartition
  | tombstone (t : Tombstone)
  | staticRow (row : Row C) (tomb : Tombstone) (isLive : Bool)
  | clusteringRow (position : Pos) (row : DeletableRow C) (tomb : RowTombstone) (isLive : Bool)
  | rangeTombstone (rt : RangeTombstone Pos)
  | endOfPartition

/-- The fragment that a consumer that writes partitions stores. -/
def Compacted.fragment? {C : Type} : Compacted Pos C → Option (Fragment Pos C)
  | newPartition => none
  | tombstone t => some (.partitionStart t)
  | staticRow row _ _ => some (.staticRow row)
  | clusteringRow position row _ _ => some (.clusteringRow position row)
  | rangeTombstone rt => some (.rangeTombstone rt)
  | endOfPartition => none

/-- The template arguments and the members of `compact_mutation` that do not change within a partition. -/
structure CompactMutation.Mode where
  onlyLive : Bool
  sstableCompaction : Bool
  queryTime : Int
  gcBefore : Int
  /-- what `_get_max_purgeable` returns for the key -/
  maxPurgeable : Int := missingTimestamp
  reversed : Bool := false
  partitionRowLimit : UInt32 := 0
  hasCkSelector : Bool := false

/-- The members of `compact_mutation` that change. -/
structure CompactMutation (Pos : Type) where
  rangeTombstones : RangeTombstoneAccumulator Pos
  rowLimit : UInt32 := 0
  partitionLimit : UInt32 := 0
  staticRowLive : Bool := false
  rowsInCurrentPartition : UInt32 := 0
  currentPartitionLimit : UInt32 := 0
  emptyPartition : Bool := false

namespace CompactMutation

namespace Mode

variable (mode : Mode)

/-- `can_gc` -/
def canGc (t : Tombstone) : Bool :=
  !mode.sstableCompaction || (t.isSet && decide (t.timestamp < mode.maxPurgeable))

/-- The arguments that the rows are compacted with. -/
def expiry : Expiry where
  queryTime := mode.queryTime
  gcBefore := mode.gcBefore
  canGc := mode.canGc

/-- `can_purge_tombstone(tombstone)` -/
def canPurgeTombstone (t : Tombstone) : Bool := decide (t.deletionTime < mode.gcBefore) && mode.canGc t

/-- `can_purge_tombstone(row_tombstone)` -/
def canPurgeRowTombstone (t : RowTombstone) : Bool :=
  decide (max t.regular.deletionTime t.shadowable.deletionTime < mode.gcBefore) && mode.canGc t.shadowable

/-- What `consume(clustering_row&&)` makes of a row under the tombstone of its range: the row, the
tombstone that covers it and whether it is live. -/
def compactRow (current : Tombstone) (r : DeletableRow (ColumnCell Key Id)) :
    DeletableRow (ColumnCell Key Id) × RowTombstone × Bool :=
  let t := r.deletedAt
  let deletedAt := if t.shadowable ≤ current ∨ mode.canPurgeRowTombstone t then {} else t
  let t := { regular := t.regular.apply current, shadowable := t.shadowable.apply current }
  let marker := r.marker.compactAndExpire mode.expiry t.shadowable
  let cells := r.cells.compactAndExpire mode.expiry t
  ({ deletedAt, marker, cells := cells.1 }, t, marker.isLive || cells.2)

end Mode

variable {C : Type} (mode : Mode) (s : CompactMutation Pos)

/-- `partition_is_not_empty` -/
def partitionIsNotEmpty : CompactMutation Pos × List (Compacted Pos C) :=
  if s.emptyPartition then
    let pt := s.rangeTombstones.partitionTombstone
    ({ s with emptyPartition := false },
      .newPartition :: if pt.isSet && !mode.canPurgeTombstone pt then [.tombstone pt] else [])
  else (s, [])

/-- `consume_new_partition` -/
def consumeNewPartition : CompactMutation Pos :=
  { s with
    emptyPartition := true
    rowsInCurrentPartition := 0
    staticRowLive := false
    rangeTombstones := { reversed := s.rangeTombstones.reversed }
    currentPartitionLimit := min s.rowLimit mode.partitionRowLimit }

/-- `consume(tombstone)` -/
def consumeTombstone (t : Tombstone) : CompactMutation Pos × List (Compacted Pos C) :=
  let s := { s with rangeTombstones := s.rangeTombstones.setPartitionTombstone t }
  if !mode.onlyLive && !mode.canPurgeTombstone t then s.partitionIsNotEmpty mode else (s, [])

/-- `consume(static_row&&)` -/
def consumeStaticRow (sr : Row (ColumnCell Key Id)) :
    CompactMutation Pos × List (Compacted Pos (ColumnCell Key Id)) × Bool :=
  let current := s.rangeTombstones.partitionTombstone
  let compacted := sr.compactAndExpire mode.expiry { regular := current, shadowable := current }
  let s := { s with staticRowLive := compacted.2 }
  if compacted.2 || (!mode.onlyLive && !compacted.1.empty) then
    let (s, out) := s.partitionIsNotEmpty mode
    (s, out ++ [.staticRow compacted.1 current compacted.2], false)
  else (s, [], false)

/-- `clustering_row::empty` -/
def isEmptyRow (r : DeletableRow (ColumnCell Key Id)) : Bool :=
  !r.deletedAt.shadowable.isSet && r.marker.isMissing && r.cells.empty

variable [LinearOrder Pos]

/-- `consume(clustering_row&&)` -/
def consumeClusteringRow (x : Pos) (cr : DeletableRow (ColumnCell Key Id)) :
    CompactMutation Pos × List (Compacted Pos (ColumnCell Key Id)) × Bool :=
  let s := { s with rangeTombstones := s.rangeTombstones.tombstoneForRow x }
  let (cr, t, isLive) := mode.compactRow s.rangeTombstones.currentTombstone cr
  if mode.onlyLive then
    if isLive then
      let (s, out) := s.partitionIsNotEmpty mode
      let s := { s with rowsInCurrentPartition := s.rowsInCurrentPartition + 1 }
      (s, out ++ [.clusteringRow x cr t true], s.rowsInCurrentPartition == s.currentPartitionLimit)
    else (s, [], false)
  else
    let (s, out) := if !isEmptyRow cr then
      let (s, out) := s.partitionIsNotEmpty mode
      (s, out ++ [.clusteringRow x cr t isLive])
    else (s, [])
    if !mode.sstableCompaction && isLive then
      let s := { s with rowsInCurrentPartition := s.rowsInCurrentPartition + 1 }
      (s, out, s.rowsInCurrentPartition == s.currentPartitionLimit)
    else (s, out, false)

/-- `consume(range_tombstone&&)` -/
def consumeRangeTombstone (rt : RangeTombstone Pos) : CompactMutation Pos × List (Compacted Pos C) × Bool :=
  let s := { s with rangeTombstones := s.rangeTombstones.apply rt }
  if !mode.canPurgeTombstone rt.tomb ∧ rt.tomb > s.rangeTombstones.partitionTombstone then
    let (s, out) := s.partitionIsNotEmpty mode
    (s, out ++ [.rangeTombstone rt], false)
  else (s, [], false)

omit [LinearOrder Pos] in
/-- `consume_end_of_partition` -/
def consumeEndOfPartition : CompactMutation Pos × List (Compacted Pos C) × Bool :=
  if s.emptyPartition then (s, [], false)
  else
    -- no extra row for statics unless the query has no restriction on the clustering key
    let rows := if s.rowsInCurrentPartition = 0 ∧ s.staticRowLive ∧ ¬mode.hasCkSelector then 1
      else s.rowsInCurrentPartition
    let s := { s with
      rowsInCurrentPartition := rows
      rowLimit := s.rowLimit - rows
      partitionLimit := s.partitionLimit - if rows > 0 then 1 else 0 }
    (s, [.endOfPartition], !mode.sstableCompaction && !(s.rowLimit != 0 && s.partitionLimit != 0))

/-- `consumer_adapter`: consumes one fragment. -/
def consume : Fragment Pos (ColumnCell Key Id) →
    CompactMutation Pos × List (Compacted Pos (ColumnCell Key Id)) × Bool
  | .partitionStart t =>
    let s := s.consumeNewPartition mode
    if t.isSet then
      let (s, out) := s.consumeTombstone mode t
      (s, out, false)
    else (s, [], false)
  | .staticRow sr => s.consumeStaticRow mode sr
  | .clusteringRow x cr => s.consumeClusteringRow mode x cr
  | .rangeTombstone rt => s.consumeRangeTombstone mode rt
  | .partitionEnd => s.consumeEndOfPartition mode

/-- `flat_mutation_reader::consume` on the fragments of one partition: once the compactor wants no more of
them, the partition is ended. -/
def consumePartition : CompactMutation Pos → List (Fragment Pos (ColumnCell Key Id)) →
    CompactMutation Pos × List (Compacted Pos (ColumnCell Key Id)) × Bool
  | s, [] => (s, [], false)
  | s, .partitionEnd :: _ => s.consumeEndOfPartition mode
  | s, f :: fs =>
    let (s, out, stop) := s.consume mode f
    if stop then
      let (s, out', stop) := s.consumeEndOfPartition mode
      (s, out ++ out', stop)
    else
      let (s, out', stop) := consumePartition s fs
      (s, out ++ out', stop)

end CompactMutation

/-- `read_next` of `flat_mutation_reader_from_mutations`: a row comes first if its position does. -/
def interleave {C : Type} [LinearOrder Pos] : List (RangeTombstone Pos) → List (RowsEntry Pos C) → List (Fragment Pos C)
  | [], rows => rows.map fun e => .clusteringRow e.position (clusteringRow e)
  | rts, [] => rts.map .rangeTombstone
  | rt :: rts, e :: rows =>
    if e.position < rt.start then .clusteringRow e.position (clusteringRow e) :: interleave (rt :: rts) rows
    else .rangeTombstone rt :: interleave rts (e :: rows)

/-- The fragments of `flat_mutation_reader_from_mutations`. -/
def MutationPartition.fragments {C : Type} [LinearOrder Pos] (p : MutationPartition Pos C) : List (Fragment Pos C) :=
  .partitionStart p.tombstone :: (if p.staticRow.empty then [] else [.staticRow p.staticRow]) ++
    interleave p.rowTombstones (p.rows.filter fun e => !e.dummy) ++ [.partitionEnd]

/-- `saturating_subtract` on `gc_clock`, which counts seconds in an `int32_t`. -/
def saturatingSubtract (t d : Int) : Int := max t (-2147483648 + d) - d

/-- `compact_for_compaction`, with the value of `get_max_purgeable` for the key. -/
def compactForCompaction (now gcGrace maxPurgeable : Int) : CompactMutation.Mode where
  onlyLive := false
  sstableCompaction := true
  queryTime := now
  gcBefore := saturatingSubtract now gcGrace
  maxPurgeable

/-- The partition that an sstable compaction writes. -/
def MutationPartition.compacted [Position Pos] (now gcGrace maxPurgeable : Int)
    (p : ColumnPartition Pos Key Id) : ColumnPartition Pos Key Id :=
  rebuild ((CompactMutation.consumePartition (compactForCompaction now gcGrace maxPurgeable)
    { rangeTombstones := { reversed := false } } p.fragments).2.1.filterMap Compacted.fragment?)

end ScyllaMoon.Mutation
