import ScyllaMoon.Mutation.RangeTombstoneList
import ScyllaMoon.Mvcc.Objects

/-!
# `mutation_partition`

The content of one partition: a partition tombstone, a static row, the clustering rows in position
order and the range tombstones. `MutationPartition` is the payload of the version chain: the instance
of `PartitionOps` at the end is what `partition_version.cc` calls on it.

Positions are any linear order with a position for the empty clustering key. Schemas are any type
with a version, a table name and the column conversion of `converting_mutation_partition_applier`.
-/

namespace ScyllaMoon.Mutation

/-- `column_kind`, of the columns that hold cells. -/
inductive ColumnKind where
  | static
  | regular
  deriving DecidableEq, Repr

/-- What mutations need of a `schema`. -/
class SchemaOps (S : outParam Type) (C : Type) where
  version : S → Nat
  cfName : S → String
  /-- `converting_mutation_partition_applier::accept_cell`: the column of the new schema that a cell of
  the old one goes to, and what is left of the cell -/
  convert : (oldSchema newSchema : S) → ColumnKind → ColumnId → C → Option (ColumnId × C)

/-- The positions of one partition, in clustering order. -/
class Position (Pos : Type) extends LinearOrder Pos where
  /-- the position of `clustering_key::make_empty()` -/
  emptyKey : Pos

/-- `rows_entry` -/
structure RowsEntry (Pos C : Type) where
  position : Pos
  row : DeletableRow C := {}
  continuous : Bool := true
  dummy : Bool := false
  deriving DecidableEq, Repr

/-- `mutation_partition` -/
structure MutationPartition (Pos C : Type) where
  tombstone : Tombstone := {}
  staticRow : Row C := {}
  staticRowContinuous : Bool := true
  rows : List (RowsEntry Pos C) := []
  rowTombstones : RangeTombstoneList Pos := []
  deriving DecidableEq, Repr

/-- What `mutation_partition_view::accept` shows its visitor. -/
structure MutationPartitionView (Pos C : Type) where
  tombstone : Tombstone := {}
  staticCells : List (ColumnId × C) := []
  rowTombstones : List (RangeTombstone Pos) := []
  rows : List (Pos × RowTombstone × RowMarker × List (ColumnId × C)) := []

/-- `upsert` for rows: merges into the entry at the position of `e`, or links `e` in. -/
def upsertRow {Pos C : Type} [LinearOrder Pos] (e : RowsEntry Pos C) (merge : RowsEntry Pos C → RowsEntry Pos C)
    (l : List (RowsEntry Pos C)) : List (RowsEntry Pos C) :=
  Lib.upsert RowsEntry.position e merge l

namespace MutationPartition

variable {S Pos C : Type} [Position Pos] [CellOps C] (p : MutationPartition Pos C)

/-- `mutation_partition::clustered_row`, and a change of the row it returns. -/
def modifyRow (e : RowsEntry Pos C) (f : DeletableRow C → DeletableRow C) :
    MutationPartition Pos C :=
  { p with rows := upsertRow { e with row := f e.row } (fun i => { i with row := f i.row }) p.rows }

open RangeTombstoneList (applyAll)

/-- `mutation_partition::apply(schema, mutation_partition&&, most_recent_version)` -/
def merge (p q : MutationPartition Pos C) (mostRecentVersion : UInt32 := 0) : MutationPartition Pos C where
  rowTombstones := applyAll p.rowTombstones q.rowTombstones
  staticRow := p.staticRow.apply q.staticRow
  staticRowContinuous := p.staticRowContinuous
  rows := q.rows.foldl (fun l e =>
    upsertRow e (fun i => { i with row := i.row.apply e.row mostRecentVersion }) l) p.rows
  tombstone := p.tombstone.apply q.tombstone

/-- `partition_builder::accept_row`, and its cells, built without a `most_recent_version`. -/
def acceptRow (r : Pos × RowTombstone × RowMarker × List (ColumnId × C)) :
    MutationPartition Pos C :=
  p.modifyRow { position := r.1 } fun row =>
    let row := (row.applyMarker r.2.2.1).applyTombstone r.2.1
    { row with cells := r.2.2.2.foldl (fun cs c => cs.appendCell c.1 (CellOps.setMostRecentVersion c.2 0)) row.cells }

/-- `partition_builder`, fed with a view -/
def build (v : MutationPartitionView Pos C) : MutationPartition Pos C where
  tombstone := Tombstone.apply {} v.tombstone
  staticRow := v.staticCells.foldl (fun r p => r.appendCell p.1 (CellOps.setMostRecentVersion p.2 0)) {}
  rowTombstones := applyAll [] v.rowTombstones
  rows := (v.rows.foldl acceptRow {}).rows

/-- `clustered_row(s, make_empty()).cells().find_cell(0)->most_recent_version = v` -/
def setMostRecentVersion (v : UInt32) : Option (MutationPartition Pos C) :=
  let e : RowsEntry Pos C := { position := Position.emptyKey }
  let row := match p.rows.find? fun i => decide (i.position = e.position) with
    | some i => i.row
    | none => {}
  match row.cells.findCell 0 with
  | none => none
  | some _ => some (p.modifyRow e fun row => { row with cells := { row.cells with
      cells := row.cells.cells.map fun c => if c.1 = 0 then (c.1, CellOps.setMostRecentVersion c.2 v) else c } })

/-- The entry `apply_incomplete_target` looks at for `key`: the first one not before it over all
versions of the target, of the newest version that has it. -/
def nextEntry (dst : List (MutationPartition Pos C)) (key : Pos) : Option (RowsEntry Pos C) :=
  dst.foldl (fun best p =>
    match p.rows.find? fun e => decide (key ≤ e.position), best with
    | some e, some b => if e.position < b.position then some e else some b
    | some e, none => some e
    | none, best => best) none

/-- `apply_incomplete_target::apply`, for the rows `es` that the source versions have at `key`. -/
def applyIncompleteRow (d : MutationPartition Pos C) (dst : List (MutationPartition Pos C)) (key : Pos)
    (es : List (RowsEntry Pos C)) : MutationPartition Pos C :=
  let store continuous := d.modifyRow { position := key, continuous } fun row =>
    es.foldl (fun row e => row.apply e.row) row
  match nextEntry dst key with
  | none => store true
  | some n =>
    if n.position = key then if n.dummy then d else store n.continuous
    else if n.continuous then store true else d

/-- Adds `e` to the rows of its position. -/
def groupRow (e : RowsEntry Pos C) : List (Pos × List (RowsEntry Pos C)) → List (Pos × List (RowsEntry Pos C))
  | [] => [(e.position, [e])]
  | (k, es) :: l =>
    if e.position < k then (e.position, [e]) :: (k, es) :: l
    else if e.position = k then (k, es ++ [e]) :: l
    else (k, es) :: groupRow e l

/-- `partition_entry::rows_iterator`: the rows of the source chain, gathered by position. -/
def sourceRows (src : List (MutationPartition Pos C)) : List (Pos × List (RowsEntry Pos C)) :=
  src.foldl (fun l p => p.rows.foldl (fun l e => groupRow e l) l) []

/-- `partition_entry::apply_to_incomplete(s, version)`, for the chains `dst` and `src`: the newest
partition of `dst` afterwards. -/
def applyIncomplete (dst src : List (MutationPartition Pos C)) : MutationPartition Pos C :=
  match dst with
  | [] => {}
  | d :: _ =>
    let merged := src.foldl (fun (m : MutationPartition Pos C) p => { m with
      tombstone := m.tombstone.apply p.tombstone
      staticRow := if d.staticRowContinuous then m.staticRow.apply p.staticRow else m.staticRow
      rowTombstones := applyAll m.rowTombstones p.rowTombstones }) d
    (sourceRows src).foldl (fun m g =>
      if g.2.head?.any RowsEntry.dummy then m else m.applyIncompleteRow dst g.1 g.2) merged

variable [SchemaOps S C] (oldSchema newSchema : S)

/-- `converting_mutation_partition_applier` on the cells of one row. -/
def convertRow (kind : ColumnKind) (r : Row C) : Row C :=
  r.cells.foldl (fun dst p =>
    match SchemaOps.convert oldSchema newSchema kind p.1 (CellOps.setMostRecentVersion p.2 0) with
    | some (id, c) => dst.applyCell id c 0
    | none => dst) {}

/-- `converting_mutation_partition_applier::accept_row`, and its cells. -/
def convertEntry (p : MutationPartition Pos C) (e : RowsEntry Pos C) : MutationPartition Pos C :=
  p.modifyRow { position := e.position, dummy := e.dummy, continuous := e.continuous } fun row =>
    let row := (row.applyMarker e.row.marker).applyTombstone e.row.deletedAt
    { row with cells := convertRow oldSchema newSchema .regular e.row.cells }

/-- `mutation_partition::upgrade` -/
def upgrade : MutationPartition Pos C where
  tombstone := Tombstone.apply {} p.tombstone
  staticRow := convertRow oldSchema newSchema .static p.staticRow
  rowTombstones := applyAll [] p.rowTombstones
  rows := (p.rows.foldl (convertEntry oldSchema newSchema) {}).rows

/-- `mutation_partition::apply(this_schema, p, p_schema)` -/
def apply (s : S) (p q : MutationPartition Pos C) (qSchema : S) : MutationPartition Pos C :=
  if SchemaOps.version C s ≠ SchemaOps.version C qSchema then p.merge (q.upgrade qSchema s) else p.merge q

/-- `mutation_partition::apply(this_schema, view, p_schema, most_recent_version)` -/
def applyView (s : S) (p : MutationPartition Pos C) (v : MutationPartitionView Pos C) (vSchema : S)
    (mostRecentVersion : UInt32) : MutationPartition Pos C :=
  if SchemaOps.version C vSchema = SchemaOps.version C s then p.merge (build v) mostRecentVersion
  else p.merge ((build v).upgrade vSchema s) mostRecentVersion

end MutationPartition

instance {S Pos C : Type} [Position Pos] [CellOps C] [SchemaOps S C] :
    Mvcc.PartitionOps S (MutationPartitionView Pos C) (MutationPartition Pos C) where
  schemaVersion := SchemaOps.version C
  cfName := SchemaOps.cfName C
  empty _ := {}
  staticRowContinuous p := p.staticRowContinuous
  setStaticRowContinuous p b := { p with staticRowContinuous := b }
  apply := MutationPartition.apply
  applyView := MutationPartition.applyView
  upgrade p := p.upgrade
  setMostRecentVersion _ p := p.setMostRecentVersion
  applyIncomplete _ := MutationPartition.applyIncomplete

/-- A table whose columns all hold byte strings: a column keeps its cells as long as it keeps its name. -/
structure TableSchema where
  version : Nat
  cfName : String
  staticColumns : List String := []
  regularColumns : List String
  deriving DecidableEq, Repr

/-- The columns of one kind, by id. -/
def TableSchema.columns (s : TableSchema) : ColumnKind → List String
  | .static => s.staticColumns
  | .regular => s.regularColumns

instance {C : Type} : SchemaOps TableSchema C where
  version := TableSchema.version
  cfName := TableSchema.cfName
  convert oldSchema newSchema kind id c := do
    let name ← (oldSchema.columns kind)[id]?
    let id ← (newSchema.columns kind).idxOf? name
    return (id, c)

instance : Position Nat where
  emptyKey := 0

end ScyllaMoon.Mutation
