import ScyllaMoon.Lib.Sorted

/-!
# Cells, rows and tombstones

The value types of `mutation_partition.hh`. A row is a finite map from column ids to cells, kept
sorted, together with the kind of storage it uses: merging into `set` storage forgets the
`most_recent_version` that merging into `vector` storage records. What a cell is (atomic, counter or
collection) is left to `CellOps`; `Cell` is the instance for atomic columns without counters.
-/

namespace ScyllaMoon.Mutation

abbrev ColumnId := Nat

/-- `api::missing_timestamp` -/
def missingTimestamp : Int := -9223372036854775808

/-- `tombstone` -/
structure Tombstone where
  timestamp : Int := missingTimestamp
  deletionTime : Int := 0
  deriving DecidableEq, Repr

namespace Tombstone

/-- `tombstone::compare` -/
def compare (t u : Tombstone) : Ordering :=
  (Ord.compare t.timestamp u.timestamp).then (Ord.compare t.deletionTime u.deletionTime)

/-- `tombstone::apply` -/
def apply (t u : Tombstone) : Tombstone :=
  if t.compare u = .lt then u else t

end Tombstone

/-- `atomic_cell`, for columns that are not counters. -/
inductive AtomicCell where
  | live (timestamp : Int) (value : List UInt8)
  | expiring (timestamp : Int) (value : List UInt8) (expiry ttl : Int)
  | dead (timestamp deletionTime : Int)
  deriving DecidableEq, Repr

/-- `compare_unsigned` on byte strings. -/
def compareUnsigned : List UInt8 → List UInt8 → Ordering
  | [], [] => .eq
  | [], _ :: _ => .lt
  | _ :: _, [] => .gt
  | a :: l, b :: m => (compare a b).then (compareUnsigned l m)

namespace AtomicCell

def timestamp : AtomicCell → Int
  | live t _ | expiring t _ _ _ | dead t _ => t

/-- `compare_atomic_cell_for_merge` -/
def compareForMerge (left right : AtomicCell) : Ordering :=
  (compare left.timestamp right.timestamp).then <|
    match left, right with
    | live _ v, live _ w => compareUnsigned v w
    -- prefer expiring cells
    | live _ v, expiring _ w _ _ => (compareUnsigned v w).then .lt
    | expiring _ v _ _, live _ w => (compareUnsigned v w).then .gt
    | expiring _ v e _, expiring _ w f _ => (compareUnsigned v w).then (compare e f)
    | dead .., live .. | dead .., expiring .. => .gt
    | live .., dead .. | expiring .., dead .. => .lt
    -- deletion times compare as `uint32_t`
    | dead _ d, dead _ e =>
      if d = e then .eq else if d % 4294967296 < e % 4294967296 then .lt else .gt

end AtomicCell

/-- What rows need of `atomic_cell_or_collection`. -/
class CellOps (C : Type) where
  /-- `::apply_reversibly(def, dst, src, most_recent_version)`: what `dst` becomes -/
  merge : (dst src : C) → (mostRecentVersion : UInt32) → C
  /-- assignment to the `most_recent_version` member -/
  setMostRecentVersion : C → UInt32 → C

/-- `atomic_cell_or_collection` that holds an atomic cell. -/
structure Cell where
  cell : AtomicCell
  mostRecentVersion : UInt32 := 0
  deriving DecidableEq, Repr

instance : CellOps Cell where
  merge dst src v := if dst.cell.compareForMerge src.cell = .lt then { src with mostRecentVersion := v } else dst
  setMostRecentVersion c v := { c with mostRecentVersion := v }

/-- `row::storage_type` -/
inductive StorageType where
  | vector
  | set
  deriving DecidableEq, Repr

/-- `row` -/
structure Row (C : Type) where
  storage : StorageType := .vector
  cells : List (ColumnId × C) := []
  deriving DecidableEq, Repr

/-- `row::max_vector_size` -/
def maxVectorSize : Nat := 32

namespace Row

variable {C : Type} (r : Row C)

def empty : Bool := r.cells.isEmpty

variable (id : ColumnId)

/-- Replaces the cell of column `id` by `merge` of it, or adds `new` at its place in the order. -/
def upsert (new : C) (merge : C → C) (l : List (ColumnId × C)) : List (ColumnId × C) :=
  Lib.upsert Prod.fst (id, new) (fun p => (p.1, merge p.2)) l

/-- `row::find_cell` -/
def findCell : Option C :=
  (r.cells.find? fun p => decide (p.1 = id)).map Prod.snd

/-- `row::reserve` -/
def reserve (lastColumn : ColumnId) : Row C :=
  if lastColumn ≥ maxVectorSize then { r with storage := .set } else r

/-- `row::append_cell` -/
def appendCell (value : C) : Row C :=
  { storage := if id < maxVectorSize then r.storage else .set, cells := r.cells ++ [(id, value)] }

variable [CellOps C]

/-- `row::apply_reversibly(column, cell, most_recent_version)` -/
def applyCell (value : C) (mostRecentVersion : UInt32) : Row C :=
  if r.storage = .vector ∧ id < maxVectorSize then
    { r with cells := upsert id value (CellOps.merge · value mostRecentVersion) r.cells }
  else
    -- the version is not handed on to the merge here
    { storage := .set, cells := upsert id value (CellOps.merge · value 0) r.cells }

/-- `row::apply_reversibly(schema, kind, other, most_recent_version)` -/
def apply (r other : Row C) (mostRecentVersion : UInt32 := 0) : Row C :=
  match other.cells.getLast? with
  | none => r
  | some (last, _) =>
    other.cells.foldl (fun r p => r.applyCell p.1 p.2 mostRecentVersion) (r.reserve last)

end Row

/-- `row_marker`; the `ttl` is 0 for none and -1 for a dead marker. -/
structure RowMarker where
  timestamp : Int := missingTimestamp
  ttl : Int := 0
  expiry : Int := 0
  deriving DecidableEq, Repr

namespace RowMarker

variable (m : RowMarker)

def isMissing : Bool := m.timestamp == missingTimestamp

def isLive : Bool := !m.isMissing && m.ttl != -1

def isExpiring : Bool := m.ttl != 0

def deletionTime : Int := if m.ttl = -1 then m.expiry else m.expiry - m.ttl

/-- `compare_row_marker_for_merge` -/
def compareForMerge (left right : RowMarker) : Ordering :=
  (compare left.timestamp right.timestamp).then <|
    match left.isLive, right.isLive with
    | true, false => .lt
    | false, true => .gt
    | true, true => match left.isExpiring, right.isExpiring with
      -- prefer expiring cells
      | true, false => .gt
      | false, true => .lt
      | true, true => compare left.expiry right.expiry
      | false, false => .eq
    | false, false =>
      if left.deletionTime = right.deletionTime then .eq
      else if left.deletionTime % 4294967296 < right.deletionTime % 4294967296 then .lt else .gt

/-- `row_marker::apply` -/
def apply (m n : RowMarker) : RowMarker :=
  if m.compareForMerge n = .lt then n else m

end RowMarker

/-- `row_tombstone`: a regular and a shadowable tombstone. -/
structure RowTombstone where
  regular : Tombstone := {}
  shadowable : Tombstone := {}
  deriving DecidableEq, Repr

namespace RowTombstone

/-- `row_tombstone::maybe_shadow` -/
def maybeShadow (t : RowTombstone) (marker : RowMarker) : RowTombstone :=
  if marker.isLive ∧ marker.timestamp > t.shadowable.timestamp then { t with shadowable := t.regular } else t

/-- `row_tombstone::apply(row_tombstone, row_marker)` -/
def apply (t u : RowTombstone) (marker : RowMarker) : RowTombstone :=
  maybeShadow { regular := t.regular.apply u.regular, shadowable := t.shadowable.apply u.shadowable } marker

end RowTombstone

/-- `deletable_row` -/
structure DeletableRow (C : Type) where
  deletedAt : RowTombstone := {}
  marker : RowMarker := {}
  cells : Row C := {}
  deriving DecidableEq, Repr

namespace DeletableRow

variable {C : Type}

/-- `deletable_row::apply(row_marker)` -/
def applyMarker (r : DeletableRow C) (m : RowMarker) : DeletableRow C :=
  let marker := r.marker.apply m
  { r with marker, deletedAt := r.deletedAt.maybeShadow marker }

/-- `deletable_row::apply(row_tombstone)` -/
def applyTombstone (r : DeletableRow C) (t : RowTombstone) : DeletableRow C :=
  { r with deletedAt := r.deletedAt.apply t r.marker }

variable [CellOps C]

/-- `deletable_row::apply_reversibly` -/
def apply (r src : DeletableRow C) (mostRecentVersion : UInt32 := 0) : DeletableRow C :=
  let marker := r.marker.apply src.marker
  { cells := r.cells.apply src.cells mostRecentVersion
    marker
    -- the tombstones are swapped before they are merged
    deletedAt := src.deletedAt.apply r.deletedAt marker }

end DeletableRow

end ScyllaMoon.Mutation
