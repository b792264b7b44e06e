import ScyllaMoon.Mutation.Live

/-!
# `compact_and_expire`

At a given time a cell, a marker, a collection or a row is compacted under the tombstone of its row: what
the tombstone covers goes, what has expired becomes dead, and what is dead goes as well once its deletion
is old enough and may be collected. A collection takes over the tombstone of its row.
-/

namespace ScyllaMoon.Mutation

open Lib

variable {Pos Key Id : Type} [LinearOrder Key] [LinearOrder Id]

/-- The arguments of `compact_and_expire` besides the tombstone. -/
structure Expiry where
  queryTime : Int
  gcBefore : Int
  canGc : Tombstone → Bool

variable (e : Expiry)

/-- A deletion that is old enough and may be collected. -/
def Expiry.canPurge (t : Tombstone) : Bool := decide (t.deletionTime < e.gcBefore) && e.canGc t

namespace AtomicCell

/-- `tombstone(cell.timestamp(), cell.deletion_time())` -/
def deletion (c : AtomicCell) : Tombstone := { timestamp := c.timestamp, deletionTime := c.deletionTime }

/-- What is left of an atomic cell, and whether it is live. -/
def compactAndExpire (tomb : RowTombstone) (c : AtomicCell) : Option AtomicCell × Bool :=
  if c.isCoveredBy tomb.regular then (none, false)
  else if c.hasExpired e.queryTime then
    (if e.canPurge c.deletion then none else some (dead c.timestamp c.deletionTime), false)
  else if !c.isLive then (if e.canPurge c.deletion then none else some c, false)
  else if c.isCoveredBy tomb.shadowable then (none, false)
  else (some c, true)

end AtomicCell

namespace CounterCell

/-- `deletion_time()` of a dead cell -/
def deletionTime : CounterCell Id → Int
  | dead _ d => d
  | live .. => 0

/-- What is left of a counter, and whether it is live. -/
def compactAndExpire (tomb : RowTombstone) (c : CounterCell Id) : Option (CounterCell Id) × Bool :=
  if c.isCoveredBy tomb.regular then (none, false)
  else if !c.isLive then
    (if e.canPurge { timestamp := c.timestamp, deletionTime := c.deletionTime } then none else some c, false)
  else if c.isCoveredBy tomb.shadowable then (none, false)
  else (some c, true)

end CounterCell

namespace CollectionMutation

/-- What is left of a cell of a collection. -/
def compactCell (tomb : RowTombstone) (c : Key × AtomicCell) : Option (Key × AtomicCell) :=
  (c.2.compactAndExpire e tomb).1.map (c.1, ·)

omit [LinearOrder Key] in
theorem compactCell_fst {e : Expiry} {tomb : RowTombstone} {c d : Key × AtomicCell} (h : compactCell e tomb c = some d) :
    d.1 = c.1 := by
  obtain ⟨-, -, rfl⟩ := Option.map_eq_some_iff.1 h
  rfl

variable (base : RowTombstone) (m : CollectionMutation Key)

/-- The tombstones that the cells of a collection are compacted under. -/
def covering : RowTombstone :=
  { base with regular := m.tomb.apply base.regular }

/-- The tombstone of a collection that was compacted. -/
def compactTomb : Tombstone :=
  if e.canPurge (m.tomb.apply base.regular) then {} else m.tomb.apply base.regular

/-- A tombstone as it is serialized: one without a timestamp is left out. -/
def serializedTomb (t : Tombstone) : Tombstone := if t.isSet then t else {}

theorem written_serializedTomb {t : Tombstone} (h : {} ≤ t) : (serializedTomb t).Written := by
  unfold serializedTomb
  split
  next isSet =>
    have ne : missingTimestamp ≠ t.timestamp := fun eq => by simp [Tombstone.isSet, eq] at isSet
    exact .inr (lt_of_le_of_ne (Tombstone.timestamp_le h) ne)
  · exact Tombstone.written_empty

theorem compactTomb_ge : {} ≤ m.compactTomb e base := by
  unfold compactTomb
  split
  · exact le_rfl
  · rw [Tombstone.apply_eq_max]
    exact m.written.ge.trans (le_max_left _ _)

/-- `collection_type_impl::mutation::compact_and_expire`, serialized. -/
def compactAndExpire : CollectionMutation Key where
  tomb := serializedTomb (m.compactTomb e base)
  cells := m.cells.filterMap (compactCell e (m.covering base))
  written := written_serializedTomb (m.compactTomb_ge e base)
  sorted := m.sorted.filterMap fun _ _ => compactCell_fst

/-- What `collection_type_impl::mutation::compact_and_expire` returns. -/
def anyLive : Bool :=
  m.cells.any fun c => (c.2.compactAndExpire e (m.covering base)).2

end CollectionMutation

variable (tomb : RowTombstone)

/-- What is left of a column, and whether any of it is live. -/
def CellData.compactAndExpire : CellData Key Id → Option (CellData Key Id) × Bool
  | atomic c => ((c.compactAndExpire e tomb).1.map atomic, (c.compactAndExpire e tomb).2)
  | counter c => ((c.compactAndExpire e tomb).1.map counter, (c.compactAndExpire e tomb).2)
  | collection m =>
    (if (m.compactAndExpire e tomb).cells.isEmpty && decide (m.compactTomb e tomb ≤ tomb.shadowable) then none
      else some (collection (m.compactAndExpire e tomb)), m.anyLive e tomb)

namespace ColumnCell

/-- The `most_recent_version` stays with a cell that is not assigned anew. -/
def keepsVersion : CellData Key Id → Bool
  | .atomic c => !c.hasExpired e.queryTime
  | .counter _ => true
  | .collection _ => false

/-- What is left of the cell of a column. -/
def compactAndExpire (c : ColumnCell Key Id) : Option (ColumnCell Key Id) :=
  (c.data.compactAndExpire e tomb).1.map fun data =>
    { data, mostRecentVersion := if keepsVersion e c.data then c.mostRecentVersion else 0 }

end ColumnCell

namespace Row

/-- `row::compact_and_expire`: what is left, and whether any of it is live -/
def compactAndExpire (r : Row (ColumnCell Key Id)) : Row (ColumnCell Key Id) × Bool :=
  ({ r with cells := r.cells.filterMap fun c => (c.2.compactAndExpire e tomb).map (c.1, ·) },
    r.cells.any fun c => (c.2.data.compactAndExpire e tomb).2)

variable {e : Expiry} {tomb : RowTombstone} {r : Row (ColumnCell Key Id)}

theorem Sorted.compactAndExpire (h : r.Sorted) : (r.compactAndExpire e tomb).1.Sorted :=
  Lib.Sorted.filterMap (fun _ _ hd => by obtain ⟨-, -, rfl⟩ := Option.map_eq_some_iff.1 hd; rfl) h

theorem data_compactAndExpire (h : r.Sorted) (id : ColumnId) :
    (r.compactAndExpire e tomb).1.data id = (r.data id).bind fun d => (d.compactAndExpire e tomb).1 := by
  have keeps : ∀ c d : ColumnId × ColumnCell Key Id, (c.2.compactAndExpire e tomb).map (c.1, ·) = some d → d.1 = c.1 :=
    fun _ _ hd => by obtain ⟨-, -, rfl⟩ := Option.map_eq_some_iff.1 hd; rfl
  unfold Row.data Row.findCell Row.compactAndExpire
  rw [Lib.Sorted.find?_filterMap keeps h]
  cases r.cells.find? fun c => decide (c.1 = id) with
  | none => rfl
  | some c => simp [ColumnCell.compactAndExpire, Option.map_map, Function.comp_def]

end Row

namespace RowMarker

/-- `row_marker::compact_and_expire`, the marker it leaves -/
def compactAndExpire (tomb : Tombstone) (m : RowMarker) : RowMarker :=
  if m.isMissing then m
  else if m.timestamp ≤ tomb.timestamp then { m with timestamp := missingTimestamp }
  else
    let m := if m.ttl > 0 ∧ m.expiry < e.queryTime then { m with ttl := -1, expiry := m.expiry - m.ttl } else m
    if m.ttl = -1 ∧ e.canPurge { timestamp := m.timestamp, deletionTime := m.expiry } then
      { m with timestamp := missingTimestamp }
    else m

end RowMarker

end ScyllaMoon.Mutation
