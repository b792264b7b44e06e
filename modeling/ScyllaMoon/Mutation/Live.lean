import ScyllaMoon.Mutation.ReadRepair

/-!
# What is live

A cell or a marker is live at a time if it was not deleted, has not expired and no tombstone of its row,
range or partition covers it. An expiring cell is gone at its expiry, an expiring marker only after it.
A counter is covered by every tombstone, however old. What a query shows of a column is its live cell,
or the live cells of its collection.
-/

namespace ScyllaMoon.Mutation

open Lib

variable {Pos Key Id : Type} [LinearOrder Key] [LinearOrder Id] (t : Tombstone)

/-- `explicit operator bool` of a `tombstone` -/
def Tombstone.isSet : Bool := t.timestamp != missingTimestamp

namespace AtomicCell

/-- `is_live()` -/
def isLive : AtomicCell → Bool
  | live .. | expiring .. => true
  | dead .. => false

/-- `has_expired(now)` -/
def hasExpired (now : Int) : AtomicCell → Bool
  | expiring _ _ expiry _ => decide (expiry ≤ now)
  | live .. | dead .. => false

/-- `deletion_time()`, of a cell that is dead or has expired. -/
def deletionTime : AtomicCell → Int
  | dead _ d => d
  | expiring _ _ expiry ttl => expiry - ttl
  | live .. => 0

/-- `is_covered_by(t, false)` -/
def isCoveredBy (c : AtomicCell) (t : Tombstone) : Bool := decide (c.timestamp ≤ t.timestamp)

/-- `is_live(t, now, false)` -/
def isLiveAt (c : AtomicCell) (t : Tombstone) (now : Int) : Bool := c.isLive && !c.isCoveredBy t && !c.hasExpired now

theorem isLiveAt_congr {c : AtomicCell} {t u : Tombstone} (h : c.timestamp ≤ t.timestamp ↔ c.timestamp ≤ u.timestamp)
    (now : Int) : c.isLiveAt t now = c.isLiveAt u now := by
  unfold isLiveAt isCoveredBy
  rw [decide_eq_decide.2 h]

theorem isLiveAt_of_covered {c : AtomicCell} {t : Tombstone} (h : c.timestamp ≤ t.timestamp) (now : Int) :
    c.isLiveAt t now = false := by
  simp [isLiveAt, isCoveredBy, h]

end AtomicCell

namespace CounterCell

/-- `timestamp()` -/
def timestamp : CounterCell Id → Int
  | live t _ _ | dead t _ => t

/-- `is_live()` -/
def isLive : CounterCell Id → Bool
  | live .. => true
  | dead .. => false

/-- `is_covered_by(t, true)` -/
def isCoveredBy (c : CounterCell Id) (t : Tombstone) : Bool := decide (c.timestamp ≤ t.timestamp) || t.isSet

/-- `is_live(t, now, true)`; a counter does not expire -/
def isLiveAt (c : CounterCell Id) (t : Tombstone) : Bool := c.isLive && !c.isCoveredBy t

end CounterCell

namespace RowMarker

/-- `is_live(t, now)` -/
def isLiveAt (m : RowMarker) (t : Tombstone) (now : Int) : Bool :=
  !(m.isMissing || m.ttl == -1) && !(m.ttl != 0 && decide (m.expiry < now)) && decide (t.timestamp < m.timestamp)

variable {m : RowMarker}

theorem isLiveAt_congr {t u : Tombstone} (h : m.timestamp ≤ t.timestamp ↔ m.timestamp ≤ u.timestamp)
    (now : Int) : m.isLiveAt t now = m.isLiveAt u now := by
  have lt : t.timestamp < m.timestamp ↔ u.timestamp < m.timestamp := by
    rw [← not_le, ← not_le, h]
  unfold isLiveAt
  rw [decide_eq_decide.2 lt]

theorem isLiveAt_of_covered {t : Tombstone} (h : m.timestamp ≤ t.timestamp) (now : Int) :
    m.isLiveAt t now = false := by
  simp [isLiveAt, not_lt.2 h]

theorem isLiveAt_of_missing (h : m.isMissing = true) (t : Tombstone) (now : Int) :
    m.isLiveAt t now = false := by
  simp [isLiveAt, h]

end RowMarker

/-- The cell of a column that is not a counter, or of a key of a collection, or a counter. -/
inductive LiveValue (Id : Type) [LinearOrder Id] where
  | cell (c : AtomicCell)
  | counter (c : CounterCell Id)

namespace CellData

/-- `is_live` of an atomic cell, or `collection_type_impl::is_any_live` -/
def isAnyLive (now : Int) : CellData Key Id → Bool
  | atomic c => c.isLiveAt t now
  | counter c => c.isLiveAt t
  | collection m => m.cells.any fun e => e.2.isLiveAt (t.apply m.tomb) now

/-- What is live of a column, by the key of the collection where it is one. -/
def live (now : Int) : CellData Key Id → Option Key → Option (LiveValue Id)
  | atomic c, none => if c.isLiveAt t now then some (.cell c) else none
  | counter c, none => if c.isLiveAt t then some (.counter c) else none
  | collection m, some k => ((m.find k).filter fun c => c.isLiveAt (t.apply m.tomb) now).map .cell
  | _, _ => none

theorem isAnyLive_iff {t : Tombstone} {now : Int} {d : CellData Key Id} :
    d.isAnyLive t now = true ↔ ∃ k v, d.live t now k = some v := by
  cases d with
  | atomic c => exact ⟨fun h => ⟨none, .cell c, if_pos h⟩, fun ⟨k, v, h⟩ => by cases k <;> simp [live] at h; exact h.1⟩
  | counter c => exact ⟨fun h => ⟨none, .counter c, if_pos h⟩, fun ⟨k, v, h⟩ => by cases k <;> simp [live] at h; exact h.1⟩
  | collection m =>
    constructor
    · intro h
      obtain ⟨⟨k, c⟩, mem, isLive⟩ := List.any_eq_true.1 h
      exact ⟨some k, .cell c, by simp [live, CollectionMutation.find_eq_some.2 mem, Option.filter, isLive]⟩
    · rintro ⟨k, v, h⟩
      cases k with
      | none => cases h
      | some k =>
        obtain ⟨c, hc, -⟩ := Option.map_eq_some_iff.1 h
        obtain ⟨found, isLive⟩ := Option.filter_eq_some_iff.1 hc
        exact List.any_eq_true.2 ⟨(k, c), CollectionMutation.find_eq_some.1 found, isLive⟩

end CellData

namespace Row

/-- `has_any_live_data` -/
def hasAnyLiveData (r : Row (ColumnCell Key Id)) (t : Tombstone) (now : Int) : Bool :=
  r.cells.any fun c => c.2.data.isAnyLive t now

end Row

variable (now : Int)

/-- What is live of the columns of a row. -/
def liveCells (cells : ColumnId → Option (CellData Key Id)) (id : ColumnId) (k : Option Key) :
    Option (LiveValue Id) :=
  (cells id).bind fun d => d.live t now k

variable {r : Row (ColumnCell Key Id)}

theorem Row.data_eq_some (h : r.Sorted) {id : ColumnId} {d : CellData Key Id} :
    r.data id = some d ↔ ∃ c, (id, c) ∈ r.cells ∧ c.data = d := by
  unfold Row.data Row.findCell
  rw [Option.map_map, Option.map_eq_some_iff]
  constructor
  · rintro ⟨⟨j, c⟩, found, rfl⟩
    have : j = id := by simpa using List.find?_some found
    subst this
    exact ⟨c, List.mem_of_find?_eq_some found, rfl⟩
  · rintro ⟨c, mem, rfl⟩
    exact ⟨(id, c), h.mem_iff_find?.1 mem, rfl⟩

theorem Row.hasAnyLiveData_iff (h : r.Sorted) {t : Tombstone} {now : Int} :
    r.hasAnyLiveData t now = true ↔ ∃ id k v, liveCells t now r.data id k = some v := by
  constructor
  · intro any
    obtain ⟨⟨id, c⟩, mem, isLive⟩ := List.any_eq_true.1 any
    obtain ⟨k, v, hv⟩ := CellData.isAnyLive_iff.1 isLive
    refine ⟨id, k, v, ?_⟩
    rw [liveCells, (Row.data_eq_some h).2 ⟨c, mem, rfl⟩]
    exact hv
  · rintro ⟨id, k, v, hv⟩
    obtain ⟨d, hd, hv⟩ := Option.bind_eq_some_iff.1 hv
    obtain ⟨c, mem, rfl⟩ := (Row.data_eq_some h).1 hd
    exact List.any_eq_true.2 ⟨(id, c), mem, CellData.isAnyLive_iff.2 ⟨k, v, hv⟩⟩

/-- `deletable_row::is_live` -/
def DeletableRow.isLive (r : DeletableRow (ColumnCell Key Id)) (base : Tombstone) (now : Int) : Bool :=
  let base := base.apply r.deletedAt.shadowable
  r.marker.isLiveAt base now || r.cells.hasAnyLiveData base now

namespace RowContent

variable (r : RowContent Key Id) (base : Tombstone)

/-- The tombstone that covers the cells of a row. -/
def tombstone : Tombstone := max base r.deletedAt.shadowable

/-- What is live of the cells of a row. -/
def live (now : Int) : ColumnId → Option Key → Option (LiveValue Id) :=
  liveCells (r.tombstone base) now r.cells

/-- The row is live by its marker or by a cell. -/
def IsLive (now : Int) : Prop :=
  r.marker.isLiveAt (r.tombstone base) now = true ∨ ∃ id k v, r.live base now id k = some v

end RowContent

theorem DeletableRow.isLive_iff {r : DeletableRow (ColumnCell Key Id)} (h : r.cells.Sorted) {base : Tombstone} {now : Int} :
    r.isLive base now = true ↔ r.content.IsLive base now := by
  unfold DeletableRow.isLive
  rw [Bool.or_eq_true, Row.hasAnyLiveData_iff h, Tombstone.apply_eq_max]
  rfl

namespace MutationPartition

variable [Position Pos] (p : ColumnPartition Pos Key Id)

/-- `range_tombstone_for_row` -/
def rangeTombstoneForRow (x : Pos) : Tombstone :=
  match p.rowTombstones.tombstoneAt x with
  | some t => p.tombstone.apply t
  | none => p.tombstone

/-- There is a live row at the position. -/
def isRowLive (x : Pos) : Bool :=
  ((p.entry x).filter fun e => !e.dummy).any fun e => e.row.isLive (p.rangeTombstoneForRow x) now

/-- `is_static_row_live` -/
def isStaticRowLive : Bool := p.staticRow.hasAnyLiveData p.tombstone now

/-- What is live of the static row. -/
def liveStatic (id : ColumnId) (k : Option Key) : Option (LiveValue Id) :=
  (p.staticRow.data id).bind fun d => d.live p.tombstone now k

/-- What is live of the row at a position. -/
def liveRow (x : Pos) (id : ColumnId) (k : Option Key) : Option (LiveValue Id) :=
  ((p.entry x).filter fun e => !e.dummy).bind fun e =>
    (e.row.cells.data id).bind fun d => d.live ((p.rangeTombstoneForRow x).apply e.row.deletedAt.shadowable) now k

end MutationPartition

namespace Content

/-- The tombstone of the partition and of the ranges at a position. -/
def base (c : Content Pos Key Id) (x : Pos) : Tombstone := max c.tombstone ((c.deletion x).getD {})

end Content

theorem MutationPartition.rangeTombstoneForRow_eq [Position Pos] {p : ColumnPartition Pos Key Id}
    (least : {} ≤ p.tombstone) (x : Pos) : p.rangeTombstoneForRow x = p.content.base x := by
  unfold rangeTombstoneForRow Content.base content
  simp only
  cases p.rowTombstones.tombstoneAt x with
  | none => exact (max_eq_left least).symm
  | some t => exact Tombstone.apply_eq_max _ _

end ScyllaMoon.Mutation
