import ScyllaMoon.Lib.Bytes
import ScyllaMoon.Mutation.WellFormed
import ScyllaMoon.Mvcc.Entry

/-!
# Writes and results of YCSB

The clients write columns of a static column family through thrift: the cells go into the row with the
empty clustering key. `partition_entry::apply` stamps the first of them with the number of the version,
and a read returns the stamp with the column. `columns` is what thrift returns for a partition.
-/

namespace ScyllaMoon.Ycsb

open Lib Mutation MutationPartition

/-- What `insert` puts into a `batch_mutate` for one key; the timestamp is `System.currentTimeMillis()`. -/
structure Insert where
  timestamp : Nat
  values : List (ColumnId × Bytes)
  sorted : Sorted Prod.fst values

/-- A `Column` of a result. -/
structure Column where
  id : ColumnId
  value : Bytes
  mostRecentVersion : UInt32
  deriving DecidableEq, Repr

/-- The count of the `SliceRange`. -/
def sliceCount : Nat := 1000000

variable {S Pos : Type} [Position Pos] (i : Insert)

/-- `make_atomic_cell` for the columns. -/
def Insert.cells : List (ColumnId × Cell) :=
  i.values.map fun p => (p.1, { cell := .live i.timestamp p.2 })

open Position (emptyKey)

/-- `add_to_mutation` for the columns of a static column family. -/
def Insert.view : MutationPartitionView Pos Cell where
  rows := [(emptyKey, {}, {}, i.cells)]

/-- The timestamp up to which the cells of a row are deleted. -/
def deletedUpTo (p : MutationPartition Pos Cell) (e : RowsEntry Pos Cell) : Int :=
  max p.tombstone.timestamp (max e.row.deletedAt.shadowable.timestamp
    ((RangeTombstoneList.tombstoneAt p.rowTombstones e.position).getD {}).timestamp)

/-- `compact_and_expire` and `get_compacted_row_slice` for one cell. -/
def column (now deleted : Int) (id : ColumnId) (c : Cell) : Option Column :=
  match c.cell with
  | .live timestamp value => if deleted < timestamp then some ⟨id, value, c.mostRecentVersion⟩ else none
  | .expiring timestamp value expiry _ =>
    if deleted < timestamp ∧ now < expiry then some ⟨id, value, c.mostRecentVersion⟩ else none
  | .dead .. => none

/-- The columns that a read of all columns returns for a partition at the time `now`. -/
def columns (now : Int) (p : MutationPartition Pos Cell) : List Column :=
  match p.rows.find? fun e => decide (e.position = emptyKey) with
  | none => []
  | some e => (e.row.cells.cells.filterMap fun c => column now (deletedUpTo p e) c.1 c.2).take sliceCount

/-- The value of a `uint32_t` as an `int` of Java. -/
def javaInt (v : UInt32) : Int :=
  if v.toNat < 2147483648 then v.toNat else v.toNat - 4294967296

/-- The newest version among the columns of a key. -/
def columnsTs (cols : List Column) : Int :=
  cols.foldl (fun ts c => if javaInt c.mostRecentVersion > ts then javaInt c.mostRecentVersion else ts) 0

/-- The columns of a write that was stored under `n`. -/
def Insert.stored (n : UInt32) : List Column :=
  (i.values.map fun p => ⟨p.1, p.2, if p.1 = 0 then n else 0⟩).take sliceCount

section Written

variable [SchemaOps S Cell]

/-- The one row that a write brings. -/
def Insert.row : RowsEntry Pos Cell where
  position := emptyKey
  row := ⟨{}, {}, i.cells.foldl (fun cs c => cs.appendCell c.1 (CellOps.setMostRecentVersion c.2 0)) {}⟩

theorem Insert.cells_row : (i.row : RowsEntry Pos Cell).row.cells.cells = i.cells := by
  have all := Row.cells_foldl_appendCell {} i.cells fun c => CellOps.setMostRecentVersion c 0
  refine all.trans ?_
  simp [cells, CellOps.setMostRecentVersion]

theorem Insert.applyView_empty (s : S) (n : UInt32) :
    (applyView s {} i.view s n : MutationPartition Pos Cell) = { rows := [i.row] } := by
  have row : (({} : DeletableRow Cell).applyMarker {}).applyTombstone {} = {} := by decide
  unfold applyView
  simp only [merge]
  rfl

/-- The cells of a write whose version has the number `n`. -/
def Insert.stampedCells (n : UInt32) : List (ColumnId × Cell) :=
  i.cells.map fun c => if c.1 = 0 then (c.1, CellOps.setMostRecentVersion c.2 n) else c

variable {n : UInt32} {mp : MutationPartition Pos Cell}

/-- A stamp goes to the first column, which has to be there. -/
theorem Insert.setMostRecentVersion_row {i : Insert}
    (h : setMostRecentVersion ({ rows := [i.row] } : MutationPartition Pos Cell) n = some mp) :
    (∃ e, mp = { rows := [e] } ∧ e.position = emptyKey ∧ e.row.deletedAt = {} ∧
      e.row.cells.cells = i.stampedCells n) ∧ 0 ∈ i.values.map Prod.fst := by
  unfold setMostRecentVersion at h
  have first : [(i.row : RowsEntry Pos Cell)].find? (fun e => decide (e.position = emptyKey)) = some i.row :=
    List.find?_cons_of_pos (decide_eq_true rfl)
  simp only [first] at h
  cases found : (i.row : RowsEntry Pos Cell).row.cells.findCell 0 with
  | none => simp [found] at h
  | some c =>
    simp only [found, Option.some.injEq] at h
    let row : DeletableRow Cell := (i.row : RowsEntry Pos Cell).row
    have entry : ∀ new merge, upsertRow { position := emptyKey, row := new } merge [(i.row : RowsEntry Pos Cell)] =
        [merge i.row] := fun new merge => by
      have same : (i.row : RowsEntry Pos Cell).position = emptyKey := rfl
      simp [upsertRow, Lib.upsert, same]
    refine ⟨⟨{ i.row with row := { row with cells := { row.cells with cells := i.stampedCells n } } },
      h.symm.trans ?_, rfl, rfl, rfl⟩, ?_⟩
    · simp only [modifyRow, entry, i.cells_row]
      rfl
    · unfold Row.findCell at found
      rw [i.cells_row, Option.map_eq_some_iff] at found
      obtain ⟨c, hc, -⟩ := found
      have id : c.1 = 0 := by simpa using List.find?_some hc
      obtain ⟨p, hp, rfl⟩ := List.mem_map.1 (List.mem_of_find?_eq_some hc)
      exact List.mem_map.2 ⟨p, hp, id⟩

theorem stamped_of_written {s : S} {view : MutationPartitionView Pos Cell} {v : UInt32}
    (stamped : v ≠ 0 ∨ SchemaOps.cfName Cell s = "data") (h : Mvcc.writtenPartition s view s v n = .ok mp) :
    (applyView s {} view s n).setMostRecentVersion n = some mp := by
  unfold Mvcc.writtenPartition at h
  simp only at h
  split at h
  · split at h
    next set =>
      cases h
      exact set
    · cases h
  next plain =>
    exact absurd stamped plain

/-- What a stamped write leaves in its version. -/
theorem Insert.columns_written {i : Insert} {s : S} {v : UInt32} (now : Int)
    (stamped : v ≠ 0 ∨ SchemaOps.cfName Cell s = "data") (h : Mvcc.writtenPartition s i.view s v n = .ok mp) :
    columns now mp = i.stored n ∧ 0 ∈ i.values.map Prod.fst := by
  have set := stamped_of_written stamped h
  rw [i.applyView_empty] at set
  obtain ⟨⟨e, rfl, position, deleted, cells⟩, first⟩ := Insert.setMostRecentVersion_row set
  refine ⟨?_, first⟩
  have found : [e].find? (fun e => decide (e.position = emptyKey)) = some e :=
    List.find?_cons_of_pos (decide_eq_true position)
  have visible : deletedUpTo { rows := [e] } e = missingTimestamp := by
    simp [deletedUpTo, deleted]
  have live : missingTimestamp < i.timestamp := by
    unfold missingTimestamp
    omega
  unfold columns
  simp only [found, visible, cells, Insert.stampedCells, Insert.cells, Insert.stored, List.map_map, List.filterMap_map]
  congr 1
  rw [← List.filterMap_eq_map]
  refine List.filterMap_congr fun p _ => ?_
  by_cases zero : p.1 = 0 <;> simp [column, zero, live, CellOps.setMostRecentVersion]

end Written

/-- Columns without a stamp do not count. -/
theorem foldl_ts_of_zero {cols : List Column} (zero : ∀ c ∈ cols, c.mostRecentVersion = 0) {ts : Int} (pos : 0 ≤ ts) :
    cols.foldl (fun ts c => if javaInt c.mostRecentVersion > ts then javaInt c.mostRecentVersion else ts) ts = ts := by
  induction cols with
  | nil => rfl
  | cons c cols ih =>
    obtain ⟨first, zero⟩ := List.forall_mem_cons.1 zero
    rw [List.foldl_cons, first, if_neg (by simpa [javaInt] using pos)]
    exact ih zero

/-- The newest version among the columns of a write is its number. -/
theorem Insert.columnsTs_stored {i : Insert} (first : 0 ∈ i.values.map Prod.fst) {n : UInt32}
    (small : n.toNat < 2147483648) : columnsTs (i.stored n) = n.toNat := by
  obtain ⟨timestamp, values, sorted⟩ := i
  cases values with
  | nil => cases first
  | cons p values =>
    obtain ⟨least, sorted⟩ := List.pairwise_cons.1 sorted
    have id : p.1 = 0 := by
      rcases List.mem_cons.1 first with h | h
      · exact h.symm
      · obtain ⟨q, hq, h⟩ := List.mem_map.1 h
        exact absurd (h ▸ least q hq) (Nat.not_lt_zero _)
    have others : ∀ c ∈ ((values.map fun p => (⟨p.1, p.2, if p.1 = 0 then n else 0⟩ : Column)).take 999999),
        c.mostRecentVersion = 0 := by
      intro c hc
      obtain ⟨q, hq, rfl⟩ := List.mem_map.1 (List.mem_of_mem_take hc)
      exact if_neg fun h : q.1 = 0 => absurd (h ▸ least q hq) (Nat.not_lt_zero _)
    have newest : (if javaInt n > 0 then javaInt n else 0) = n.toNat := by
      unfold javaInt
      split <;> omega
    have fold := foldl_ts_of_zero others (Int.natCast_nonneg n.toNat)
    rw [← newest] at fold ⊢
    simpa [columnsTs, stored, sliceCount, id] using fold

/-- A write of one byte into the first column. -/
def putByte (b : UInt8) : Insert := ⟨0, [(0, [b])], List.pairwise_singleton ..⟩

end ScyllaMoon.Ycsb
