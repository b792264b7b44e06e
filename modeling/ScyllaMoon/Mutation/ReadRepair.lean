import ScyllaMoon.Mutation.Convergence
import ScyllaMoon.Mutation.Repair

/-!
# Read repair

The difference of two rows, and of two partitions, applied to the second. Markers that are missing may
keep what is left of an older one, so markers are compared as `row_marker::operator==` does. A row
tombstone is compared by its shadowable part only; a regular part that is newer than the other side's
gets lost where the shadowable part is not newer as well.
-/

namespace ScyllaMoon.Mutation

open Lib RowTombstone RowMarker List Option

variable {Pos Key Id : Type} [LinearOrder Key] [LinearOrder Id]

namespace RowMarker

/-- `row_marker::operator==` -/
def equal (m n : RowMarker) : Bool :=
  m.timestamp == n.timestamp && (m.isMissing || m.ttl == n.ttl && (m.ttl == 0 || m.expiry == n.expiry))

theorem equal_refl (m : RowMarker) : m.equal m = true := by
  simp [equal]

variable {m n : RowMarker}

theorem equal_of_missing (hm : m.isMissing = true) (hn : n.isMissing = true) : m.equal n = true := by
  simp_all [equal, isMissing]

theorem compareForMerge_swap (hm : m.Fits) (hn : n.Fits) : (m.compareForMerge n).swap = n.compareForMerge m := by
  rw [compareForMerge_eq hm hn, compareForMerge_eq hn hm, ← Std.OrientedOrd.eq_swap]

theorem fits_empty : ({} : RowMarker).Fits := fun _ => ⟨by decide, by decide⟩

theorem compareForMerge_of_lt (h : m.timestamp < n.timestamp) : m.compareForMerge n = .lt := by
  unfold compareForMerge
  rw [compare_lt_iff_lt.2 h]
  rfl

/-- Only another missing marker is not less than a missing one. -/
theorem isMissing_of_ge (hm : m.Fits) (hn : n.Fits) (written : missingTimestamp ≤ m.timestamp) (missing : n.isMissing = true)
    (ge : m.compareForMerge n ≠ .gt) : m.isMissing = true := by
  have ts : n.timestamp = missingTimestamp := by simpa [isMissing] using missing
  rcases written.lt_or_eq with lt | eq
  · have less := compareForMerge_of_lt (ts ▸ lt)
    rw [← compareForMerge_swap hm hn] at less
    exact absurd (by simpa using less) ge
  · simpa [isMissing] using eq.symm

theorem apply_of_gt (hm : m.Fits) (hn : n.Fits) (gt : m.compareForMerge n = .gt) : n.apply m = m := by
  unfold apply
  rw [← compareForMerge_swap hm hn, gt]
  rfl

theorem apply_of_not_gt (hm : m.Fits) (hn : n.Fits) (le : m.compareForMerge n ≠ .gt) : n.apply m = n := by
  unfold apply
  rw [← compareForMerge_swap hm hn]
  cases h : m.compareForMerge n <;> simp_all

/-- The markers are the same, or both are missing. -/
def Same (m n : RowMarker) : Prop := m = n ∨ m.isMissing = true ∧ n.isMissing = true

theorem Same.equal (h : Same m n) : m.equal n = true := by
  rcases h with rfl | ⟨hm, hn⟩
  · exact equal_refl m
  · exact equal_of_missing hm hn

theorem same_apply_empty (hm : m.Fits) (written : missingTimestamp ≤ m.timestamp) : Same (m.apply {}) m := by
  by_cases gt : ({} : RowMarker).compareForMerge m = .gt
  · rw [apply_of_gt fits_empty hm gt]
    refine .inr ⟨rfl, isMissing_of_ge hm fits_empty written rfl ?_⟩
    rw [← compareForMerge_swap fits_empty hm, gt]
    decide
  · exact .inl (apply_of_not_gt fits_empty hm gt)

theorem same_empty_apply (hm : m.Fits) (written : missingTimestamp ≤ m.timestamp) : Same (apply {} m) m := by
  by_cases gt : m.compareForMerge {} = .gt
  · exact .inl (apply_of_gt hm fits_empty gt)
  · rw [apply_of_not_gt hm fits_empty gt]
    exact .inr ⟨rfl, isMissing_of_ge hm fits_empty written rfl gt⟩

/-- The marker of the difference, if it has one. -/
def against (m n : RowMarker) : RowMarker := if m.compareForMerge n = .gt then apply {} m else {}

/-- The marker that is applied brings the other side up to date. -/
theorem same_apply_against (hm : m.Fits) (hn : n.Fits) (writtenM : missingTimestamp ≤ m.timestamp)
    (writtenN : missingTimestamp ≤ n.timestamp) : Same (n.apply (m.against n)) (n.apply m) := by
  unfold against
  split
  next gt =>
    rw [apply_of_gt hm hn gt]
    by_cases gt' : m.compareForMerge {} = .gt
    · rw [apply_of_gt hm fits_empty gt', apply_of_gt hm hn gt]
      exact .inl rfl
    · have missing := isMissing_of_ge hm fits_empty writtenM rfl gt'
      have missing' : n.isMissing = true := isMissing_of_ge hn hm writtenN missing (by
        rw [← compareForMerge_swap hm hn, gt]
        decide)
      rw [apply_of_not_gt hm fits_empty gt']
      rcases same_apply_empty hn writtenN with same | same
      · exact .inr ⟨by rwa [same], missing⟩
      · exact .inr ⟨same.1, missing⟩
  next le =>
    rw [apply_of_not_gt hm hn le]
    exact same_apply_empty hn writtenN

/-- A marker that the difference leaves out, or that is missing in it, changes nothing. -/
theorem same_of_against_missing (hm : m.Fits) (hn : n.Fits) (writtenM : missingTimestamp ≤ m.timestamp)
    (writtenN : missingTimestamp ≤ n.timestamp) (missing : (m.against n).isMissing = true) : Same n (n.apply m) := by
  unfold against at missing
  split at missing
  next gt =>
    rw [apply_of_gt hm hn gt]
    have missing' : m.isMissing = true := by
      rcases same_empty_apply hm writtenM with same | same
      · rwa [same] at missing
      · exact same.2
    refine .inr ⟨isMissing_of_ge hn hm writtenN missing' ?_, missing'⟩
    rw [← compareForMerge_swap hm hn, gt]
    decide
  next le =>
    exact .inl (apply_of_not_gt hm hn le).symm

end RowMarker

namespace RowTombstone

variable {t u : RowTombstone} {m n : RowMarker}

/-- Tombstones that are written or empty, the shadowable one not less than the regular one. -/
structure Proper (t : RowTombstone) : Prop where
  regular : t.regular.Written
  shadowable : t.shadowable.Written
  le : t.regular ≤ t.shadowable

theorem proper_empty : ({} : RowTombstone).Proper := ⟨Tombstone.written_empty, Tombstone.written_empty, le_rfl⟩

theorem maybeShadow_congr (h : RowMarker.Same m n) (t : RowTombstone) : t.maybeShadow m = t.maybeShadow n := by
  rcases h with rfl | ⟨hm, hn⟩
  · rfl
  · simp [maybeShadow, isLive, hm, hn]

theorem apply_eq (t u : RowTombstone) (m : RowMarker) :
    t.apply u m = maybeShadow ⟨max t.regular u.regular, max t.shadowable u.shadowable⟩ m := by
  unfold apply
  rw [Tombstone.apply_eq_max, Tombstone.apply_eq_max]

theorem empty_apply (h : u.Proper) (m : RowMarker) : apply {} u m = u.maybeShadow m := by
  rw [apply_eq, max_eq_right h.regular.ge, max_eq_right h.shadowable.ge]

/-- A shadowable part that the marker removes from the difference is removed from the sum as well. -/
theorem maybeShadow_apply_of_lt (ht : t.Proper) (newer : u.shadowable < t.shadowable) {k : RowMarker}
    (kept : k.isLive = true → k = m) : (t.maybeShadow k).apply u m = t.apply u m := by
  by_cases shadow : k.isLive ∧ k.timestamp > t.shadowable.timestamp
  · obtain rfl := kept shadow.1
    have ts : ∀ v ≤ t.shadowable, v.timestamp < k.timestamp := fun v hv => (Tombstone.timestamp_le hv).trans_lt shadow.2
    rw [maybeShadow, if_pos shadow, apply_eq, apply_eq, maybeShadow, maybeShadow,
      if_pos ⟨shadow.1, ts _ (max_le ht.le newer.le)⟩, if_pos ⟨shadow.1, ts _ (max_le le_rfl newer.le)⟩]
  · rw [maybeShadow, if_neg shadow]

/-- A regular part that is not applied makes no difference just where it is not newer. -/
theorem maybeShadow_eq_apply_iff (older : t.shadowable ≤ u.shadowable) :
    u.maybeShadow m = t.apply u m ↔ t.regular ≤ u.regular := by
  rw [apply_eq, max_eq_right older]
  refine ⟨fun same => ?_, fun le => by rw [max_eq_right le]⟩
  have regular : ∀ v : RowTombstone, (v.maybeShadow m).regular = v.regular := fun v => by
    unfold maybeShadow
    split <;> rfl
  have := congrArg RowTombstone.regular same
  rw [regular, regular] at this
  exact (le_max_left _ _).trans this.ge

end RowTombstone

namespace RowContent

/-- The same row tombstone, marker and cells. -/
structure SameAs (r s : RowContent Key Id) : Prop where
  deletedAt : r.deletedAt = s.deletedAt
  marker : r.marker.equal s.marker = true
  cells : r.cells = s.cells

/-- The difference brings a row up to date. -/
structure Repairs (r s : RowContent Key Id) : Prop where
  /-- a regular tombstone is newer only where the shadowable one is -/
  regular : s.deletedAt.regular < r.deletedAt.regular → s.deletedAt.shadowable < r.deletedAt.shadowable
  cells : CellsRepair r.cells s.cells

theorem SameAs.refl (r : RowContent Key Id) : r.SameAs r := ⟨rfl, equal_refl _, rfl⟩

end RowContent

namespace DeletableRow

/-- A row of a schema whose columns have the given types, as the operations of `deletable_row` make it. -/
structure Valid (types : ColumnId → CellType) (r : DeletableRow (ColumnCell Key Id)) : Prop where
  deletedAt : r.deletedAt.Proper
  shadowed : r.Shadowed
  marker : r.marker.Fits
  timestamp : missingTimestamp ≤ r.marker.timestamp
  sorted : r.cells.Sorted
  cells : ∀ c ∈ r.cells.cells, c.2.data.Ok (types c.1)

variable {types : ColumnId → CellType} {r s : DeletableRow (ColumnCell Key Id)}

theorem marker_difference (r s : DeletableRow (ColumnCell Key Id)) :
    (r.difference s).marker = r.marker.against s.marker := by
  unfold difference against
  by_cases tomb : r.deletedAt.shadowable > s.deletedAt.shadowable <;>
    by_cases gt : r.marker.compareForMerge s.marker = .gt <;> simp [tomb, gt, applyMarker, applyTombstone]

theorem deletedAt_difference (hr : r.Valid types) (s : DeletableRow (ColumnCell Key Id)) : (r.difference s).deletedAt =
    (if s.deletedAt.shadowable < r.deletedAt.shadowable then r.deletedAt else {}).maybeShadow
      (r.marker.against s.marker) := by
  have missing : ∀ t : RowTombstone, t.maybeShadow {} = t := fun _ => rfl
  have tomb : RowTombstone.apply {} r.deletedAt {} = r.deletedAt := RowTombstone.empty_apply hr.deletedAt {}
  unfold difference against
  by_cases newer : s.deletedAt.shadowable < r.deletedAt.shadowable <;>
    by_cases gt : r.marker.compareForMerge s.marker = .gt <;>
      simp [newer, gt, applyMarker, applyTombstone, missing, tomb]

theorem live_against {m n : RowMarker} (hm : m.Fits) (hn : n.Fits) (live : (m.against n).isLive = true) :
    m.against n = n.apply m := by
  unfold against at live ⊢
  split at live
  next gt =>
    rw [if_pos gt, apply_of_gt hm hn gt]
    by_cases gt' : m.compareForMerge {} = .gt
    · exact apply_of_gt hm fits_empty gt'
    · rw [apply_of_not_gt hm fits_empty gt'] at live
      exact absurd live (by decide)
  · exact absurd live (by decide)

/-- What a row becomes when the difference is applied to it. -/
def repaired (r s : DeletableRow (ColumnCell Key Id)) : RowContent Key Id :=
  if (r.difference s).empty then s.content else s.content.join (r.difference s).content

theorem empty_iff : r.empty = true ↔
    r.deletedAt.shadowable.timestamp = missingTimestamp ∧ r.marker.isMissing = true ∧ r.cells.cells = [] := by
  simp [empty, Row.empty, and_assoc]

section Repaired

variable (hr : r.Valid types) (hs : s.Valid types)

include hr hs

theorem same_marker_repaired : RowMarker.Same (repaired r s).marker (s.marker.apply r.marker) := by
  unfold repaired
  split
  next empty =>
    have missing := (empty_iff.1 empty).2.1
    rw [marker_difference] at missing
    exact same_of_against_missing hr.marker hs.marker hr.timestamp hs.timestamp missing
  · change RowMarker.Same (s.marker.apply (r.difference s).marker) _
    rw [marker_difference]
    exact same_apply_against hr.marker hs.marker hr.timestamp hs.timestamp

/-- A difference with a newer shadowable tombstone is not empty. -/
theorem not_empty_of_newer (newer : s.deletedAt.shadowable < r.deletedAt.shadowable) : (r.difference s).empty = false := by
  rw [← Bool.not_eq_true]
  intro empty
  obtain ⟨ts, missing, -⟩ := empty_iff.1 empty
  rw [marker_difference] at missing
  rw [deletedAt_difference hr, if_pos newer, maybeShadow, if_neg (by simp [isLive, missing])] at ts
  have written : missingTimestamp < r.deletedAt.shadowable.timestamp := by
    refine hr.deletedAt.shadowable.resolve_left fun none => ?_
    rw [none] at newer
    exact absurd newer (not_lt.2 hs.deletedAt.shadowable.ge)
  exact absurd ts written.ne'

/-- A shadowable tombstone that is newer brings the regular one along. -/
theorem deletedAt_repaired_newer (newer : s.deletedAt.shadowable < r.deletedAt.shadowable) :
    (repaired r s).deletedAt = (s.content.join r.content).deletedAt := by
  have same := same_marker_repaired hr hs
  unfold repaired at same ⊢
  rw [not_empty_of_newer hr hs newer, if_neg (by decide)] at same ⊢
  change (r.difference s).deletedAt.apply s.deletedAt (s.marker.apply (r.difference s).marker) =
    r.deletedAt.apply s.deletedAt (s.marker.apply r.marker)
  rw [deletedAt_difference hr, if_pos newer]
  refine (maybeShadow_congr same _).trans ?_
  exact maybeShadow_apply_of_lt hr.deletedAt newer (live_against hr.marker hs.marker)

/-- Without a newer shadowable tombstone, none at all is in the difference. -/
theorem deletedAt_repaired_older (older : ¬s.deletedAt.shadowable < r.deletedAt.shadowable) :
    (repaired r s).deletedAt = s.deletedAt.maybeShadow (s.marker.apply r.marker) := by
  have same := same_marker_repaired hr hs
  unfold repaired at same ⊢
  split at same
  next empty =>
    rw [if_pos empty, ← maybeShadow_congr same]
    exact hs.shadowed.symm
  next new =>
    rw [if_neg new, ← maybeShadow_congr same]
    have none : (r.difference s).deletedAt = {} := by
      rw [deletedAt_difference hr, if_neg older, maybeShadow]
      split <;> rfl
    change (r.difference s).deletedAt.apply s.deletedAt _ = _
    rw [none, empty_apply hs.deletedAt]
    rfl

theorem deletedAt_repaired_iff : (repaired r s).deletedAt = (s.content.join r.content).deletedAt ↔
    (s.deletedAt.regular < r.deletedAt.regular → s.deletedAt.shadowable < r.deletedAt.shadowable) := by
  by_cases newer : s.deletedAt.shadowable < r.deletedAt.shadowable
  · exact iff_of_true (deletedAt_repaired_newer hr hs newer) fun _ => newer
  · rw [deletedAt_repaired_older hr hs newer]
    refine (maybeShadow_eq_apply_iff (not_lt.1 newer)).trans ?_
    exact ⟨fun le lt => absurd lt (not_lt.2 le), fun h => not_lt.1 fun lt => newer (h lt)⟩

theorem cells_repaired_iff : (repaired r s).cells = (s.content.join r.content).cells ↔
    CellsRepair r.cells.data s.cells.data := by
  have cells : (repaired r s).cells = joinCells s.cells.data (r.cells.difference s.cells).data := by
    unfold repaired
    split
    next empty =>
      have none : (r.cells.difference s.cells).cells = [] := (empty_iff.1 empty).2.2
      funext id
      simp [content, joinCells, Row.data, Row.findCell, none]
    · rfl
  rw [cells]
  exact joinCells_difference_iff (MutationPartition.cellsOk_of_mem hr.cells) (MutationPartition.cellsOk_of_mem hs.cells)
    (Row.data_difference hr.sorted hs.sorted)

/-- The difference of two rows brings the second up to date just where it repairs it. -/
theorem repaired_sameAs_iff : (repaired r s).SameAs (s.content.join r.content) ↔ r.content.Repairs s.content := by
  have marker := (same_marker_repaired hr hs).equal
  constructor
  · intro h
    exact ⟨(deletedAt_repaired_iff hr hs).1 h.deletedAt, (cells_repaired_iff hr hs).1 h.cells⟩
  · intro h
    exact ⟨(deletedAt_repaired_iff hr hs).2 h.regular, marker, (cells_repaired_iff hr hs).2 h.cells⟩

end Repaired

theorem sameAs_join_empty (hs : s.Valid types) :
    s.content.SameAs (s.content.join ({} : DeletableRow (ColumnCell Key Id)).content) where
  deletedAt := by
    have same := same_apply_empty hs.marker hs.timestamp
    refine (hs.shadowed.symm.trans (maybeShadow_congr same _).symm).trans ?_
    exact (empty_apply hs.deletedAt _).symm
  marker := by
    have same := same_apply_empty hs.marker hs.timestamp
    refine RowMarker.Same.equal ?_
    rcases same with same | ⟨h, h'⟩
    · exact .inl same.symm
    · exact .inr ⟨h', h⟩
  cells := by
    funext id
    simp [content, RowContent.join, joinCells, Row.data, Row.findCell]

end DeletableRow

namespace Content

/-- The row of a position; one without anything in it where there is none. -/
def row (c : Content Pos Key Id) (x : Pos) : RowContent Key Id :=
  (c.rows x).getD ({} : DeletableRow (ColumnCell Key Id)).content

/-- The same partition tombstone, row tombstones, markers and cells, and the same deletion of every
position. -/
structure SameAs (c d : Content Pos Key Id) : Prop where
  tombstone : c.tombstone = d.tombstone
  deletion : ∀ x, c.deletion x = d.deletion x
  staticRow : c.staticRow = d.staticRow
  rows : ∀ x, (c.row x).SameAs (d.row x)

/-- The difference of two partitions brings the second up to date. -/
structure Repairs (c d : Content Pos Key Id) : Prop where
  staticRow : CellsRepair c.staticRow d.staticRow
  rows : ∀ x r s, c.rows x = some r → d.rows x = some s → r.Repairs s

end Content

theorem RowsEntry.position_difference {r e : ColumnEntry Pos Key Id} {it : Option (ColumnEntry Pos Key Id)}
    (h : r.difference it = some e) : e.position = r.position := by
  unfold RowsEntry.difference at h
  cases it with
  | none =>
    cases h
    rfl
  | some i =>
    simp only at h
    split at h <;> cases h
    rfl

namespace MutationPartition

variable [Position Pos] {types : ColumnKind → ColumnId → CellType} {a b : ColumnPartition Pos Key Id}

/-- A partition of a schema whose columns have the given types. -/
structure Valid (types : ColumnKind → ColumnId → CellType) (p : ColumnPartition Pos Key Id) : Prop where
  ordered : p.Ordered
  tombstone : {} ≤ p.tombstone
  staticRow : ∀ c ∈ p.staticRow.cells, c.2.data.Ok (types .static c.1)
  rows : ∀ e ∈ p.rows, e.row.Valid (types .regular)
  /-- dummy entries have no content -/
  dummies : ∀ e ∈ p.rows, e.dummy = true → e.row = {}

variable (p : ColumnPartition Pos Key Id)

/-- The entry of a position. -/
def entry (x : Pos) : Option (ColumnEntry Pos Key Id) :=
  p.rows.find? fun e => decide (e.position = x)

theorem entry_mem {p : ColumnPartition Pos Key Id} {x : Pos} {e : ColumnEntry Pos Key Id}
    (h : p.entry x = some e) : e ∈ p.rows := mem_of_find?_eq_some h

theorem entry_difference (ha : a.Ordered) (hb : b.Ordered) (x : Pos) : (a.difference b).entry x =
    ((a.entry x).filter fun r => !r.dummy).bind fun r => r.difference ((b.entry x).filter fun e => !e.dummy) := by
  have sortedA := ha.rows.sublist (filter_sublist (p := fun r => !r.dummy))
  have sortedB := hb.rows.sublist (filter_sublist (p := fun e => !e.dummy))
  have rows : (a.difference b).rows = _ := alongside_eq sortedA sortedB
  unfold entry
  rw [rows, Lib.Sorted.find?_filterMap (fun _ _ => RowsEntry.position_difference) sortedA, ha.rows.find?_filter]
  cases hr : (a.rows.find? fun e => decide (e.position = x)).filter fun r => !r.dummy with
  | none => rfl
  | some r =>
    have key : r.position = x := by
      have := find?_some (eq_some_of_filter_eq_some hr)
      simpa using this
    simp only [bind_some, key, hb.rows.find?_filter]

theorem rows_eq (x : Pos) : p.content.rows x = (p.entry x).map fun e => e.row.content := rfl

theorem Ordered.difference (ha : a.Ordered) (hb : b.Ordered) : (a.difference b).Ordered := by
  have sortedA := ha.rows.sublist (filter_sublist (p := fun r => !r.dummy))
  have sortedB := hb.rows.sublist (filter_sublist (p := fun e => !e.dummy))
  have rows : (a.difference b).rows = _ := alongside_eq sortedA sortedB
  refine ⟨ha.staticRow.difference hb.staticRow, ?_, fun e he => ?_, ha.rowTombstones.difference hb.rowTombstones⟩
  · rw [rows]
    exact Lib.Sorted.filterMap (fun _ _ => RowsEntry.position_difference) sortedA
  · rw [rows] at he
    obtain ⟨r, hr, found⟩ := mem_filterMap.1 he
    have sorted := ha.cells r (mem_of_mem_filter hr)
    unfold RowsEntry.difference at found
    split at found
    · cases found
      exact sorted
    next i hi =>
      simp only at found
      split at found <;> cases found
      exact sorted.difference (hb.cells i (mem_of_mem_filter (mem_of_find?_eq_some hi)))

/-- An empty row needs no repair, and neither does the row that is merged into one. -/
theorem repairs_empty_left {types : ColumnId → CellType} {s : DeletableRow (ColumnCell Key Id)} (hs : s.Valid types) :
    ({} : DeletableRow (ColumnCell Key Id)).content.Repairs s.content :=
  ⟨fun lt => absurd lt (not_lt.2 hs.deletedAt.regular.ge), fun _ _ _ h => by cases h⟩

/-- The rows of a position, merged or repaired, are the same just where the difference repairs them. -/
theorem row_repaired_iff (ha : a.Valid types) (hb : b.Valid types) (x : Pos) :
    ((b.merge (a.difference b)).content.row x).SameAs ((b.merge a).content.row x) ↔
      ∀ r s, a.content.rows x = some r → b.content.rows x = some s → r.Repairs s := by
  unfold Content.row
  rw [rows_merge hb.ordered (ha.ordered.difference hb.ordered), rows_merge hb.ordered ha.ordered, rows_eq, rows_eq, rows_eq,
    entry_difference ha.ordered hb.ordered]
  cases hr : a.entry x with
  | none => exact iff_of_true (.refl _) fun _ _ h => by cases h
  | some r =>
    have validR := ha.rows r (entry_mem hr)
    cases dummyR : r.dummy with
    | true =>
      -- the difference skips the entry, which has nothing in it
      have emptyR := ha.dummies r (entry_mem hr) dummyR
      rw [filter_some_neg (by simp [dummyR]), bind_none, map_none, merge_none_right,
        map_some, emptyR]
      cases hs : b.entry x with
      | none => exact iff_of_true (.refl _) fun _ _ _ h => by cases h
      | some s =>
        have validS := hb.rows s (entry_mem hs)
        refine iff_of_true (DeletableRow.sameAs_join_empty validS) ?_
        rintro _ _ ⟨⟩ ⟨⟩
        exact repairs_empty_left validS
    | false =>
      rw [filter_some_pos (by simp [dummyR]), bind_some, map_some]
      cases hs : b.entry x with
      | none => exact iff_of_true (.refl _) fun _ _ _ h => by cases h
      | some s =>
        have validS := hb.rows s (entry_mem hs)
        cases dummyS : s.dummy with
        | true =>
          rw [filter_some_neg (by simp [dummyS])]
          refine iff_of_true (.refl _) ?_
          rintro _ _ ⟨⟩ ⟨⟩
          have emptyS := hb.dummies s (entry_mem hs) dummyS
          simpa only [emptyS] using (⟨fun lt => lt.trans_le validR.deletedAt.le, fun _ _ _ _ h => by cases h⟩)
        | false =>
          have applied : Option.getD (Option.merge RowContent.join (some s.row.content)
              ((r.difference (some s)).map fun e => e.row.content)) ({} : DeletableRow (ColumnCell Key Id)).content =
                DeletableRow.repaired r.row s.row := by
            simp only [RowsEntry.difference, DeletableRow.repaired]
            split <;> rfl
          rw [Option.filter_some_pos (by simp [dummyS]), Option.map_some, applied]
          refine (DeletableRow.repaired_sameAs_iff validR validS).trans ⟨?_, fun h => h _ _ rfl rfl⟩
          rintro h _ _ ⟨⟩ ⟨⟩
          exact h

theorem tombstone_repaired (ha : a.Valid types) (hb : b.Valid types) :
    max b.tombstone (a.difference b).tombstone = max b.tombstone a.tombstone := by
  unfold difference
  simp only [Tombstone.apply_eq_max]
  split
  · rw [max_eq_right ha.tombstone]
  next older =>
    rw [max_eq_left hb.tombstone, max_eq_left (not_lt.1 older)]

/-- Applying the difference of `a` and `b` to `b` gives the partition that applying `a` gives, just where
no regular row tombstone is newer without its shadowable part, and the collections repair each other. -/
theorem difference_repairs_iff (types : ColumnKind → ColumnId → CellType) (a b : ColumnPartition Pos Key Id)
    (ha : a.Valid types) (hb : b.Valid types) :
    (b.merge (a.difference b)).content.SameAs (b.merge a).content ↔ a.content.Repairs b.content := by
  have ordered := ha.ordered.difference hb.ordered
  have staticRow : (b.merge (a.difference b)).content.staticRow = (b.merge a).content.staticRow ↔
      CellsRepair a.content.staticRow b.content.staticRow := by
    rw [content_merge hb.ordered ordered, content_merge hb.ordered ha.ordered]
    exact joinCells_difference_iff (cellsOk_of_mem ha.staticRow) (cellsOk_of_mem hb.staticRow)
      (Row.data_difference ha.ordered.staticRow hb.ordered.staticRow)
  constructor
  · exact fun h => ⟨staticRow.1 h.staticRow, fun x => (row_repaired_iff ha hb x).1 (h.rows x)⟩
  · intro h
    refine ⟨?_, fun x => ?_, staticRow.2 h.staticRow, fun x => (row_repaired_iff ha hb x).2 (h.rows x)⟩
    · rw [content_merge hb.ordered ordered, content_merge hb.ordered ha.ordered]
      exact tombstone_repaired ha hb
    · rw [content_merge hb.ordered ordered, content_merge hb.ordered ha.ordered]
      exact RangeTombstoneList.merge_difference ha.ordered.rowTombstones hb.ordered.rowTombstones x

/-- A partition with one row that has only a tombstone. -/
def ofTombstone (x : Pos) (t : RowTombstone) : ColumnPartition Pos Key Id :=
  { rows := [{ position := x, row := { deletedAt := t } }] }

theorem valid_ofTombstone {x : Pos} {t : RowTombstone} (h : t.Proper) :
    (ofTombstone x t : ColumnPartition Pos Key Id).Valid types where
  ordered := ⟨.nil, pairwise_singleton .., by simp [ofTombstone, Row.Sorted, Sorted], RangeTombstoneList.wellFormed_nil⟩
  tombstone := le_rfl
  staticRow := by simp [ofTombstone]
  rows := by
    have row : ({ deletedAt := t } : DeletableRow (ColumnCell Key Id)).Valid (types .regular) :=
      ⟨h, rfl, fits_empty, le_rfl, .nil, fun _ h => absurd h not_mem_nil⟩
    simpa [ofTombstone] using row
  dummies := by simp [ofTombstone]

/-- A newer row deletion is repaired. -/
theorem newer_deletion_repaired :
    let a : ColumnPartition Nat Nat Nat := ofTombstone 1 ⟨⟨7, 7⟩, ⟨7, 7⟩⟩
    let b : ColumnPartition Nat Nat Nat := ofTombstone 1 ⟨{}, ⟨5, 5⟩⟩
    (b.merge (a.difference b)).content.SameAs (b.merge a).content := by
  intro a b
  have proper : RowTombstone.Proper ⟨⟨7, 7⟩, ⟨7, 7⟩⟩ := ⟨.inr (by decide), .inr (by decide), le_rfl⟩
  have proper' : RowTombstone.Proper ⟨{}, ⟨5, 5⟩⟩ := ⟨.inl rfl, .inr (by decide), (Tombstone.Written.ge (.inr (by decide)))⟩
  refine (difference_repairs_iff (fun _ _ => .atomic) a b (valid_ofTombstone proper) (valid_ofTombstone proper')).2 ?_
  refine ⟨fun _ _ _ h => (nomatch h), fun x r s hr hs => ?_⟩
  obtain ⟨e, he, rfl⟩ := map_eq_some_iff.1 hr
  obtain ⟨i, hi, rfl⟩ := map_eq_some_iff.1 hs
  obtain rfl := mem_singleton.1 (mem_of_find?_eq_some he)
  obtain rfl := mem_singleton.1 (mem_of_find?_eq_some hi)
  exact ⟨fun _ => by decide, fun _ _ _ h => (nomatch h)⟩

/-- A row deletion is lost where the other side has a newer shadowable tombstone: rows compare by the
shadowable part, so that the difference is empty. -/
theorem regular_tombstone_lost :
    let a : ColumnPartition Nat Nat Nat := ofTombstone 1 ⟨⟨5, 5⟩, ⟨5, 5⟩⟩
    let b : ColumnPartition Nat Nat Nat := ofTombstone 1 ⟨{}, ⟨7, 7⟩⟩
    (a.Valid fun _ _ => .atomic) ∧ (b.Valid fun _ _ => .atomic) ∧ (a.difference b).rows = [] ∧
      ((b.merge (a.difference b)).content.row 1).deletedAt = ⟨{}, ⟨7, 7⟩⟩ ∧
      ((b.merge a).content.row 1).deletedAt = ⟨⟨5, 5⟩, ⟨7, 7⟩⟩ := by
  have proper : RowTombstone.Proper ⟨⟨5, 5⟩, ⟨5, 5⟩⟩ := ⟨.inr (by decide), .inr (by decide), le_rfl⟩
  have proper' : RowTombstone.Proper ⟨{}, ⟨7, 7⟩⟩ := ⟨.inl rfl, .inr (by decide), (Tombstone.Written.ge (.inr (by decide)))⟩
  exact ⟨valid_ofTombstone proper, valid_ofTombstone proper', rfl, rfl, rfl⟩

end MutationPartition

end ScyllaMoon.Mutation
