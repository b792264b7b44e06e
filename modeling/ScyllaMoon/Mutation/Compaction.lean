import ScyllaMoon.Mutation.Purge

/-!
# Compaction keeps what is live

A partition is compacted while other data of its key stays in memtables and in sstables that take no part.
Reads merge what compaction wrote with that data. If everything in it is as new as the timestamp up to
which compaction may purge, such a merge has the same live rows and cells as one with the partition
before compaction, at the time of the compaction and at any later one.
-/

namespace ScyllaMoon.Mutation

open Lib List

variable {Pos Key Id : Type} [LinearOrder Key] [LinearOrder Id]

/-- A timestamp of the data of a column. -/
def CellData.Occurs (s : Int) : CellData Key Id → Prop
  | atomic c => c.timestamp = s
  | counter c => c.timestamp = s
  | collection m => m.tomb.isSet = true ∧ m.tomb.timestamp = s ∨ ∃ c ∈ m.cells, c.2.timestamp = s

/-- The timestamps of a row. -/
inductive DeletableRow.Occurs (r : DeletableRow (ColumnCell Key Id)) : Int → Prop
  | regular (h : r.deletedAt.regular.isSet = true) : Occurs r r.deletedAt.regular.timestamp
  | shadowable (h : r.deletedAt.shadowable.isSet = true) : Occurs r r.deletedAt.shadowable.timestamp
  | marker (h : r.marker.isMissing = false) : Occurs r r.marker.timestamp
  | cell {s : Int} (c : ColumnId × ColumnCell Key Id) (mem : c ∈ r.cells.cells) (h : c.2.data.Occurs s) : Occurs r s

namespace MutationPartition

variable [Position Pos] {types : ColumnKind → ColumnId → CellType} {p r : ColumnPartition Pos Key Id}

/-- The timestamps of a partition. -/
inductive Occurs (p : ColumnPartition Pos Key Id) : Int → Prop
  | tombstone (h : p.tombstone.isSet = true) : Occurs p p.tombstone.timestamp
  | rangeTombstone (rt : RangeTombstone Pos) (mem : rt ∈ p.rowTombstones) : Occurs p rt.tomb.timestamp
  | staticCell {s : Int} (c : ColumnId × ColumnCell Key Id) (mem : c ∈ p.staticRow.cells) (h : c.2.data.Occurs s) : Occurs p s
  | row {s : Int} (e : ColumnEntry Pos Key Id) (mem : e ∈ p.rows) (h : e.row.Occurs s) : Occurs p s

/-- No marker, cell or element of a collection of `r` has the timestamp of one of `p` in the same place. -/
structure Apart (p r : ColumnPartition Pos Key Id) : Prop where
  staticRow : ∀ id k, ∀ c ∈ cellAt (p.staticRow.data id) k, ∀ d ∈ cellAt (r.staticRow.data id) k, c.timestamp ≠ d.timestamp
  markers : ∀ e ∈ p.rows, ∀ f ∈ r.rows, e.position = f.position → e.row.marker.isMissing = false →
    f.row.marker.isMissing = false → e.row.marker.timestamp ≠ f.row.marker.timestamp
  cells : ∀ e ∈ p.rows, ∀ f ∈ r.rows, e.position = f.position → ∀ id k, ∀ c ∈ cellAt (e.row.cells.data id) k,
    ∀ d ∈ cellAt (f.row.cells.data id) k, c.timestamp ≠ d.timestamp

/-- A partition as a memtable or an sstable has it. -/
structure Stored (types : ColumnKind → ColumnId → CellType) (p : ColumnPartition Pos Key Id) : Prop where
  valid : p.Valid types
  written : p.tombstone.Written
  dummies : ∀ e ∈ p.rows, e.dummy = false

/-- The same rows are live, and the same of their cells and of the static row. -/
structure SameLive (now : Int) (p q : ColumnPartition Pos Key Id) : Prop where
  rows : ∀ x, p.isRowLive now x = q.isRowLive now x
  cells : ∀ x, p.liveRow now x = q.liveRow now x
  staticRow : p.isStaticRowLive now = q.isStaticRowLive now
  staticCells : p.liveStatic now = q.liveStatic now

section Merge

variable {x : Pos} {now : Int}

theorem Stored.settled_row (h : p.Stored types) (x : Pos) : (p.content.row x).Settled := by
  unfold Content.row
  rw [rows_eq]
  cases found : p.entry x with
  | none => exact RowContent.settled_empty
  | some e =>
    have valid := h.valid.rows e (entry_mem found)
    exact ⟨valid.deletedAt, valid.shadowed, valid.timestamp⟩

theorem row_merge (hp : p.Ordered) (hr : r.Ordered) (settledP : (p.content.row x).Settled) (settledR : (r.content.row x).Settled) :
    ((p.merge r).content.row x).Alike ((p.content.row x).join (r.content.row x)) := by
  have rows := rows_merge hp hr x
  unfold Content.row at settledP settledR ⊢
  rw [rows]
  cases hp' : p.content.rows x with
  | none => cases hr' : r.content.rows x with
    | none => exact RowContent.settled_empty.join_empty.symm
    | some s =>
      rw [hr'] at settledR
      exact settledR.empty_join.symm
  | some s => cases hr' : r.content.rows x with
    | none =>
      rw [hp'] at settledP
      exact settledP.join_empty.symm
    | some t => exact .refl _

theorem base_merge (hp : p.Ordered) (hr : r.Ordered) (leastP : {} ≤ p.tombstone) (x : Pos) :
    (p.merge r).content.base x = max (p.content.base x) (r.content.base x) := by
  rw [content_merge hp hr]
  unfold Content.base Content.join
  change {} ≤ p.content.tombstone at leastP
  have merged : ∀ a b : Option Tombstone, ∀ t : Tombstone, {} ≤ t →
      max t ((Option.merge max a b).getD {}) = max t (max (a.getD {}) (b.getD {})) := fun a b t ht => by
    cases a <;> cases b <;> simp only [Option.merge_none_left, Option.merge_none_right, Option.merge_some_some, Option.getD_none,
      Option.getD_some]
    · rw [max_self]
    · rw [← max_assoc, max_eq_left ht]
    · rw [max_left_comm, max_eq_left ht, max_comm]
  rw [merged _ _ _ (leastP.trans (le_max_left _ _)), max_max_max_comm]

theorem filter_entry (dummies : ∀ e ∈ p.rows, e.dummy = false) (x : Pos) :
    ((p.entry x).filter fun e => !e.dummy) = p.entry x := by
  cases found : p.entry x with
  | none => rfl
  | some e => simp [Option.filter, dummies e (entry_mem found)]

theorem isRowLive_iff (h : p.Ordered) (dummies : ∀ e ∈ p.rows, e.dummy = false) (least : {} ≤ p.tombstone) :
    p.isRowLive now x = true ↔ (p.content.row x).IsLive (p.content.base x) now := by
  unfold isRowLive Content.row
  rw [filter_entry dummies, rangeTombstoneForRow_eq least, rows_eq]
  cases found : p.entry x with
  | none =>
    refine iff_of_false (by simp) ?_
    rintro (live | ⟨id, k, v, live⟩)
    · exact absurd live (by rw [RowMarker.isLiveAt_of_missing rfl]; exact Bool.false_ne_true)
    · cases live
  | some e => exact DeletableRow.isLive_iff (h.cells e (entry_mem found))

theorem liveRow_eq (dummies : ∀ e ∈ p.rows, e.dummy = false) (least : {} ≤ p.tombstone) :
    p.liveRow now x = (p.content.row x).live (p.content.base x) now := by
  unfold liveRow Content.row
  rw [filter_entry dummies, rangeTombstoneForRow_eq least, rows_eq]
  cases found : p.entry x with
  | none => rfl
  | some e =>
    simp only [Option.bind_some, Option.map_some, Option.getD_some, Tombstone.apply_eq_max]
    rfl

theorem liveStatic_eq (p : ColumnPartition Pos Key Id) (now : Int) :
    p.liveStatic now = liveCells p.content.tombstone now p.content.staticRow := rfl

theorem dummies_merge (hp : ∀ e ∈ p.rows, e.dummy = false) (hr : ∀ e ∈ r.rows, e.dummy = false) :
    ∀ e ∈ (p.merge r).rows, e.dummy = false :=
  foldlRecOn (motive := fun l : List (ColumnEntry Pos Key Id) => ∀ e ∈ l, e.dummy = false)
    r.rows _ hp fun _ hl e he => forall_mem_upsert (hr e he) hl fun _ _ hi => hi

/-- Partitions with the same live cells have the same live rows, if their markers agree. -/
theorem SameLive.of_content (hp : p.Ordered) (hr : r.Ordered) (dummiesP : ∀ e ∈ p.rows, e.dummy = false)
    (dummiesR : ∀ e ∈ r.rows, e.dummy = false) (leastP : {} ≤ p.tombstone) (leastR : {} ≤ r.tombstone)
    (rows : ∀ x, (p.content.row x).live (p.content.base x) now = (r.content.row x).live (r.content.base x) now ∧
      ((p.content.row x).IsLive (p.content.base x) now ↔ (r.content.row x).IsLive (r.content.base x) now))
    (static : p.liveStatic now = r.liveStatic now) : SameLive now p r where
  rows x := Bool.eq_iff_iff.2 <| by
    rw [isRowLive_iff hp dummiesP leastP, isRowLive_iff hr dummiesR leastR]
    exact (rows x).2
  cells x := by
    rw [liveRow_eq dummiesP leastP, liveRow_eq dummiesR leastR]
    exact (rows x).1
  staticRow := Bool.eq_iff_iff.2 <| by
    have cells := static
    rw [liveStatic_eq, liveStatic_eq] at cells
    unfold isStaticRowLive
    rw [Row.hasAnyLiveData_iff hp.staticRow, Row.hasAnyLiveData_iff hr.staticRow]
    change (∃ id k v, liveCells p.content.tombstone now p.content.staticRow id k = some v) ↔
      ∃ id k v, liveCells r.content.tombstone now r.content.staticRow id k = some v
    rw [cells]
  staticCells := static

end Merge

section Purged

variable {now gcGrace maxPurgeable : Int} {x : Pos}

section

variable (written : p.tombstone.Written)
include written

theorem tombstone_compacted (h : p.Ordered) : (p.compacted now gcGrace maxPurgeable).tombstone =
      if p.tombstone.isSet && !(compactForCompaction now gcGrace maxPurgeable).canPurgeTombstone p.tombstone
        then p.tombstone else {} := by
  rw [compacted_eq written h]

theorem least_tombstone_compacted (h : p.Ordered) : {} ≤ (p.compacted now gcGrace maxPurgeable).tombstone := by
  rw [tombstone_compacted written h]
  split
  · exact written.ge
  · exact le_rfl

theorem dummies_compacted (h : p.Ordered) : ∀ e ∈ (p.compacted now gcGrace maxPurgeable).rows, e.dummy = false := by
  rw [compacted_eq written h]
  intro e he
  obtain ⟨d, -, he⟩ := mem_filterMap.1 he
  unfold CompactMutation.outEntry at he
  split at he <;> cases he
  rfl

omit written in
/-- A tombstone that is purged is older than the bound. -/
theorem canPurgeTombstone_lt {t : Tombstone}
    (purge : (compactForCompaction now gcGrace maxPurgeable).canPurgeTombstone t = true) : t.timestamp < maxPurgeable := by
  simp [CompactMutation.Mode.canPurgeTombstone, CompactMutation.Mode.canGc, compactForCompaction] at purge
  exact of_decide_eq_true purge.2.2

/-- The partition tombstone stays unless it is older than the bound. -/
theorem purgedBelow_tombstone (h : p.Ordered) :
    PurgedBelow maxPurgeable p.tombstone (p.compacted now gcGrace maxPurgeable).tombstone := by
  rw [tombstone_compacted written h]
  split
  · exact ⟨le_rfl, fun _ _ => id⟩
  next drop =>
    refine ⟨Tombstone.timestamp_le written.ge, fun s bound le => ?_⟩
    cases isSet : p.tombstone.isSet with
    | false =>
      have missing : p.tombstone.timestamp = missingTimestamp := by simpa [Tombstone.isSet] using isSet
      exact missing ▸ le
    | true =>
      have purge : (compactForCompaction now gcGrace maxPurgeable).canPurgeTombstone p.tombstone = true := by
        simpa [isSet] using drop
      exact absurd (canPurgeTombstone_lt purge) (not_lt.2 (bound.trans le))

/-- The range tombstones that compaction keeps. -/
theorem deletion_compacted (h : p.Ordered) {t : Tombstone} :
    (p.compacted now gcGrace maxPurgeable).content.deletion x = some t ↔ ∃ rt ∈ p.rowTombstones,
      (compactForCompaction now gcGrace maxPurgeable).canPurgeTombstone rt.tomb = false ∧ p.tombstone < rt.tomb ∧
        rt.Covers x ∧ rt.tomb = t := by
  have sub := h.rowTombstones.sublist (filter_sublist
    (p := CompactMutation.keepsRangeTombstone (compactForCompaction now gcGrace maxPurgeable) p.tombstone))
  have deletion : (p.compacted now gcGrace maxPurgeable).content.deletion x = RangeTombstoneList.tombstoneAt
      (p.rowTombstones.filter (CompactMutation.keepsRangeTombstone (compactForCompaction now gcGrace maxPurgeable) p.tombstone)) x := by
    rw [compacted_eq written h]
    exact (RangeTombstoneList.tombstoneAt_applyAll RangeTombstoneList.wellFormed_nil sub x).trans
      (Tombstone.overlay_none_right _)
  rw [deletion, sub.tombstoneAt_eq_some]
  simp only [mem_filter, CompactMutation.keepsRangeTombstone, Bool.and_eq_true, Bool.not_eq_true', decide_eq_true_eq,
    and_assoc]

/-- The tombstones at a position stay, unless they are older than the bound or covered. -/
theorem purgedBelow_base (h : p.Ordered) (x : Pos) :
    PurgedBelow maxPurgeable (p.content.base x) ((p.compacted now gcGrace maxPurgeable).content.base x) := by
  have whole : PurgedBelow maxPurgeable p.content.tombstone (p.compacted now gcGrace maxPurgeable).content.tombstone :=
    purgedBelow_tombstone written h
  have kept := @deletion_compacted _ _ _ _ _ _ p now gcGrace maxPurgeable x written h
  have least : missingTimestamp ≤ p.content.tombstone.timestamp := Tombstone.timestamp_le written.ge
  unfold Content.base
  refine ⟨?_, fun s bound le => ?_⟩
  · simp only [Tombstone.timestamp_max]
    refine max_le (whole.le.trans (le_max_left _ _)) ?_
    cases found : (p.compacted now gcGrace maxPurgeable).content.deletion x with
    | none => exact least.trans (le_max_left _ _)
    | some t =>
      obtain ⟨rt, mem, -, -, covers, rfl⟩ := kept.1 found
      have before : p.content.deletion x = some rt.tomb := h.rowTombstones.tombstoneAt_eq_some.2 ⟨rt, mem, covers, rfl⟩
      rw [before]
      exact le_max_right _ _
  · simp only [Tombstone.timestamp_max] at le ⊢
    rcases le_max_iff.1 le with le | le
    · exact (whole.keeps s bound le).trans (le_max_left _ _)
    · cases found : p.content.deletion x with
      | none =>
        rw [found] at le
        exact (whole.keeps s bound (le.trans least)).trans (le_max_left _ _)
      | some t =>
        rw [found] at le
        obtain ⟨rt, mem, covers, rfl⟩ := h.rowTombstones.tombstoneAt_eq_some.1 found
        by_cases newer : p.tombstone < rt.tomb
        · have stays : (compactForCompaction now gcGrace maxPurgeable).canPurgeTombstone rt.tomb = false :=
            Bool.eq_false_iff.2 fun purge => absurd (canPurgeTombstone_lt purge) (not_lt.2 (bound.trans le))
          rw [kept.2 ⟨rt, mem, stays, newer, covers, rfl⟩]
          exact le.trans (le_max_right _ _)
        · -- the partition tombstone covers what the range did
          exact (whole.keeps s bound (le.trans (Tombstone.timestamp_le (not_lt.1 newer)))).trans (le_max_left _ _)

end

end Purged

variable {row : Row (ColumnCell Key Id)}

theorem ofType_data {types : ColumnId → CellType} (ok : ∀ c ∈ row.cells, c.2.data.Ok (types c.1))
    (id : ColumnId) : OfType (types id) (row.data id) := by
  intro d hd
  have ok := cellsOk_of_mem ok id d hd
  cases d with
  | atomic c | collection m => exact ok.1.symm
  | counter c => exact Eq.symm ok

theorem occurs_cellAt {id : ColumnId} {k : Option Key} {c : AtomicCell}
    (h : cellAt (row.data id) k = some c) : ∃ e ∈ row.cells, e.2.data.Occurs c.timestamp := by
  obtain ⟨d, hd, hc⟩ := Option.bind_eq_some_iff.1 h
  obtain ⟨e, mem, rfl⟩ : ∃ e ∈ row.cells, e.2.data = d := by
    unfold Row.data Row.findCell at hd
    rw [Option.map_map, Option.map_eq_some_iff] at hd
    obtain ⟨e, found, rfl⟩ := hd
    exact ⟨e, mem_of_find?_eq_some found, rfl⟩
  refine ⟨e, mem, ?_⟩
  generalize e.2.data = d at hc
  cases d with
  | counter c => cases k <;> cases hc
  | atomic c => cases k with
    | none =>
      cases hc
      exact rfl
    | some k => cases hc
  | collection m => cases k with
    | none => cases hc
    | some k => exact .inr ⟨(k, c), CollectionMutation.find_eq_some.1 hc, rfl⟩

section Keeps

variable {now gcGrace maxPurgeable q : Int} {x : Pos}

theorem row_cases (p : ColumnPartition Pos Key Id) (x : Pos) :
    p.content.row x = emptyRow ∨ ∃ e ∈ p.rows, e.position = x ∧ p.content.row x = e.row.content := by
  unfold Content.row
  rw [rows_eq]
  cases found : p.entry x with
  | none => exact .inl rfl
  | some e => exact .inr ⟨e, entry_mem found, by simpa using find?_some found, rfl⟩

theorem Stored.ofType_row (h : p.Stored types) (x : Pos) (id : ColumnId) :
    OfType (types .regular id) ((p.content.row x).cells id) := by
  rcases row_cases p x with none | ⟨e, mem, -, row⟩
  · rw [none]
    rintro d ⟨⟩
  · rw [row]
    exact ofType_data (h.valid.rows e mem).cells id

/-- The rows of other data have nothing below the bound and nothing of the same timestamp. -/
theorem outside_row (hp : p.Stored types) (hr : r.Stored types) (bounded : ∀ s, r.Occurs s → maxPurgeable ≤ s)
    (apart : p.Apart r) (x : Pos) : RowContent.Outside maxPurgeable (p.content.row x) (r.content.row x) where
  shadowable isSet := by
    rcases row_cases r x with none | ⟨f, mem, -, row⟩
    · rw [none] at isSet
      cases isSet
    · rw [row] at isSet ⊢
      exact bounded _ (.row f mem (.shadowable isSet))
  marker present := by
    rcases row_cases r x with none | ⟨f, mem, -, row⟩
    · rw [none] at present
      cases present
    · rw [row] at present ⊢
      exact bounded _ (.row f mem (.marker present))
  cells id k c hc := by
    rcases row_cases r x with none | ⟨f, mem, -, row⟩
    · rw [none] at hc
      cases hc
    · rw [row] at hc
      obtain ⟨e, he, occurs⟩ := occurs_cellAt hc
      exact bounded _ (.row f mem (.cell e he occurs))
  apartMarkers := by
    refine ⟨(hp.settled_row x).least, (hr.settled_row x).least, fun hm hn => ?_⟩
    rcases row_cases p x with none | ⟨e, hep, he, row⟩
    · rw [none] at hm
      cases hm
    · rcases row_cases r x with none' | ⟨f, hfr, hf, row'⟩
      · rw [none'] at hn
        cases hn
      · rw [row] at hm ⊢
        rw [row'] at hn ⊢
        exact apart.markers e hep f hfr (he.trans hf.symm) hm hn
  apartCells id k c hc d hd := by
    rcases row_cases p x with none | ⟨e, hep, he, row⟩
    · rw [none] at hc
      cases hc
    · rcases row_cases r x with none' | ⟨f, hfr, hf, row'⟩
      · rw [none'] at hd
        cases hd
      · rw [row] at hc
        rw [row'] at hd
        exact apart.cells e hep f hfr (he.trans hf.symm) id k c hc d hd

theorem least_tombstone_merge (least : {} ≤ p.tombstone) : {} ≤ (p.merge r).tombstone := by
  change {} ≤ p.tombstone.apply r.tombstone
  rw [Tombstone.apply_eq_max]
  exact least.trans (le_max_left _ _)

theorem liveStatic_compacted (hp : p.Stored types) (hr : r.Stored types) (noCounters : ∀ id, types .static id ≠ .counter)
    (bounded : ∀ s, r.Occurs s → maxPurgeable ≤ s) (apart : p.Apart r) (later : now ≤ q) :
    ((p.compacted now gcGrace maxPurgeable).merge r).liveStatic q = (p.merge r).liveStatic q := by
  have ordered : (p.compacted now gcGrace maxPurgeable).Ordered := hp.valid.ordered.compacted hp.written
  have purged : PurgedBelow maxPurgeable p.tombstone (p.compacted now gcGrace maxPurgeable).tombstone :=
    purgedBelow_tombstone hp.written hp.valid.ordered
  have purges : (compactForCompaction now gcGrace maxPurgeable).expiry.PurgesBelow maxPurgeable := RowContent.purgesBelow rfl
  have column : ∀ id, (p.compacted now gcGrace maxPurgeable).staticRow.data id =
      compactColumn (compactForCompaction now gcGrace maxPurgeable).expiry p.tombstone (p.staticRow.data id) :=
    staticRow_compacted hp.written hp.valid.ordered
  funext id k
  have live := live_compactColumn purges (purged.alike r.tombstone) later hp.written.ge
    (hp.written.ge.trans (le_max_left _ _)) ((least_tombstone_compacted hp.written hp.valid.ordered).trans (le_max_left _ _))
    (noCounters id) (ofType_data hp.valid.staticRow id) (ofType_data hr.valid.staticRow id) k (apart.staticRow id k)
    fun d hd => by
      obtain ⟨e, mem, occurs⟩ := occurs_cellAt hd
      exact bounded _ (.staticCell e mem occurs)
  rw [← column] at live
  rw [liveStatic_eq, liveStatic_eq, content_merge ordered hr.valid.ordered, content_merge hp.valid.ordered hr.valid.ordered]
  exact live

/-- An sstable compaction keeps what is live, whatever other data of the key that is as new as the bound
is merged with what it writes, at any later time. -/
theorem compacted_merge_sameLive (types : ColumnKind → ColumnId → CellType) (noCounters : ∀ kind id, types kind id ≠ .counter)
    (p r : ColumnPartition Pos Key Id) (hp : p.Stored types) (hr : r.Stored types)
    (plain : ∀ e ∈ p.rows, e.row.deletedAt.shadowable = e.row.deletedAt.regular)
    (now gcGrace maxPurgeable q : Int) (later : now ≤ q) (bounded : ∀ s, r.Occurs s → maxPurgeable ≤ s) (apart : p.Apart r)
    (unexpired : ∀ e ∈ p.rows, ∀ f ∈ r.rows, e.position = f.position →
      f.row.deletedAt.shadowable ≠ f.row.deletedAt.regular → ¬(0 < e.row.marker.ttl ∧ e.row.marker.expiry < now)) :
    SameLive q ((p.compacted now gcGrace maxPurgeable).merge r) (p.merge r) := by
  have ordered : (p.compacted now gcGrace maxPurgeable).Ordered := hp.valid.ordered.compacted hp.written
  have leastC : {} ≤ (p.compacted now gcGrace maxPurgeable).tombstone :=
    least_tombstone_compacted hp.written hp.valid.ordered
  have dummiesC : ∀ e ∈ (p.compacted now gcGrace maxPurgeable).rows, e.dummy = false :=
    dummies_compacted hp.written hp.valid.ordered
  refine .of_content (ordered.merge hr.valid.ordered) (hp.valid.ordered.merge hr.valid.ordered)
    (dummies_merge dummiesC hr.dummies) (dummies_merge hp.dummies hr.dummies) (least_tombstone_merge leastC)
    (least_tombstone_merge hp.written.ge) (fun x => ?_)
    (liveStatic_compacted hp hr (noCounters .static) bounded apart later)
  have plainRow : (p.content.row x).deletedAt.shadowable = (p.content.row x).deletedAt.regular := by
    rcases row_cases p x with none | ⟨e, mem, -, row⟩
    · rw [none]
      rfl
    · rw [row]
      exact plain e mem
  have unexpiredRow : (r.content.row x).deletedAt.shadowable ≠ (r.content.row x).deletedAt.regular →
      ¬(p.content.row x).marker.Expired (compactForCompaction now gcGrace maxPurgeable).expiry := by
    intro ne
    rcases row_cases r x with none | ⟨f, hfr, hf, row'⟩
    · rw [none] at ne
      exact absurd rfl ne
    · rw [row'] at ne
      rcases row_cases p x with none | ⟨e, hep, he, row⟩
      · rw [none]
        exact fun expired => absurd expired.1 (lt_irrefl 0)
      · rw [row]
        exact unexpired e hep f hfr (he.trans hf.symm) ne
  have alike : ((p.compacted now gcGrace maxPurgeable).content.row x).Alike ((p.content.row x).compacted
      (compactForCompaction now gcGrace maxPurgeable) (p.content.base x)) := row_compacted hp.valid hp.written hp.dummies x
  have settledC := ((hp.settled_row x).compacted plainRow (compactForCompaction now gcGrace maxPurgeable)
    (p.content.base x)).of_alike alike
  have mergedC := (row_merge ordered hr.valid.ordered settledC (hr.settled_row x)).trans (alike.join (hr.settled_row x).least)
  have merged := row_merge hp.valid.ordered hr.valid.ordered (hp.settled_row x) (hr.settled_row x)
  have core := RowContent.live_join_compacted (v := r.content.base x)
    (rfl : (compactForCompaction now gcGrace maxPurgeable).sstableCompaction = true) later (hp.written.ge.trans (le_max_left _ _)) (leastC.trans (le_max_left _ _))
    (purgedBelow_base hp.written hp.valid.ordered x) plainRow (hr.settled_row x).proper (noCounters .regular)
    (hp.ofType_row x) (hr.ofType_row x) (outside_row hp hr bounded apart x) unexpiredRow
  rw [base_merge ordered hr.valid.ordered leastC, base_merge hp.valid.ordered hr.valid.ordered hp.written.ge, mergedC.live,
    merged.live, mergedC.isLive_iff, merged.isLive_iff]
  exact core

end Keeps

/-- A partition with one row. -/
def ofRow (x : Pos) (row : DeletableRow (ColumnCell Key Id)) : ColumnPartition Pos Key Id :=
  { rows := [{ position := x, row }] }

variable {row : DeletableRow (ColumnCell Key Id)}

theorem stored_ofRow {x : Pos} (h : row.Valid (types .regular)) :
    (ofRow x row).Stored types where
  valid := {
    ordered := ⟨Row.sorted_empty, pairwise_singleton _ _, forall_mem_singleton.2 h.sorted,
      RangeTombstoneList.wellFormed_nil⟩
    tombstone := le_rfl
    staticRow := fun _ hc => absurd hc not_mem_nil
    rows := forall_mem_singleton.2 h
    dummies := forall_mem_singleton.2 fun no => nomatch no }
  written := Tombstone.written_empty
  dummies := forall_mem_singleton.2 rfl


omit [Position Pos] in
theorem occurs_ofRow {x : Pos} {s : Int} (h : (ofRow x row).Occurs s) : row.Occurs s := by
  cases h with
  | tombstone isSet => cases isSet
  | rangeTombstone _ mem => cases mem
  | staticCell _ mem => cases mem
  | row e mem occurs =>
    obtain rfl := mem_singleton.1 mem
    exact occurs

end MutationPartition

namespace DeletableRow

/-- A row with one cell. -/
def ofCell (m : RowMarker) (c : AtomicCell) : DeletableRow (ColumnCell Key Id) :=
  { marker := m, cells := { cells := [(0, { data := .atomic c })] } }

theorem valid_ofCell {m : RowMarker} {c : AtomicCell} (marker : m.Fits) (least : missingTimestamp ≤ m.timestamp) (cell : c.Fits) :
    (ofCell m c : DeletableRow (ColumnCell Key Id)).Valid fun _ => .atomic where
  deletedAt := RowTombstone.proper_empty
  shadowed := RowTombstone.maybeShadow_plain rfl m
  marker := marker
  timestamp := least
  sorted := pairwise_singleton _ _
  cells := forall_mem_singleton.2 ⟨rfl, cell⟩

theorem timestamp_ofCell {m : RowMarker} {c d : AtomicCell} {id : ColumnId} {k : Option Key}
    (h : cellAt ((ofCell m c : DeletableRow (ColumnCell Key Id)).cells.data id) k = some d) : d.timestamp = c.timestamp := by
  obtain ⟨e, mem, occurs⟩ := MutationPartition.occurs_cellAt h
  obtain rfl := mem_singleton.1 mem
  exact Eq.symm occurs

end DeletableRow

namespace MutationPartition

open DeletableRow

/-- An expired cell is purged while a newer one is in other data. -/
theorem compacted_merge_expired_cell :
    let p : ColumnPartition Nat Nat Nat := ofRow 1 (ofCell {} (.expiring 3 [1] 50 10))
    let r : ColumnPartition Nat Nat Nat := ofRow 1 (ofCell {} (.live 7 [2]))
    (p.compacted 100 10 5).rows = [] ∧ SameLive 200 ((p.compacted 100 10 5).merge r) (p.merge r) := by
  intro p r
  have stored : p.Stored fun _ _ => .atomic := stored_ofRow (valid_ofCell RowMarker.fits_empty le_rfl trivial)
  refine ⟨by rw [compacted_eq stored.written stored.valid.ordered]; rfl, ?_⟩
  refine compacted_merge_sameLive (fun _ _ => .atomic) (fun _ _ => nofun) p r stored
    (stored_ofRow (valid_ofCell RowMarker.fits_empty le_rfl trivial)) (forall_mem_singleton.2 rfl) 100 10 5 200
    (by decide) (fun s occurs => ?_) ?_ fun e he f hf _ ne => ?_
  · cases occurs_ofRow occurs with
    | regular isSet => cases isSet
    | shadowable isSet => cases isSet
    | marker present => cases present
    | cell c mem occurs =>
      obtain rfl := mem_singleton.1 mem
      exact Eq.subst (motive := fun s => 5 ≤ s) occurs (by decide)
  · refine ⟨fun _ _ _ hc => (nomatch hc), fun e he f hf _ present => ?_, fun e he f hf _ id k c hc d hd => ?_⟩
    · obtain rfl := mem_singleton.1 he
      cases present
    · obtain rfl := mem_singleton.1 he
      obtain rfl := mem_singleton.1 hf
      rw [timestamp_ofCell hc, timestamp_ofCell hd]
      decide
  · obtain rfl := mem_singleton.1 hf
    exact absurd rfl ne

/-- A shadowable tombstone of other data deletes more after a marker that it is merged with was found to
have expired: merging goes by the marker alone, so that one that expired still shadows the tombstone until
compaction has made it dead. -/
theorem expired_marker_unshadows :
    let p : ColumnPartition Nat Nat Nat := ofRow 1 (ofCell ⟨10, 1, 50⟩ (.live 3 [1]))
    let r : ColumnPartition Nat Nat Nat := ofRow 1 { deletedAt := ⟨{}, ⟨5, 0⟩⟩ }
    (p.Stored fun _ _ => .atomic) ∧ (r.Stored fun _ _ => .atomic) ∧
      (∀ e ∈ p.rows, e.row.deletedAt.shadowable = e.row.deletedAt.regular) ∧ (∀ s, r.Occurs s → 5 ≤ s) ∧ p.Apart r ∧
      (p.merge r).isRowLive 100 1 = true ∧ ((p.compacted 100 10 5).merge r).isRowLive 100 1 = false := by
  intro p r
  have live : (⟨10, 1, 50⟩ : RowMarker).isLive = true := by decide
  have proper : RowTombstone.Proper ⟨{}, ⟨5, 0⟩⟩ := ⟨.inl rfl, .inr (by decide), Tombstone.Written.ge (.inr (by decide))⟩
  have stored : p.Stored fun _ _ => .atomic :=
    stored_ofRow (valid_ofCell (fun dead => absurd (live.symm.trans dead) nofun) (by decide) trivial)
  have dead : ((p.compacted 100 10 5).merge r).isRowLive 100 1 = false := by
    rw [compacted_eq stored.written stored.valid.ordered]
    decide +kernel
  refine ⟨stored, stored_ofRow ⟨proper, rfl, RowMarker.fits_empty, le_rfl, .nil, fun _ h => absurd h not_mem_nil⟩,
    forall_mem_singleton.2 rfl, fun s occurs => ?_, ?_, by decide +kernel, dead⟩
  · cases occurs_ofRow occurs with
    | regular isSet => cases isSet
    | shadowable isSet => exact le_rfl
    | marker present => cases present
    | cell c mem occurs => cases mem
  · refine ⟨fun _ _ _ hc => (nomatch hc), fun e he f hf _ _ present => ?_, fun e he f hf _ id k c hc d hd => ?_⟩
    · obtain rfl := mem_singleton.1 hf
      cases present
    · obtain rfl := mem_singleton.1 hf
      cases hd

end MutationPartition

end ScyllaMoon.Mutation
