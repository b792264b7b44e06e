import ScyllaMoon.Mutation.Content

/-!
# Replicas converge

Replicas receive the writes of a partition in different orders, in different batches and sometimes more
than once. What a partition says is ordered so that a merge is the least upper bound of the two: by
tombstones and ranks, and for a collection so that a cell which the tombstone covers does not count. So
any two ways to merge the same partitions agree, but for cells that reconciliation does not tell apart
and for such covered cells: a collection keeps cells that its own tombstone covers, until it is merged
with another one, or with itself, whose tombstone covers them.
-/

namespace ScyllaMoon.Mutation

open Lib AtomicCell CollectionMutation List

variable {Pos Key Id : Type} [LinearOrder Key] [LinearOrder Id]

theorem RankLe.refl {α ρ : Type} [Ord ρ] [Std.ReflOrd ρ] {rank : α → ρ} (a : α) : RankLe rank a a := by
  simp [RankLe]

namespace CollectionMutation

variable {a b c : CollectionMutation Key} {k : Key} {d : AtomicCell}

/-- The writes of `a` are among those of `b`, or are covered by its tombstone. -/
structure Le (a b : CollectionMutation Key) : Prop where
  tomb : a.tomb ≤ b.tomb
  cells : ∀ k d, a.find k = some d → d.timestamp ≤ b.tomb.timestamp ∨ ∃ e, b.find k = some e ∧ RankLe rank d e

/-- A merge makes no new cells, and those it keeps are not killed by the other tombstone. -/
theorem find_merge_cases (h : (a.merge b).find k = some d) :
    a.find k = some d ∧ b.tomb.timestamp < d.timestamp ∨ b.find k = some d ∧ a.tomb.timestamp < d.timestamp := by
  rw [find_merge] at h
  cases ha : spared b.tomb (a.find k) with
  | none =>
    rw [ha, Option.merge_none_left] at h
    exact .inr (spared_eq_some.1 h)
  | some x => cases hb : spared a.tomb (b.find k) with
    | none =>
      rw [hb, ha, Option.merge_none_right] at h
      exact .inl (Option.some.inj h ▸ spared_eq_some.1 ha)
    | some y =>
      rw [ha, hb] at h
      cases h
      unfold pick
      split
      · exact .inl (spared_eq_some.1 ha)
      · exact .inr (spared_eq_some.1 hb)

theorem find_of_merge (h : (a.merge b).find k = some d) : a.find k = some d ∨ b.find k = some d :=
  (find_merge_cases h).imp And.left And.left

/-- A cell is killed by the tombstone of the other side, or stays or meets a greater one. -/
theorem find_merge_left (ha : a.Fits) (hb : b.Fits) (h : a.find k = some d) :
    d.timestamp ≤ b.tomb.timestamp ∨ ∃ e, (a.merge b).find k = some e ∧ RankLe rank d e := by
  by_cases alive : b.tomb.timestamp < d.timestamp
  · right
    rw [find_merge, h, spared_of_lt alive]
    cases hy : spared a.tomb (b.find k) with
    | none => exact ⟨d, rfl, RankLe.refl d⟩
    | some y => exact ⟨d.pick y, rfl, isJoin_pick.left d y (ha k d h) (hb k y (spared_eq_some.1 hy).1)⟩
  · exact .inl (not_lt.1 alive)

theorem find_merge_right (ha : a.Fits) (hb : b.Fits) (h : b.find k = some d) :
    d.timestamp ≤ a.tomb.timestamp ∨ ∃ e, (a.merge b).find k = some e ∧ RankLe rank d e := by
  by_cases alive : a.tomb.timestamp < d.timestamp
  · right
    rw [find_merge, h, spared_of_lt alive]
    cases hx : spared b.tomb (a.find k) with
    | none => exact ⟨d, rfl, RankLe.refl d⟩
    | some x => exact ⟨x.pick d, rfl, isJoin_pick.right x d (ha k x (spared_eq_some.1 hx).1) (hb k d h)⟩
  · exact .inl (not_lt.1 alive)

theorem isJoin : IsJoin (Fits : CollectionMutation Key → Prop) Le merge where
  refl a := ⟨le_rfl, fun _ d h => .inr ⟨d, h, RankLe.refl d⟩⟩
  trans a b c hab hbc := by
    refine ⟨hab.tomb.trans hbc.tomb, fun k d h => ?_⟩
    rcases hab.cells k d h with covered | ⟨e, he, hde⟩
    · exact .inl (covered.trans (Tombstone.timestamp_le hbc.tomb))
    · rcases hbc.cells k e he with covered | ⟨f, hf, hef⟩
      · exact .inl ((timestamp_le hde).trans covered)
      · exact .inr ⟨f, hf, Std.TransCmp.isLE_trans hde hef⟩
  closed a b ha hb k d h := (find_of_merge h).elim (ha k d) (hb k d)
  left a b ha hb := by
    refine ⟨le_max_left _ _, fun k d h => (find_merge_left ha hb h).imp_left fun covered => ?_⟩
    exact covered.trans (Tombstone.timestamp_le (le_max_right _ _))
  right a b ha hb := by
    refine ⟨le_max_right _ _, fun k d h => (find_merge_right ha hb h).imp_left fun covered => ?_⟩
    exact covered.trans (Tombstone.timestamp_le (le_max_left _ _))
  least a b c _ _ hac hbc := ⟨max_le hac.tomb hbc.tomb, fun k d h =>
    (find_of_merge h).elim (hac.cells k d) (hbc.cells k d)⟩

/-- The cell of a key, if the collection's own tombstone does not cover it. -/
def uncovered (a : CollectionMutation Key) (k : Key) : Option AtomicCell :=
  spared a.tomb (a.find k)

/-- With the tombstones equal, an uncovered cell is not above the one of the other side. -/
theorem Le.uncovered (h : a.Le b) (tomb : a.tomb = b.tomb) (hd : a.uncovered k = some d) :
    ∃ e, b.uncovered k = some e ∧ RankLe rank d e := by
  obtain ⟨found, alive⟩ := spared_eq_some.1 hd
  rw [tomb] at alive
  rcases h.cells k d found with covered | ⟨e, he, hde⟩
  · exact absurd alive (not_lt.2 covered)
  · exact ⟨e, spared_eq_some.2 ⟨he, alive.trans_le (timestamp_le hde)⟩, hde⟩

/-- Collections that are below each other have one tombstone and, above it, cells with one rank. -/
theorem Le.antisymm (hab : a.Le b) (hba : b.Le a) : a.tomb = b.tomb ∧
    ∀ k, Option.Rel (fun c d => RankLe rank c d ∧ RankLe rank d c) (a.uncovered k) (b.uncovered k) := by
  have tomb := le_antisymm hab.tomb hba.tomb
  refine ⟨tomb, fun k => ?_⟩
  cases ha : a.uncovered k with
  | none => cases hb : b.uncovered k with
    | none => exact .none
    | some e =>
      obtain ⟨d, hd, -⟩ := hba.uncovered tomb.symm hb
      rw [ha] at hd
      cases hd
  | some d =>
    obtain ⟨e, he, hde⟩ := hab.uncovered tomb ha
    obtain ⟨d', hd', hed⟩ := hba.uncovered tomb.symm he
    rw [ha] at hd'
    cases hd'
    rw [he]
    exact .some ⟨hde, hed⟩

end CollectionMutation

namespace CellData

def Le : CellData Key Id → CellData Key Id → Prop
  | atomic a, atomic b => RankLe rank a b
  | counter a, counter b => a = b
  | collection a, collection b => a.Le b
  | _, _ => False

theorem Le.refl (a : CellData Key Id) : a.Le a := by
  cases a with
  | atomic a => exact RankLe.refl a
  | counter a => exact Eq.refl a
  | collection a => exact isJoin.refl a

theorem Le.trans {a b c : CellData Key Id} (hab : a.Le b) (hbc : b.Le c) : a.Le c := by
  cases a <;> cases b <;> first | exact hab.elim | skip
  all_goals cases c <;> first | exact hbc.elim | skip
  · exact Std.TransCmp.isLE_trans hab hbc
  · exact Eq.trans hab hbc
  · exact isJoin.trans _ _ _ hab hbc

variable {t : CellType} {a b : CellData Key Id}

theorem Ok.cases (ht : t ≠ .counter) (ha : a.Ok t) (hb : b.Ok t) :
    (∃ x y, a = atomic x ∧ b = atomic y ∧ x.Fits ∧ y.Fits ∧ t = .atomic) ∨
      ∃ x y, a = collection x ∧ b = collection y ∧ x.Fits ∧ y.Fits ∧ t = .collection := by
  cases a with
  | atomic x => cases b with
    | atomic y => exact .inl ⟨x, y, rfl, rfl, ha.2, hb.2, ha.1⟩
    | counter y => exact absurd hb ht
    | collection y => exact absurd (ha.1.symm.trans hb.1) (by decide)
  | counter x => exact absurd ha ht
  | collection x => cases b with
    | atomic y => exact absurd (ha.1.symm.trans hb.1) (by decide)
    | counter y => exact absurd hb ht
    | collection y => exact .inr ⟨x, y, rfl, rfl, ha.2, hb.2, ha.1⟩

theorem isJoin (ht : t ≠ .counter) : IsJoin (Ok t : CellData Key Id → Prop) Le merge where
  refl := Le.refl
  trans _ _ _ := Le.trans
  closed a b ha hb := by
    rcases Ok.cases ht ha hb with ⟨x, y, rfl, rfl, hx, hy, rfl⟩ | ⟨x, y, rfl, rfl, hx, hy, rfl⟩
    · exact ⟨rfl, AtomicCell.isJoin.closed x y hx hy⟩
    · exact ⟨rfl, CollectionMutation.isJoin.closed x y hx hy⟩
  left a b ha hb := by
    rcases Ok.cases ht ha hb with ⟨x, y, rfl, rfl, hx, hy, -⟩ | ⟨x, y, rfl, rfl, hx, hy, -⟩
    · exact AtomicCell.isJoin.left x y hx hy
    · exact CollectionMutation.isJoin.left x y hx hy
  right a b ha hb := by
    rcases Ok.cases ht ha hb with ⟨x, y, rfl, rfl, hx, hy, -⟩ | ⟨x, y, rfl, rfl, hx, hy, -⟩
    · exact AtomicCell.isJoin.right x y hx hy
    · exact CollectionMutation.isJoin.right x y hx hy
  least a b c ha hb hac hbc := by
    rcases Ok.cases ht ha hb with ⟨x, y, rfl, rfl, hx, hy, -⟩ | ⟨x, y, rfl, rfl, hx, hy, -⟩
    · cases c with
      | atomic z => exact AtomicCell.isJoin.least x y z hx hy hac hbc
      | counter z | collection z => exact hac.elim
    · cases c with
      | atomic z | counter z => exact hac.elim
      | collection z => exact CollectionMutation.isJoin.least x y z hx hy hac hbc

/-- The cells are the same but for what reconciliation does not tell apart and, in a collection, for
cells that its tombstone covers. -/
def Agree : CellData Key Id → CellData Key Id → Prop
  | atomic a, atomic b => a.compareForMerge b = .eq
  | counter a, counter b => a = b
  | collection a, collection b => a.tomb = b.tomb ∧
      ∀ k, Option.Rel (fun c d => c.compareForMerge d = .eq) (a.uncovered k) (b.uncovered k)
  | _, _ => False

theorem compareForMerge_of_le {a b : AtomicCell} (ha : a.Fits) (hb : b.Fits)
    (hab : RankLe rank a b) (hba : RankLe rank b a) : a.compareForMerge b = .eq :=
  (compareForMerge_eq ha hb).trans (hab.compare_eq hba)

theorem Le.agree (ha : a.Ok t) (hb : b.Ok t) (hab : a.Le b) (hba : b.Le a) :
    a.Agree b := by
  cases a with
  | atomic a => cases b with
    | atomic b => exact compareForMerge_of_le ha.2 hb.2 hab hba
    | counter b | collection b => exact hab.elim
  | counter a => cases b with
    | atomic b | collection b => exact hab.elim
    | counter b => exact hab
  | collection a => cases b with
    | atomic b | counter b => exact hab.elim
    | collection b =>
      obtain ⟨tomb, cells⟩ := CollectionMutation.Le.antisymm hab hba
      refine ⟨tomb, fun k => ?_⟩
      have okA : OptionOk AtomicCell.Fits (a.uncovered k) := fun c hc =>
        ha.2 k c (spared_eq_some.1 hc).1
      have okB : OptionOk AtomicCell.Fits (b.uncovered k) := fun c hc =>
        hb.2 k c (spared_eq_some.1 hc).1
      have both := cells k
      generalize a.uncovered k = x at *
      generalize b.uncovered k = y at *
      cases both with
      | none => exact .none
      | some h => exact .some (compareForMerge_of_le (okA _ rfl) (okB _ rfl) h.1 h.2)

end CellData

/-- Cells of a row whose columns have the given types. -/
def CellsOk (types : ColumnId → CellType) (cells : ColumnId → Option (CellData Key Id)) : Prop :=
  ∀ id, OptionOk (CellData.Ok (types id)) (cells id)

def CellsLe (r s : ColumnId → Option (CellData Key Id)) : Prop := ∀ id, OptionLe CellData.Le (r id) (s id)

def CellsAgree (r s : ColumnId → Option (CellData Key Id)) : Prop := ∀ id, Option.Rel CellData.Agree (r id) (s id)

section Cells

variable {types : ColumnId → CellType} {r s : ColumnId → Option (CellData Key Id)}

theorem isJoin_joinCells (noCounters : ∀ id, types id ≠ .counter) :
    IsJoin (CellsOk types : (ColumnId → Option (CellData Key Id)) → Prop) CellsLe joinCells :=
  .pi fun id => (CellData.isJoin (noCounters id)).option

theorem CellsLe.agree (hr : CellsOk types r) (hs : CellsOk types s) (hrs : CellsLe r s) (hsr : CellsLe s r) :
    CellsAgree r s :=
  fun id => (hrs id).rel (hsr id) fun c hc d hd => CellData.Le.agree (hr id c hc) (hs id d hd)

end Cells

/-- Without shadowable tombstones, two row tombstones become the greater of the two. -/
theorem RowTombstone.apply_plain {t u : RowTombstone} (ht : t.shadowable = t.regular) (hu : u.shadowable = u.regular)
    (m : RowMarker) : t.apply u m = ⟨max t.regular u.regular, max t.regular u.regular⟩ := by
  unfold RowTombstone.apply
  rw [ht, hu, Tombstone.apply_eq_max]
  unfold RowTombstone.maybeShadow
  split <;> rfl

namespace RowContent

/-- A row of the column types, without a shadowable tombstone. -/
structure Ok (types : ColumnId → CellType) (r : RowContent Key Id) : Prop where
  regular : r.deletedAt.shadowable = r.deletedAt.regular
  marker : r.marker.Fits
  cells : CellsOk types r.cells

structure Le (r s : RowContent Key Id) : Prop where
  regular : r.deletedAt.regular ≤ s.deletedAt.regular
  marker : RankLe RowMarker.rank r.marker s.marker
  cells : CellsLe r.cells s.cells

structure Agree (r s : RowContent Key Id) : Prop where
  deletedAt : r.deletedAt = s.deletedAt
  marker : r.marker.compareForMerge s.marker = .eq
  cells : CellsAgree r.cells s.cells

variable {types : ColumnId → CellType} {r s : RowContent Key Id}

theorem isJoin (noCounters : ∀ id, types id ≠ .counter) : IsJoin (Ok types : RowContent Key Id → Prop) Le join where
  refl r := ⟨le_rfl, RowMarker.isJoin.refl _, (isJoin_joinCells noCounters).refl _⟩
  trans r s q hrs hsq := ⟨hrs.regular.trans hsq.regular, RowMarker.isJoin.trans _ _ _ hrs.marker hsq.marker,
    (isJoin_joinCells noCounters).trans _ _ _ hrs.cells hsq.cells⟩
  closed r s hr hs := by
    refine ⟨?_, RowMarker.isJoin.closed _ _ hr.marker hs.marker, (isJoin_joinCells noCounters).closed _ _ hr.cells hs.cells⟩
    unfold join
    rw [RowTombstone.apply_plain hs.regular hr.regular]
  left r s hr hs := by
    refine ⟨?_, RowMarker.isJoin.left _ _ hr.marker hs.marker, (isJoin_joinCells noCounters).left _ _ hr.cells hs.cells⟩
    unfold join
    rw [RowTombstone.apply_plain hs.regular hr.regular]
    exact le_max_right _ _
  right r s hr hs := by
    refine ⟨?_, RowMarker.isJoin.right _ _ hr.marker hs.marker, (isJoin_joinCells noCounters).right _ _ hr.cells hs.cells⟩
    unfold join
    rw [RowTombstone.apply_plain hs.regular hr.regular]
    exact le_max_left _ _
  least r s q hr hs hrq hsq := by
    refine ⟨?_, RowMarker.isJoin.least _ _ _ hr.marker hs.marker hrq.marker hsq.marker,
      (isJoin_joinCells noCounters).least _ _ _ hr.cells hs.cells hrq.cells hsq.cells⟩
    unfold join
    rw [RowTombstone.apply_plain hs.regular hr.regular]
    exact max_le hsq.regular hrq.regular

theorem Le.agree (hr : r.Ok types) (hs : s.Ok types) (hrs : r.Le s) (hsr : s.Le r) : r.Agree s where
  deletedAt := by
    have regular := le_antisymm hrs.regular hsr.regular
    have shadowable : r.deletedAt.shadowable = s.deletedAt.shadowable := by rw [hr.regular, hs.regular, regular]
    cases hd : r.deletedAt
    simp_all
  marker := (RowMarker.compareForMerge_eq hr.marker hs.marker).trans (hrs.marker.compare_eq hsr.marker)
  cells := CellsLe.agree hr.cells hs.cells hrs.cells hsr.cells

end RowContent

namespace Content

/-- The content of a partition of a schema whose columns have the given types. -/
structure Ok (types : ColumnKind → ColumnId → CellType) (c : Content Pos Key Id) : Prop where
  tombstone : {} ≤ c.tombstone
  staticRow : CellsOk (types .static) c.staticRow
  rows : ∀ x, OptionOk (RowContent.Ok (types .regular)) (c.rows x)

structure Le (c d : Content Pos Key Id) : Prop where
  tombstone : c.tombstone ≤ d.tombstone
  deletion : ∀ x, OptionLe (· ≤ ·) (c.deletion x) (d.deletion x)
  staticRow : CellsLe c.staticRow d.staticRow
  rows : ∀ x, OptionLe RowContent.Le (c.rows x) (d.rows x)

/-- The same partition tombstone, the same deletion of every position, the same rows, and in them cells
and markers that reconciliation does not tell apart. -/
structure Agree (c d : Content Pos Key Id) : Prop where
  tombstone : c.tombstone = d.tombstone
  deletion : ∀ x, c.deletion x = d.deletion x
  staticRow : CellsAgree c.staticRow d.staticRow
  rows : ∀ x, Option.Rel RowContent.Agree (c.rows x) (d.rows x)

variable {types : ColumnKind → ColumnId → CellType} {c d : Content Pos Key Id}

theorem isJoin (noCounters : ∀ kind id, types kind id ≠ .counter) :
    IsJoin (Ok types : Content Pos Key Id → Prop) Le join :=
  have deletion := Tombstone.isJoin.option
  have staticRow : IsJoin (CellsOk (types .static)) _ _ :=
    isJoin_joinCells (noCounters .static)
  have row : IsJoin (RowContent.Ok (types .regular)) _ _ := RowContent.isJoin (noCounters .regular)
  have rows := row.option
  { refl := fun _ => ⟨le_rfl, fun _ => deletion.refl _, staticRow.refl _, fun _ => rows.refl _⟩
    trans := fun _ _ _ h h' => ⟨h.tombstone.trans h'.tombstone, fun x => deletion.trans _ _ _ (h.deletion x) (h'.deletion x),
      staticRow.trans _ _ _ h.staticRow h'.staticRow, fun x => rows.trans _ _ _ (h.rows x) (h'.rows x)⟩
    closed := fun _ _ h h' => ⟨h.tombstone.trans (le_max_left _ _), staticRow.closed _ _ h.staticRow h'.staticRow,
      fun x => rows.closed _ _ (h.rows x) (h'.rows x)⟩
    left := fun _ _ h h' => ⟨le_max_left _ _, fun _ => deletion.left _ _ (fun _ _ => trivial) (fun _ _ => trivial),
      staticRow.left _ _ h.staticRow h'.staticRow, fun x => rows.left _ _ (h.rows x) (h'.rows x)⟩
    right := fun _ _ h h' => ⟨le_max_right _ _, fun _ => deletion.right _ _ (fun _ _ => trivial) (fun _ _ => trivial),
      staticRow.right _ _ h.staticRow h'.staticRow, fun x => rows.right _ _ (h.rows x) (h'.rows x)⟩
    least := fun _ _ _ h h' hc hd => ⟨max_le hc.tombstone hd.tombstone,
      fun x => deletion.least _ _ _ (fun _ _ => trivial) (fun _ _ => trivial) (hc.deletion x) (hd.deletion x),
      staticRow.least _ _ _ h.staticRow h'.staticRow hc.staticRow hd.staticRow,
      fun x => rows.least _ _ _ (h.rows x) (h'.rows x) (hc.rows x) (hd.rows x)⟩ }

theorem Le.agree (hc : c.Ok types) (hd : d.Ok types) (hcd : c.Le d) (hdc : d.Le c) : c.Agree d where
  tombstone := le_antisymm hcd.tombstone hdc.tombstone
  deletion x := by
    have same : Option.Rel (· = ·) (c.deletion x) (d.deletion x) :=
      (hcd.deletion x).rel (hdc.deletion x) fun _ _ _ _ => le_antisymm
    generalize c.deletion x = o at same
    generalize d.deletion x = o' at same
    cases same with
    | none => rfl
    | some h => rw [h]
  staticRow := CellsLe.agree hc.staticRow hd.staticRow hcd.staticRow hdc.staticRow
  rows x := (hcd.rows x).rel (hdc.rows x) fun r hr s hs => RowContent.Le.agree (hc.rows x r hr) (hd.rows x s hs)

end Content

/-- A collection with one live cell. -/
def CollectionMutation.single (tomb : Tombstone) (written : tomb.Written) (k : Key) (timestamp : Int) (value : List UInt8) :
    CollectionMutation Key :=
  { tomb, cells := [(k, .live timestamp value)], written, sorted := pairwise_singleton .. }

theorem CollectionMutation.fits_single {tomb : Tombstone} (written : tomb.Written) (k : Key) (timestamp : Int)
    (value : List UInt8) : (single tomb written k timestamp value).Fits := by
  intro j d h
  have cell := mem_singleton.1 (find_eq_some.1 h)
  rw [(Prod.mk.inj cell).2]
  trivial

/-- The cell of a key in a collection of a row. -/
def Content.collectionCell (c : Content Pos Key Id) (x : Pos) (id : ColumnId) (k : Key) : Option AtomicCell :=
  match (c.rows x).bind fun r => r.cells id with
  | some (.collection m) => m.find k
  | _ => none

namespace MutationPartition

variable [Position Pos] {types : ColumnKind → ColumnId → CellType} {p : ColumnPartition Pos Key Id}

/-- A partition of a schema whose columns have the given types, without shadowable row tombstones. -/
structure Lawful (types : ColumnKind → ColumnId → CellType) (p : ColumnPartition Pos Key Id) : Prop where
  ordered : p.Ordered
  tombstone : {} ≤ p.tombstone
  staticRow : ∀ c ∈ p.staticRow.cells, c.2.data.Ok (types .static c.1)
  regular : ∀ e ∈ p.rows, e.row.deletedAt.shadowable = e.row.deletedAt.regular
  markers : ∀ e ∈ p.rows, e.row.marker.Fits
  cells : ∀ e ∈ p.rows, ∀ c ∈ e.row.cells.cells, c.2.data.Ok (types .regular c.1)

theorem cellsOk_of_mem {types : ColumnId → CellType} {r : Row (ColumnCell Key Id)}
    (h : ∀ c ∈ r.cells, c.2.data.Ok (types c.1)) : CellsOk types r.data := by
  intro id d hd
  obtain ⟨cell, hcell, rfl⟩ := Option.map_eq_some_iff.1 hd
  obtain ⟨c, hc, rfl⟩ := Option.map_eq_some_iff.1 hcell
  have key : c.1 = id := by simpa using find?_some hc
  exact key ▸ h c (mem_of_find?_eq_some hc)

theorem Lawful.content (h : p.Lawful types) : p.content.Ok types where
  tombstone := h.tombstone
  staticRow := cellsOk_of_mem h.staticRow
  rows x r hr := by
    obtain ⟨e, he, rfl⟩ := Option.map_eq_some_iff.1 hr
    have mem := mem_of_find?_eq_some he
    exact ⟨h.regular e mem, h.markers e mem, cellsOk_of_mem (h.cells e mem)⟩

theorem isJoin (noCounters : ∀ kind id, types kind id ≠ .counter) :
    IsJoin (fun p : ColumnPartition Pos Key Id => p.Ordered ∧ p.content.Ok types)
      (fun p q => p.content.Le q.content) (fun p q => p.merge q) :=
  (Content.isJoin noCounters).comap content
    (fun _ _ hp hq => ⟨hp.1.merge hq.1, content_merge hp.1 hq.1 ▸ (Content.isJoin noCounters).closed _ _ hp.2 hq.2⟩)
    (fun _ hp => hp.2) fun _ _ hp hq => (content_merge hp.1 hq.1)

theorem content_empty_le {c : Content Pos Key Id} (h : c.Ok types) :
    ({} : ColumnPartition Pos Key Id).content.Le c :=
  ⟨h.tombstone, fun _ => trivial, fun _ => trivial, fun _ => trivial⟩

theorem content_empty_ok : ({} : ColumnPartition Pos Key Id).content.Ok types :=
  ⟨le_rfl, fun _ _ h => (nomatch h), fun _ _ h => (nomatch h)⟩

/-- Merging the same partitions into an empty one, in any order and grouping and however often each of
them, gives partitions that agree. -/
theorem merge_converges (types : ColumnKind → ColumnId → CellType) (noCounters : ∀ kind id, types kind id ≠ .counter)
    {t u : MergeTree (ColumnPartition Pos Key Id)} (lawful : ∀ p ∈ t.leaves, p.Lawful types)
    (same : ∀ p, p ∈ t.leaves ↔ p ∈ u.leaves) :
    (t.eval {} fun p q => p.merge q).content.Agree (u.eval {} fun p q => p.merge q).content := by
  have join : IsJoin (fun p : ColumnPartition Pos Key Id => p.Ordered ∧ p.content.Ok types) _ _ := isJoin noCounters
  have bottom : ({} : ColumnPartition Pos Key Id).Ordered ∧
      ({} : ColumnPartition Pos Key Id).content.Ok types := ⟨ordered_empty, content_empty_ok⟩
  have okT : ∀ p ∈ t.leaves, p.Ordered ∧ p.content.Ok types := fun p hp => ⟨(lawful p hp).ordered, (lawful p hp).content⟩
  have okU : ∀ p ∈ u.leaves, p.Ordered ∧ p.content.Ok types := fun p hp => okT p ((same p).2 hp)
  refine Content.Le.agree (MergeTree.ok_eval join bottom okT).2 (MergeTree.ok_eval join bottom okU).2 ?_ ?_
  · exact MergeTree.eval_le_eval join bottom (fun p hp => content_empty_le hp.2) okU fun p hp => (same p).1 hp
  · exact MergeTree.eval_le_eval join bottom (fun p hp => content_empty_le hp.2) okT fun p hp => (same p).2 hp

/-- A partition with one row that has one collection. -/
def ofCollection (x : Pos) (m : CollectionMutation Key) : ColumnPartition Pos Key Id :=
  { rows := [{ position := x, row := { cells := { cells := [(0, { data := .collection m })] } } }] }

theorem lawful_ofCollection {x : Pos} {m : CollectionMutation Key} (column : types .regular 0 = .collection) (h : m.Fits) :
    (ofCollection x m : ColumnPartition Pos Key Id).Lawful types where
  ordered := ⟨.nil, pairwise_singleton .., by simp [ofCollection, Row.Sorted, Sorted], RangeTombstoneList.wellFormed_nil⟩
  tombstone := le_rfl
  staticRow := by simp [ofCollection]
  regular := by simp [ofCollection]
  markers := by
    have marker : ({} : RowMarker).Fits := fun _ => ⟨by decide, by decide⟩
    simpa [ofCollection] using marker
  cells := by
    have cell : (CellData.collection m : CellData Key Id).Ok (types .regular 0) := ⟨column, h⟩
    simpa [ofCollection] using cell

/-- Two writes, merged in one order, and in the other with one of them twice. -/
theorem merge_converges_out_of_order :
    let p : ColumnPartition Nat Nat Nat := ofCollection 1 (.single ⟨2, 2⟩ (.inr (by decide)) 1 4 [7])
    let q : ColumnPartition Nat Nat Nat := ofCollection 1 (.single {} Tombstone.written_empty 1 5 [8])
    let t : MergeTree (ColumnPartition Nat Nat Nat) := .node (.node .empty (.leaf p)) (.leaf q)
    let u : MergeTree (ColumnPartition Nat Nat Nat) :=
      .node (.node (.node .empty (.leaf q)) (.leaf p)) (.leaf q)
    (t.eval {} fun p q => p.merge q).content.Agree (u.eval {} fun p q => p.merge q).content := by
  intro p q t u
  refine merge_converges (fun _ _ => .collection) (fun _ _ => by decide) ?_ fun r => ?_
  · have hp : p.Lawful fun _ _ => .collection := lawful_ofCollection rfl (fits_single _ _ _ _)
    have hq : q.Lawful fun _ _ => .collection := lawful_ofCollection rfl (fits_single _ _ _ _)
    simpa [t, MergeTree.leaves] using ⟨hp, hq⟩
  · simp only [t, u, MergeTree.leaves, nil_append, cons_append, mem_cons,
      not_mem_nil, or_false]
    tauto

/-- A collection keeps a cell that its own tombstone covers, but loses it when it is merged once more. -/
theorem covered_cell_lost_by_duplicate :
    let p : ColumnPartition Nat Nat Nat := ofCollection 1 (.single ⟨5, 5⟩ (.inr (by decide)) 1 3 [7])
    (p.Lawful fun _ _ => .collection) ∧
      (({} : ColumnPartition Nat Nat Nat).merge p).content.collectionCell 1 0 1 = some (.live 3 [7]) ∧
      ((({} : ColumnPartition Nat Nat Nat).merge p).merge p).content.collectionCell 1 0 1 = none :=
  ⟨lawful_ofCollection rfl (fits_single _ _ _ _), rfl, rfl⟩

end MutationPartition

end ScyllaMoon.Mutation
