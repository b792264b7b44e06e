import ScyllaMoon.Mutation.Live

/-!
# Counter updates

A client adds a delta to a counter. `transform_counter_updates_to_shards` turns the update into a shard of the
node that leads it: the node's shard as it is, if there is one, plus the delta and with a higher logical clock.
It walks over the cells of the update and over the shards of the current state at once, in the order of the
columns, and likewise over the rows of the two.
-/

namespace ScyllaMoon.Mutation

open Lib List

variable {Pos Key Id C : Type} [LinearOrder Key] [LinearOrder Id]

/-- The value that is left of a number in an `int64_t` that wraps around. -/
def wrap64 (n : Int) : Int := n.bmod 18446744073709551616

theorem wrap64_of_lt {n : Int} (nonneg : 0 ≤ n) (lt : n < 9223372036854775808) : wrap64 n = n :=
  Int.bmod_eq_of_le (by omega) (by omega)

/-- Wrapping around on the way does not show in a sum. -/
theorem wrap64_add_congr {a b c d : Int} (h : wrap64 a = wrap64 b) (h' : wrap64 c = wrap64 d) :
    wrap64 (a + c) = wrap64 (b + d) := by
  unfold wrap64 at *
  rw [Int.add_bmod, h, h', ← Int.add_bmod]

@[simp] theorem wrap64_wrap64 (n : Int) : wrap64 (wrap64 n) = wrap64 n := Int.bmod_bmod

/-- The cell of a counter column in an update. -/
inductive CounterUpdate where
  /-- `make_live_counter_update` -/
  | live (timestamp delta : Int)
  | dead (timestamp deletionTime : Int)
  deriving DecidableEq, Repr

/-- `counter_shard::update` -/
def CounterShard.update (s : CounterShard Id) (valueDelta clockIncrement : Int) : CounterShard Id :=
  { s with value := wrap64 (s.value + valueDelta), logicalClock := wrap64 (s.logicalClock + clockIncrement) }

namespace CounterCell

/-- `counter_cell_builder::from_single_shard` -/
def fromSingleShard (timestamp : Int) (s : CounterShard Id) : CounterCell Id :=
  live timestamp [s] (pairwise_singleton _ _)

/-- `get_shard`, of a cell that may be dead -/
def getShard : CounterCell Id → Id → Option (CounterShard Id)
  | live _ shards _, id => shards.find? fun s => decide (s.id = id)
  | dead .., _ => none

/-- `total_value`, of a live cell -/
def totalValue : CounterCell Id → Int
  | live _ shards _ => shards.foldl (fun v s => wrap64 (v + s.value)) 0
  | dead .. => 0

theorem totalValue_live (t : Int) {shards : List (CounterShard Id)} (h : Sorted CounterShard.id shards) :
    (live t shards h).totalValue = wrap64 (shards.map CounterShard.value).sum := by
  have step : ∀ (l : List (CounterShard Id)) v, wrap64 (l.foldl (fun v s => wrap64 (v + s.value)) v) =
      wrap64 (v + (l.map CounterShard.value).sum) := fun l => by
    induction l with
    | nil => simp
    | cons s l ih =>
      intro v
      rw [foldl_cons, ih, map_cons, sum_cons, ← Int.add_assoc]
      exact wrap64_add_congr (wrap64_wrap64 _) rfl
  have wrapped : wrap64 (live t shards h).totalValue = (live t shards h).totalValue := by
    refine foldlRecOn (motive := fun v => wrap64 v = v) shards _ rfl fun v _ s _ => wrap64_wrap64 _
  rw [← wrapped]
  exact (step shards 0).trans (by rw [Int.zero_add])

theorem getShard_id {c : CounterCell Id} {id : Id} {s : CounterShard Id} (h : c.getShard id = some s) : s.id = id := by
  cases c with
  | live t shards sorted =>
    have found := find?_some h
    exact of_decide_eq_true found
  | dead => cases h

variable {c d : CounterCell Id}

/-- A shard of a merged counter is the newer of the two. -/
theorem getShard_merge (hc : c.isLive) (hd : d.isLive) (id : Id) :
    (c.merge d).getShard id = Option.merge CounterShard.newer (c.getShard id) (d.getShard id) := by
  cases c with
  | dead => cases hc
  | live t s hs => cases d with
    | dead => cases hd
    | live t' s' hs' =>
      simp only [merge, getShard, CounterShard.apply_eq]
      exact find?_combine hs hs' (fun _ _ => CounterShard.newer_id) id

theorem isLive_merge (hc : c.isLive) (hd : d.isLive) : (c.merge d).isLive := by
  cases c with
  | dead => cases hc
  | live => cases d with
    | dead => cases hd
    | live => rfl

end CounterCell

/-- The shard that the data of a column has of a node. -/
def CellData.getShard : CellData Key Id → Id → Option (CounterShard Id)
  | counter c, id => c.getShard id
  | _, _ => none

section Transform

variable (localId : Id) (clockOffset : UInt64)

/-- `clock_offset + 1`, as the `int64_t` that a shard takes -/
def clockIncrement : Int := wrap64 (clockOffset.toNat + 1)

/-- What becomes of a cell, given the shard that the current state has of this node. -/
def transformCell : CounterUpdate → Option (CounterShard Id) → CounterCell Id
  | .dead t d, _ => .dead t d
  | .live t delta, none => .fromSingleShard t ⟨localId, delta, clockIncrement clockOffset⟩
  | .live t delta, some cs => .fromSingleShard t (cs.update delta (clockIncrement clockOffset))

/-- `transform_new_row_to_shards` -/
def transformNewRowToShards (cells : Row CounterUpdate) : Row (ColumnCell Key Id) where
  storage := cells.storage
  cells := cells.cells.map fun c => (c.1, { data := .counter (transformCell localId clockOffset c.2 none) })

/-- The shards of this node in a row of the current state, by column. -/
def localShards (state : Row (ColumnCell Key Id)) : List (ColumnId × CounterShard Id) :=
  state.cells.filterMap fun c => (c.2.data.getShard localId).map fun s => (c.1, s)

/-- The loop over the cells of an update; `shards` are those that the loop has not passed. -/
def transformCells : List (ColumnId × CounterUpdate) → (shards : List (ColumnId × CounterShard Id)) →
    List (ColumnId × CounterCell Id)
  | [], _ => []
  | (id, .dead t d) :: cells, shards => (id, .dead t d) :: transformCells cells shards
  | (id, .live t delta) :: cells, shards =>
    match shards.dropWhile fun s => decide (s.1 < id) with
    | [] => (id, transformCell localId clockOffset (.live t delta) none) :: transformCells cells []
    | s :: rest =>
      if s.1 > id then (id, transformCell localId clockOffset (.live t delta) none) :: transformCells cells (s :: rest)
      else (id, transformCell localId clockOffset (.live t delta) (some s.2)) :: transformCells cells rest

/-- `transform_row_to_shards` -/
def transformRowToShards (transformee : Row CounterUpdate) (state : Row (ColumnCell Key Id)) : Row (ColumnCell Key Id) where
  storage := transformee.storage
  cells := (transformCells localId clockOffset transformee.cells (localShards localId state)).map fun c =>
    (c.1, { data := .counter c.2 })

/-- What becomes of a row, given the one that the current state has at its position. -/
def transformEntry (cr : RowsEntry Pos CounterUpdate) (it : Option (ColumnEntry Pos Key Id)) :
    ColumnEntry Pos Key Id where
  position := cr.position
  row := {
    deletedAt := cr.row.deletedAt
    marker := cr.row.marker
    cells := match it with
      | none => transformNewRowToShards localId clockOffset cr.row.cells
      | some e => transformRowToShards localId clockOffset cr.row.cells e.row.cells }
  continuous := cr.continuous
  dummy := cr.dummy

/-- `transform_counter_updates_to_shards` -/
def transformCounterUpdatesToShards [LinearOrder Pos] (m : MutationPartition Pos CounterUpdate)
    (currentState : Option (ColumnPartition Pos Key Id)) : ColumnPartition Pos Key Id where
  tombstone := m.tombstone
  rowTombstones := m.rowTombstones
  staticRowContinuous := m.staticRowContinuous
  staticRow := match currentState with
    | none => transformNewRowToShards localId clockOffset m.staticRow
    | some state => transformRowToShards localId clockOffset m.staticRow state.staticRow
  rows := match currentState with
    | none => m.rows.map fun cr => transformEntry localId clockOffset cr none
    | some state => alongside RowsEntry.position RowsEntry.position
        (fun cr it => some (transformEntry localId clockOffset cr it)) m.rows state.rows

variable {localId clockOffset}

/-- Each cell is transformed with the shard of its column. -/
theorem transformCells_eq {cells : List (ColumnId × CounterUpdate)} {shards : List (ColumnId × CounterShard Id)}
    (hc : Sorted Prod.fst cells) (hs : Sorted Prod.fst shards) : transformCells localId clockOffset cells shards =
      cells.map fun c => (c.1, transformCell localId clockOffset c.2
        ((shards.find? fun s => decide (s.1 = c.1)).map Prod.snd)) := by
  induction cells generalizing shards with
  | nil => rfl
  | cons c cells ih =>
    obtain ⟨id, u⟩ := c
    obtain ⟨first, tail⟩ := pairwise_cons.1 hc
    cases u with
    | dead t d =>
      rw [transformCells, ih tail hs]
      rfl
    | live t delta =>
      have found := hs.head?_dropWhile id
      have left := hs.sublist (dropWhile_sublist fun s => decide (s.1 < id))
      -- the shards that are passed are not those of later columns
      have later : ∀ {rest : List (ColumnId × CounterShard Id)}, (∀ c ∈ cells, (rest.find? fun s => decide (s.1 = c.1)) =
          shards.find? fun s => decide (s.1 = c.1)) → Sorted Prod.fst rest → transformCells localId clockOffset cells rest =
            cells.map fun c => (c.1, transformCell localId clockOffset c.2
              ((shards.find? fun s => decide (s.1 = c.1)).map Prod.snd)) := fun same sorted => by
        rw [ih tail sorted]
        exact map_congr_left fun c hc => by rw [same c hc]
      have dropped : ∀ c ∈ cells, ((shards.dropWhile fun s => decide (s.1 < id)).find? fun s => decide (s.1 = c.1)) =
          shards.find? fun s => decide (s.1 = c.1) := fun c hc => find?_dropWhile_lt (first c hc)
      rw [transformCells, map_cons, ← found]
      cases rest : shards.dropWhile fun s => decide (s.1 < id) with
      | nil =>
        rw [rest] at dropped
        simp only [head?_nil, Option.filter_none, Option.map_none]
        rw [later dropped .nil]
      | cons s rest' =>
        rw [rest] at dropped left
        simp only [head?_cons]
        by_cases gt : s.1 > id
        · have ne : s.1 ≠ id := gt.ne'
          simp only [if_pos gt, Option.filter, ne, decide_false, Bool.false_eq_true, if_false, Option.map_none]
          rw [later dropped left]
        · obtain ⟨behind, left⟩ := pairwise_cons.1 left
          have ge : ¬s.1 < id := by
            have := head?_dropWhile_not (fun s : ColumnId × CounterShard Id => decide (s.1 < id)) shards
            rw [rest] at this
            simpa using this
          have eq : s.1 = id := le_antisymm (not_lt.1 gt) (not_lt.1 ge)
          have same : ∀ c ∈ cells, (rest'.find? fun s => decide (s.1 = c.1)) = shards.find? fun s => decide (s.1 = c.1) :=
            fun c hc => by
              rw [← dropped c hc, find?_cons_of_neg]
              simpa [eq] using (first c hc).ne
          rw [if_neg gt, later same left]
          simp only [Option.filter, eq, decide_true, if_true, Option.map_some]

variable {state : Row (ColumnCell Key Id)}

theorem find?_localShards (h : state.Sorted) (id : ColumnId) :
    ((localShards localId state).find? fun s => decide (s.1 = id)).map Prod.snd =
      (state.data id).bind fun d => d.getShard localId := by
  have keeps : ∀ (c : ColumnId × ColumnCell Key Id) s,
      ((c.2.data.getShard localId).map fun s => (c.1, s)) = some s → s.1 = c.1 := fun c s hs => by
    obtain ⟨t, -, rfl⟩ := Option.map_eq_some_iff.1 hs
    rfl
  unfold localShards Row.data Row.findCell
  rw [Sorted.find?_filterMap keeps h, Option.map_bind, Option.map_map, Option.bind_map]
  congr 1
  funext c
  cases h : c.2.data.getShard localId <;> simp [h]

theorem sorted_localShards (h : state.Sorted) : Sorted Prod.fst (localShards localId state) := by
  refine Sorted.filterMap (fun c s hs => ?_) h
  obtain ⟨t, -, rfl⟩ := Option.map_eq_some_iff.1 hs
  rfl

variable {cells : Row CounterUpdate} {storage : StorageType}

/-- What a row has under a column whose cells were changed one by one. -/
theorem data_mapped (f : ColumnId × CounterUpdate → CounterCell Id)
    (id : ColumnId) : Row.data { storage, cells := cells.cells.map fun c => (c.1, ({ data := .counter (f c) } : ColumnCell Key Id)) } id =
      (cells.findCell id).map fun u => .counter (f (id, u)) := by
  unfold Row.data Row.findCell
  rw [find?_map, Option.map_map, Option.map_map, Option.map_map]
  refine Option.map_congr fun c hc => ?_
  have key : c.1 = id := by simpa using find?_some hc
  subst key
  rfl

theorem sorted_mapped (f : ColumnId × CounterUpdate → CounterCell Id) (h : cells.Sorted) : Row.Sorted
      { storage, cells := cells.cells.map fun c => (c.1, ({ data := .counter (f c) } : ColumnCell Key Id)) } :=
  pairwise_map.2 h

theorem data_transformNewRowToShards (cells : Row CounterUpdate) (id : ColumnId) :
    (transformNewRowToShards localId clockOffset cells : Row (ColumnCell Key Id)).data id =
      (cells.findCell id).map fun u => .counter (transformCell localId clockOffset u none) := data_mapped _ id

variable {transformee : Row CounterUpdate}

theorem data_transformRowToShards (ht : transformee.Sorted)
    (hs : state.Sorted) (id : ColumnId) : (transformRowToShards localId clockOffset transformee state).data id =
      (transformee.findCell id).map fun u =>
        .counter (transformCell localId clockOffset u ((state.data id).bind fun d => d.getShard localId)) := by
  unfold transformRowToShards
  rw [transformCells_eq ht (sorted_localShards hs), map_map, ← find?_localShards hs]
  exact @data_mapped Key Id _ _ _ _ (fun c => transformCell localId clockOffset c.2
    (((localShards localId state).find? fun s => decide (s.1 = c.1)).map Prod.snd)) id

theorem sorted_transformNewRowToShards (h : cells.Sorted) :
    (transformNewRowToShards localId clockOffset cells : Row (ColumnCell Key Id)).Sorted := sorted_mapped _ h

theorem sorted_transformRowToShards
    (ht : transformee.Sorted) (hs : state.Sorted) : (transformRowToShards localId clockOffset transformee state).Sorted := by
  unfold transformRowToShards
  rw [transformCells_eq ht (sorted_localShards hs), map_map]
  exact @sorted_mapped Key Id _ _ _ _ (fun c => transformCell localId clockOffset c.2
    (((localShards localId state).find? fun s => decide (s.1 = c.1)).map Prod.snd)) ht

variable {it : Option (ColumnEntry Pos Key Id)} {cr : RowsEntry Pos CounterUpdate}

/-- The row of an update, transformed, has a counter where the update has a cell. -/
theorem data_transformEntry (hc : cr.row.cells.Sorted) (hs : ∀ e, it = some e → e.row.cells.Sorted) (id : ColumnId) :
    (transformEntry localId clockOffset cr it).row.cells.data id = (cr.row.cells.findCell id).map fun u => .counter
      (transformCell localId clockOffset u ((it.bind fun e => e.row.cells.data id).bind fun d => d.getShard localId)) := by
  cases it with
  | none => exact data_transformNewRowToShards _ _
  | some e => exact data_transformRowToShards hc (hs e rfl) id

theorem sorted_transformEntry (hc : cr.row.cells.Sorted) (hs : ∀ e, it = some e → e.row.cells.Sorted) :
    (transformEntry localId clockOffset cr it).row.cells.Sorted := by
  cases it with
  | none => exact sorted_transformNewRowToShards hc
  | some e => exact sorted_transformRowToShards hc (hs e rfl)

end Transform

/-- Where a partition has a cell. -/
inductive Place (Pos : Type) where
  | static (id : ColumnId)
  | row (x : Pos) (id : ColumnId)

namespace MutationPartition

/-- The cell of a place. -/
def cellOf [LinearOrder Pos] (p : MutationPartition Pos C) : Place Pos → Option C
  | .static id => p.staticRow.findCell id
  | .row x id => (p.rows.find? fun e => decide (e.position = x)).bind fun e => e.row.cells.findCell id

/-- The data of a place. -/
def dataOf [LinearOrder Pos] (p : ColumnPartition Pos Key Id) (pl : Place Pos) : Option (CellData Key Id) :=
  (p.cellOf pl).map ColumnCell.data

variable [Position Pos] {p q : ColumnPartition Pos Key Id}

theorem dataOf_eq (p : ColumnPartition Pos Key Id) (pl : Place Pos) : p.dataOf pl = match pl with
    | .static id => p.content.staticRow id
    | .row x id => (p.content.rows x).bind fun r => r.cells id := by
  cases pl with
  | static id => rfl
  | row x id =>
    simp only [dataOf, cellOf, Option.map_bind]
    change _ = Option.bind (Option.map _ _) _
    rw [Option.bind_map]
    rfl

theorem dataOf_merge (hp : p.Ordered) (hq : q.Ordered) (pl : Place Pos) :
    (p.merge q).dataOf pl = Option.merge CellData.merge (p.dataOf pl) (q.dataOf pl) := by
  rw [dataOf_eq, dataOf_eq, dataOf_eq, content_merge hp hq]
  cases pl with
  | static id => rfl
  | row x id =>
    simp only [Content.join]
    cases p.content.rows x <;> cases q.content.rows x <;> simp [RowContent.join, joinCells]

/-- An update that is in order. -/
structure InOrder (m : MutationPartition Pos CounterUpdate) : Prop where
  staticRow : m.staticRow.Sorted
  rows : Sorted RowsEntry.position m.rows
  cells : ∀ e ∈ m.rows, e.row.cells.Sorted
  rowTombstones : m.rowTombstones.WellFormed

section Transform

variable {localId : Id} {clockOffset : UInt64} {m : MutationPartition Pos CounterUpdate}
  {currentState : Option (ColumnPartition Pos Key Id)}

theorem rows_transform (hm : m.InOrder) (hs : ∀ p, currentState = some p → p.Ordered) :
    (transformCounterUpdatesToShards localId clockOffset m currentState).rows = m.rows.map fun cr =>
      transformEntry localId clockOffset cr (currentState.bind fun p => p.rows.find? fun e => decide (e.position = cr.position)) := by
  cases currentState with
  | none => rfl
  | some p =>
    refine (alongside_eq hm.rows (hs p rfl).rows).trans ?_
    simp

theorem Ordered.transform (hm : m.InOrder) (hs : ∀ p, currentState = some p → p.Ordered) :
    (transformCounterUpdatesToShards localId clockOffset m currentState).Ordered where
  staticRow := by
    cases currentState with
    | none => exact sorted_transformNewRowToShards hm.staticRow
    | some p => exact sorted_transformRowToShards hm.staticRow (hs p rfl).staticRow
  rows := by
    rw [rows_transform hm hs]
    exact pairwise_map.2 hm.rows
  cells := by
    rw [rows_transform hm hs, forall_mem_map]
    refine fun cr hcr => sorted_transformEntry (hm.cells cr hcr) fun e he => ?_
    obtain ⟨p, hp, he⟩ := Option.bind_eq_some_iff.1 he
    exact (hs p hp).cells e (mem_of_find?_eq_some he)
  rowTombstones := hm.rowTombstones

/-- In each place of an update its cell is transformed with the shard that the current state has there. -/
theorem dataOf_transform (hm : m.InOrder) (hs : ∀ p, currentState = some p → p.Ordered) (pl : Place Pos) :
    (transformCounterUpdatesToShards localId clockOffset m currentState).dataOf pl = (m.cellOf pl).map fun u => .counter
      (transformCell localId clockOffset u ((currentState.bind fun p => p.dataOf pl).bind fun d => d.getShard localId)) := by
  cases pl with
  | static id =>
    cases currentState with
    | none => exact data_transformNewRowToShards _ _
    | some p => exact data_transformRowToShards hm.staticRow (hs p rfl).staticRow id
  | row x id =>
    simp only [dataOf, cellOf]
    rw [rows_transform hm hs, find?_map, Option.bind_map, Option.map_bind, Option.map_bind]
    refine Option.bind_congr fun cr hcr => ?_
    have found := find?_some hcr
    have here : cr.position = x := of_decide_eq_true found
    subst here
    refine (data_transformEntry (hm.cells cr (mem_of_find?_eq_some hcr)) (fun e he => ?_) id).trans ?_
    · obtain ⟨p, hp, he⟩ := Option.bind_eq_some_iff.1 he
      exact (hs p hp).cells e (mem_of_find?_eq_some he)
    · simp only [Option.bind_assoc, Option.map_bind]
      rfl

end Transform

/-- The shard that a counter has of a node. -/
def shardOf (p : ColumnPartition Pos Key Id) (pl : Place Pos) (n : Id) : Option (CounterShard Id) :=
  (p.dataOf pl).bind fun d => d.getShard n

theorem id_shardOf {pl : Place Pos} {n : Id} {s : CounterShard Id} (h : p.shardOf pl n = some s) : s.id = n := by
  obtain ⟨d, -, hd⟩ := Option.bind_eq_some_iff.1 h
  cases d with
  | counter c => exact CounterCell.getShard_id hd
  | atomic => cases hd
  | collection => cases hd

/-- All cells are counters that were not deleted. -/
def HasCounters (p : ColumnPartition Pos Key Id) : Prop :=
  ∀ pl d, p.dataOf pl = some d → ∃ c : CounterCell Id, d = .counter c ∧ c.isLive

theorem dataOf_empty (pl : Place Pos) : ({} : ColumnPartition Pos Key Id).dataOf pl = none := by
  cases pl <;> rfl

theorem HasCounters.merge (hp : p.Ordered) (hq : q.Ordered) (live : p.HasCounters) (live' : q.HasCounters) :
    (p.merge q).HasCounters := by
  intro pl d hd
  rw [dataOf_merge hp hq] at hd
  cases hpd : p.dataOf pl with
  | none =>
    rw [hpd, Option.merge_none_left] at hd
    exact live' pl d hd
  | some a => cases hqd : q.dataOf pl with
    | none =>
      rw [hpd, hqd, Option.merge_none_right] at hd
      exact live pl d (hpd.trans hd)
    | some b =>
      obtain ⟨c, rfl, hc⟩ := live pl a hpd
      obtain ⟨c', rfl, hc'⟩ := live' pl b hqd
      rw [hpd, hqd] at hd
      cases hd
      exact ⟨_, rfl, CounterCell.isLive_merge hc hc'⟩

theorem shardOf_merge (hp : p.Ordered) (hq : q.Ordered) (live : p.HasCounters) (live' : q.HasCounters) (pl : Place Pos)
    (n : Id) : (p.merge q).shardOf pl n = Option.merge CounterShard.newer (p.shardOf pl n) (q.shardOf pl n) := by
  unfold shardOf
  rw [dataOf_merge hp hq]
  cases hpd : p.dataOf pl with
  | none => simp
  | some a => cases hqd : q.dataOf pl with
    | none => simp
    | some b =>
      obtain ⟨c, rfl, hc⟩ := live pl a hpd
      obtain ⟨c', rfl, hc'⟩ := live' pl b hqd
      exact CounterCell.getShard_merge hc hc' n

end MutationPartition

end ScyllaMoon.Mutation
