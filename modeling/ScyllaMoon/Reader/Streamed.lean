import ScyllaMoon.Lib.Producer
import ScyllaMoon.Reader.Fragment

/-!
# `partition_snapshot_reader`

The older reader, which returns a streamed mutation. It merges the rows and range tombstones of all
versions of the snapshot. When it looks up its place again inside a range it starts behind the last row
it emitted, even if that row, or the static row, was emitted before it came to this range: then it would
emit rows between the ranges.
-/

namespace ScyllaMoon.Reader

open Lib Mutation List

variable {Pos C : Type}

/-- `partition_snapshot_reader`; `ckRanges` are the ranges from `_current_ck_range` on. Without a
`lastEntry` the static row was emitted last. -/
structure StreamedReader (Pos C : Type) where
  ckRanges : List (ClusteringRange Pos)
  inCkRange : Bool := false
  lastEntry : Option Pos := none
  clusteringRows : Iterators Pos C := []
  rangeTombstones : RangeTombstoneList Pos := []
  endOfStream : Bool := false

/-- `partition_snapshot_reader::tomb` -/
def tomb (versions : List (MutationPartition Pos C)) : Tombstone :=
  versions.foldl (fun t v => t.apply v.tombstone) {}

/-- The body of the loop of `read_static_row`. -/
def addStaticRow [CellOps C] (sr : Option (Row C)) (v : MutationPartition Pos C) : Option (Row C) :=
  if v.staticRow.empty then sr
  else match sr with
    | none => some v.staticRow
    | some r => some (r.apply v.staticRow)

/-- `read_static_row` -/
def readStaticRow [CellOps C] (versions : List (MutationPartition Pos C)) : Option (Row C) :=
  versions.foldl addStaticRow none

namespace StreamedReader

variable [LinearOrder Pos]

/-- `refresh_iterators` -/
def refreshIterators (versions : List (MutationPartition Pos C)) (r : StreamedReader Pos C) : StreamedReader Pos C :=
  match r.ckRanges, r.inCkRange with
  | ckRange :: _, true => { r with clusteringRows := iterators (versions.map (rowsAfter · ckRange r.lastEntry)) }
  | ckRange :: _, false => { r with
      rangeTombstones := versions.foldl (fun l v => l.applyAll (v.rowTombstones.slice ckRange)) r.rangeTombstones
      clusteringRows := iterators (versions.map (rowsOf · ckRange))
      inCkRange := true }
  | [], _ => { r with clusteringRows := [], endOfStream := true }

variable [CellOps C] (top : Iterators Pos C → Nat)

/-- `read_next` -/
def readNext : (fuel : Nat) → StreamedReader Pos C → Option (Fragment Pos C) × StreamedReader Pos C
  | 0, r => drain r
  | fuel + 1, r =>
    match popClusteringRow top r.clusteringRows with
    | none => drain r
    | some (e, rest) => match getNext (fun p => !decide (e.position < p)) r.rangeTombstones with
      | some (rt, rts) => (some (.rangeTombstone rt), { r with rangeTombstones := rts })
      | none =>
        if e.dummy then readNext fuel { r with clusteringRows := rest }
        else
          let (row, rest) := absorb top e.position fuel (clusteringRow e) rest
          (some (.clusteringRow e.position row), { r with clusteringRows := rest, lastEntry := some e.position })
where
  /-- `return _range_tombstones.get_next()` -/
  drain (r : StreamedReader Pos C) : Option (Fragment Pos C) × StreamedReader Pos C :=
    match getNext (fun _ => true) r.rangeTombstones with
    | some (rt, rts) => (some (.rangeTombstone rt), { r with rangeTombstones := rts })
    | none => (none, r)

/-- One turn of the loop of `do_fill_buffer`. If `changed`, a call of `do_fill_buffer` begins here and
finds another change mark than the call before it. -/
def fill (versions : List (MutationPartition Pos C)) (r : StreamedReader Pos C) (changed : Bool) :
    StreamedReader Pos C × List (Fragment Pos C) :=
  let r := if changed then r.refreshIterators versions else r
  match r.readNext top (rowCount r.clusteringRows) with
  | (some f, r) => (r, [f])
  | (none, r) => ({ r with inCkRange := false, ckRanges := r.ckRanges.tail }.refreshIterators versions, [])

/-- The constructor, up to the loop of the first `do_fill_buffer`; the partition tombstone is a member of
`streamed_mutation`. -/
def start (versions : List (MutationPartition Pos C)) (ckRanges : List (ClusteringRange Pos)) :
    StreamedReader Pos C × List (Fragment Pos C) :=
  (refreshIterators versions { ckRanges }, .partitionStart (tomb versions) ::
    match readStaticRow versions with
    | none => []
    | some sr => [.staticRow sr])

/-- The reader after `n` turns, with everything it emitted. -/
def emitted (versions : List (MutationPartition Pos C)) (ckRanges : List (ClusteringRange Pos)) (changed : Nat → Bool)
    (n : Nat) : StreamedReader Pos C × List (Fragment Pos C) :=
  produce (fill top versions) StreamedReader.endOfStream changed (start versions ckRanges) n

omit [CellOps C] in
/-- The last row that was emitted is one of the current range. -/
def PastStart (r : StreamedReader Pos C) : Prop :=
  ∃ ckRange rest last, r.ckRanges = ckRange :: rest ∧ r.lastEntry = some last ∧ ckRange.start ≤ last

variable {top} (isTop : IsTop top) {versions : List (MutationPartition Pos C)} {ckRange : ClusteringRange Pos}
  {rest : List (ClusteringRange Pos)} {its : Iterators Pos C} {es : List (RowsEntry Pos C)}

omit [LinearOrder Pos] [CellOps C] in
/-- The reader inside a range, with these iterators and the range tombstones `rts` to emit. -/
def reading (ckRange : ClusteringRange Pos) (rest : List (ClusteringRange Pos)) (last : Option Pos)
    (rts : RangeTombstoneList Pos) (its : Iterators Pos C) : StreamedReader Pos C where
  ckRanges := ckRange :: rest
  inCkRange := true
  lastEntry := last
  clusteringRows := its
  rangeTombstones := rts

open RangeTombstoneList (applyAll)
open RowsEntry (position)

omit [CellOps C] in
/-- The range tombstones of all versions that overlap a range. -/
def slices (versions : List (MutationPartition Pos C)) (ckRange : ClusteringRange Pos) : RangeTombstoneList Pos :=
  applyAll [] (versions.flatMap fun v => v.rowTombstones.slice ckRange)

omit [CellOps C] in
theorem refreshIterators_new (last : Option Pos) :
    refreshIterators versions { ckRanges := ckRange :: rest, lastEntry := last } =
      reading ckRange rest last (slices versions ckRange) (iterators (versions.map (rowsOf · ckRange))) := by
  have collected : versions.foldl (fun l v => applyAll l (v.rowTombstones.slice ckRange)) [] = slices versions ckRange :=
    (foldl_flatMap ..).symm
  simp only [refreshIterators, reading, collected]

variable {rts : RangeTombstoneList Pos} {last : Option Pos}

/-- What a turn does inside a range, if the place can be looked up. -/
theorem fill_reading (place : Placed versions ckRange last its) {changed : Bool}
    (allowed : changed = true → (reading ckRange rest last rts its).PastStart)
    {f : Option (Fragment Pos C)} {r : StreamedReader Pos C}
    (next : (reading ckRange rest last rts its).readNext top (rowCount its) = (f, r)) :
    fill top versions (reading ckRange rest last rts its) changed = match f with
      | some f => (r, [f])
      | none => ({ r with inCkRange := false, ckRanges := r.ckRanges.tail }.refreshIterators versions, []) := by
  have refreshed : (if changed then (reading ckRange rest last rts its).refreshIterators versions
      else reading ckRange rest last rts its) = reading ckRange rest last rts its := by
    split
    next look =>
      obtain ⟨_, _, p, hr, hl, hp⟩ := allowed look
      cases hr
      obtain rfl : last = some p := hl
      simp only [refreshIterators, reading, place p rfl hp]
    · rfl
  have count : rowCount (reading ckRange rest last rts its).clusteringRows = rowCount its := rfl
  simp only [fill, refreshed, count, next]
  cases f <;> rfl

/-- From a state inside a range, the range is left with these rows and range tombstones emitted; the last row
emitted is one of the range, or none was. -/
def Finishes (top : Iterators Pos C → Nat) (versions : List (MutationPartition Pos C))
    (ckRange : ClusteringRange Pos) (rest : List (ClusteringRange Pos)) (last : Option Pos)
    (rts : RangeTombstoneList Pos) (its : Iterators Pos C) (rows : List (RowsEntry Pos C)) : Prop :=
  ∃ fs last', Emits (fill top versions) StreamedReader.endOfStream (fun r changed => changed = true → r.PastStart)
      (reading ckRange rest last rts its) fs (refreshIterators versions { ckRanges := rest, lastEntry := last' }) ∧
    Yields fs rows rts ∧ (last' = last ∨ ∃ p, last' = some p ∧ p < ckRange.stop)

variable {rows : List (RowsEntry Pos C)}

theorem Finishes.rangeTombstone {rt : RangeTombstone Pos} (place : Placed versions ckRange last its)
    (next : (reading ckRange rest last (rt :: rts) its).readNext top (rowCount its) =
      (some (.rangeTombstone rt), reading ckRange rest last rts its))
    (h : Finishes top versions ckRange rest last rts its rows) :
    Finishes top versions ckRange rest last (rt :: rts) its rows := by
  obtain ⟨fs, last', hfs, hy, hlast⟩ := h
  exact ⟨[.rangeTombstone rt] ++ fs, last', .head rfl (fun _ allowed => fill_reading place allowed next) hfs,
    (Yields.rangeTombstone rt).append hy, hlast⟩

theorem Finishes.clusteringRow {p : Pos} {row : DeletableRow C} {its' : Iterators Pos C}
    (place : Placed versions ckRange last its) (inRange : p < ckRange.stop)
    (next : (reading ckRange rest last rts its).readNext top (rowCount its) =
      (some (.clusteringRow p row), reading ckRange rest (some p) rts its'))
    (h : Finishes top versions ckRange rest (some p) rts its' rows) :
    Finishes top versions ckRange rest last rts its ({ position := p, row } :: rows) := by
  obtain ⟨fs, last', hfs, hy, hlast⟩ := h
  refine ⟨[.clusteringRow p row] ++ fs, last', .head rfl (fun _ allowed => fill_reading place allowed next) hfs,
    (Yields.clusteringRow _ _).append hy, .inr ?_⟩
  rcases hlast with rfl | hlast
  · exact ⟨_, rfl, inRange⟩
  · exact hlast

include isTop

/-- Inside a range, the rows and range tombstones that are left come out, as long as the place is looked up
only behind a row of the range. -/
theorem finishes_reading (merges : Merges its es) (place : Placed versions ckRange last its)
    (onwards : ∀ e ∈ es, e.position < ckRange.stop ∧
      Placed versions ckRange (some e.position) (behind e.position its))
    (rest : List (ClusteringRange Pos)) (rts : RangeTombstoneList Pos) :
    Finishes top versions ckRange rest last rts its (shownRows es) := by
  induction es generalizing its last rts with
  | nil =>
    obtain rfl := merges.eq_nil
    induction rts with
    | nil =>
      refine ⟨[], last, .single rfl fun changed allowed => ?_, .nil, .inl rfl⟩
      exact fill_reading place allowed rfl
    | cons rt rts ih => exact ih.rangeTombstone place rfl
  | cons e es ih =>
    obtain ⟨a, its', pop, real, here, n, count, absorbed⟩ := merges.next isTop
    obtain ⟨after, -⟩ := pairwise_cons.1 merges.sorted
    obtain ⟨⟨inRange, place'⟩, onwards⟩ := forall_mem_cons.1 onwards
    have shownCons : shownRows (e :: es) = shown e :: shownRows es := by
      simp [shownRows, merges.real.2 e mem_cons_self]
    have left := fun rts => ih merges.behind place' (fun e' he' => by
      rw [behind_behind (after e' he').le]
      exact onwards e' he') rts
    -- the row itself, once no range tombstone is in front of it
    have row : ∀ rts, getNext (fun p => !decide (e.position < p)) rts = none →
        Finishes top versions ckRange rest last rts its (shown e :: shownRows es) := by
      intro rts none
      refine (left rts).clusteringRow place inRange ?_
      simp only [reading, count, readNext, pop, here, none, real, Bool.false_eq_true, if_false, absorbed]
    rw [shownCons]
    induction rts with
    | nil => exact row [] rfl
    | cons rt rts ih =>
      by_cases before : e.position < rt.start
      · exact row _ (by simp [getNext, before])
      · refine ih.rangeTombstone place ?_
        simp only [reading, count, readNext, pop, here, getNext, before, decide_false, Bool.not_false, if_true]

variable (hv : ∀ q ∈ versions, Sorted position q.rows)
include hv

variable {sum : MutationPartition Pos C} (hsum : Sorted position sum.rows) {ckRanges : List (ClusteringRange Pos)}
  (disjoint : ckRanges.Pairwise fun a b => a.stop ≤ b.start)
  (merges : ∀ r ∈ ckRanges, Merges (iterators (versions.map (rowsOf · r))) (rowsOf sum r))
include hsum disjoint merges

theorem emits_ranges (last : Option Pos) (ahead : ∀ p, last = some p → ∀ r ∈ ckRanges, p < r.start) :
    ∃ fs r, Emits (fill top versions) StreamedReader.endOfStream (fun r changed => changed = true → r.PastStart)
        (refreshIterators versions { ckRanges, lastEntry := last }) fs r ∧ r.endOfStream = true ∧
      Yields fs (ckRanges.flatMap fun r => shownRows (rowsOf sum r)) (ckRanges.flatMap (slices versions)) := by
  induction ckRanges generalizing last with
  | nil => exact ⟨[], _, .refl, rfl, .nil⟩
  | cons ckRange rest ih =>
    obtain ⟨after, disjoint⟩ := pairwise_cons.1 disjoint
    obtain ⟨merges₁, merges⟩ := forall_mem_cons.1 merges
    obtain ⟨fs, last', hfs, hy, hlast⟩ := finishes_reading isTop merges₁
      (fun p hp hle => ((ahead p hp ckRange mem_cons_self).not_ge hle).elim)
      (fun e he => ⟨((mem_rowsOf hsum).1 he).2.2, placed_behind hv⟩) rest (slices versions ckRange)
    have ahead' : ∀ p, last' = some p → ∀ r ∈ rest, p < r.start := by
      intro p hp r hr
      rcases hlast with rfl | ⟨p', hp', hlt⟩
      · exact ahead p hp r (mem_cons_of_mem _ hr)
      · exact (Option.some.inj (hp'.symm.trans hp) ▸ hlt).trans_le (after r hr)
    obtain ⟨gs, r, hgs, done, hy'⟩ := ih disjoint merges last' ahead'
    refine ⟨fs ++ gs, r, ?_, done, hy.append hy'⟩
    rw [refreshIterators_new]
    exact hfs.trans hgs

/-- If the rows of the versions merge to those of `sum` in the ranges, these and the range tombstones of all versions
are emitted, as long as the place is looked up only behind a row of the current range. -/
theorem emitted_eq (changed : Nat → Bool)
    (past : ∀ n, changed n = true → (emitted top versions ckRanges changed n).1.PastStart) :
    ∃ n fs, (emitted top versions ckRanges changed n).1.endOfStream = true ∧
      (emitted top versions ckRanges changed n).2 = (start versions ckRanges).2 ++ fs ∧
      Yields fs (ckRanges.flatMap fun r => shownRows (rowsOf sum r)) (ckRanges.flatMap (slices versions)) := by
  obtain ⟨fs, r, hfs, done, hy⟩ := emits_ranges isTop hv hsum disjoint merges none nofun
  obtain ⟨n, hn⟩ := hfs.produce changed (start versions ckRanges).2 fun n _ => past n
  have same : emitted top versions ckRanges changed n = _ := hn
  exact ⟨n, fs, by rw [same]; exact done, by rw [same], hy⟩

end StreamedReader

end ScyllaMoon.Reader
