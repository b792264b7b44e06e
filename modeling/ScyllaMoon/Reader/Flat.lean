import ScyllaMoon.Lib.Producer
import ScyllaMoon.Reader.Fragment

/-!
# `partition_snapshot_flat_reader`

The reader of memtables and of their flushes. It goes through the clustering ranges one after the other.
The partition tombstone and the static row are squashed over all versions of the snapshot; rows and range
tombstones are read from the newest one only. The reader can be stopped whenever its buffer is full, and
if the versions were moved meanwhile (`changed`) it looks up its place again.
-/

namespace ScyllaMoon.Reader

open Lib Mutation List

variable {Pos C : Type}

/-- `partition_snapshot_flat_reader`; `ckRanges` are the ranges from `_current_ck_range` on. -/
structure FlatReader (Pos C : Type) where
  ckRanges : List (ClusteringRange Pos)
  lastEntry : Option Pos := none
  nextRow : Option (Pos × DeletableRow C) := none
  rangeTombstones : RangeTombstoneList Pos := []
  clusteringRows : Iterators Pos C := []
  noMoreRowsInCurrentRange : Bool := false
  endOfStream : Bool := false

/-- `partition_snapshot::partition_tombstone()` -/
def partitionTombstone : List (MutationPartition Pos C) → Tombstone
  | [] => {}
  | v :: vs => vs.foldl (fun t v => t.apply v.tombstone) v.tombstone

/-- `partition_snapshot::static_row()` -/
def squashedStaticRow [CellOps C] : List (MutationPartition Pos C) → Row C
  | [] => {}
  | v :: vs => vs.foldl (fun r v => r.apply v.staticRow) v.staticRow

namespace FlatReader

variable [LinearOrder Pos] [CellOps C] (versions : List (MutationPartition Pos C)) (ckRange : ClusteringRange Pos)

/-- `lsa_partition_reader::refresh_state`; both loops over the versions break after the first one. -/
def refreshState (r : FlatReader Pos C) : FlatReader Pos C :=
  match r.lastEntry with
  | none =>
    -- a new range: collect its range tombstones
    { r with
      rangeTombstones := (versions.take 1).foldl (fun l v => l.applyAll (v.rowTombstones.slice ckRange)) r.rangeTombstones
      clusteringRows := iterators ((versions.take 1).map (rowsOf · ckRange)) }
  | some last => { r with clusteringRows := iterators ((versions.take 1).map (rowsAfter · ckRange (some last))) }

variable (top : Iterators Pos C → Nat)

/-- The loop of `lsa_partition_reader::next_row`. -/
def popRow : (fuel : Nat) → Iterators Pos C →
    Option (Pos × DeletableRow C) × Iterators Pos C
  | 0, rows => (none, rows)
  | fuel + 1, rows =>
    match popClusteringRow top rows with
    | none => (none, rows)
    | some (e, rest) =>
      if e.dummy then popRow fuel rest
      else
        let (row, rest) := absorb top e.position fuel (clusteringRow e) rest
        (some (e.position, row), rest)

variable (versions : List (MutationPartition Pos C))

/-- `_next_row = _reader.next_row(...)`, unless there is a row already or none is left. -/
def fetchRow (ckRange : ClusteringRange Pos) (r : FlatReader Pos C) (changed : Bool) : FlatReader Pos C :=
  if r.nextRow.isNone ∧ ¬r.noMoreRowsInCurrentRange then
    let r := if r.lastEntry.isNone ∨ changed then r.refreshState versions ckRange else r
    let (row, rows) := popRow top (rowCount r.clusteringRows) r.clusteringRows
    { r with nextRow := row, clusteringRows := rows }
  else r

omit [CellOps C] in
/-- The rest of `read_next`: a range tombstone that comes before the row, or the row. -/
def emitNext (r : FlatReader Pos C) : Option (Fragment Pos C) × FlatReader Pos C :=
  match r.nextRow with
  | some (position, row) => match getNext (fun p => decide (p < position)) r.rangeTombstones with
    | some (rt, rest) => (some (.rangeTombstone rt), { r with rangeTombstones := rest })
    | none => (some (.clusteringRow position row), { r with lastEntry := some position, nextRow := none })
  | none => match getNext (fun p => decide (p < ckRange.stop)) r.rangeTombstones with
    | some (rt, rest) =>
      (some (.rangeTombstone rt), { r with rangeTombstones := rest, noMoreRowsInCurrentRange := true })
    | none => (none, { r with noMoreRowsInCurrentRange := true })

omit [CellOps C] [LinearOrder Pos] in
/-- `on_new_range` -/
def onNewRange (r : FlatReader Pos C) : FlatReader Pos C × List (Fragment Pos C) :=
  ({ r with endOfStream := r.endOfStream || r.ckRanges.isEmpty, noMoreRowsInCurrentRange := false },
    if r.ckRanges.isEmpty then [.partitionEnd] else [])

omit [CellOps C] in
/-- The body of the loop of `do_fill_buffer`, once the next row is known. -/
def advance (rest : List (ClusteringRange Pos)) (r : FlatReader Pos C) : FlatReader Pos C × List (Fragment Pos C) :=
  match r.emitNext ckRange with
  | (some f, r) => (r, [f])
  | (none, r) => onNewRange { r with lastEntry := none, ckRanges := rest }

/-- One turn of the loop of `do_fill_buffer`. -/
def fill (r : FlatReader Pos C) (changed : Bool) : FlatReader Pos C × List (Fragment Pos C) :=
  match r.ckRanges with
  | [] => (r, [])
  | ckRange :: rest => (r.fetchRow top versions ckRange changed).advance ckRange rest

variable (ckRanges : List (ClusteringRange Pos))

omit [LinearOrder Pos] in
/-- The constructor, up to the first `do_fill_buffer`. -/
def start : FlatReader Pos C × List (Fragment Pos C) :=
  let sr := squashedStaticRow versions
  let (r, fs) := onNewRange { ckRanges }
  (r, .partitionStart (partitionTombstone versions) :: (if sr.empty then [] else [.staticRow sr]) ++ fs)

open FlatReader (endOfStream)

/-- The reader after `n` turns, with everything it emitted. -/
def emitted (changed : Nat → Bool) (n : Nat) : FlatReader Pos C × List (Fragment Pos C) :=
  produce (fill top versions) endOfStream changed (start versions ckRanges) n

variable {top} (isTop : IsTop top) {v : MutationPartition Pos C} {older : List (MutationPartition Pos C)}
  {ckRange : ClusteringRange Pos} {rest : List (ClusteringRange Pos)} {its : Iterators Pos C}
  {es : List (RowsEntry Pos C)}

include isTop

/-- The first of the rows that are left, and the iterators behind it. -/
theorem popRow_eq (merges : Merges its es) : popRow top (rowCount its) its =
    (es.head?.map fun e => (e.position, clusteringRow e), es.head?.elim [] fun e => behind e.position its) := by
  cases es with
  | nil =>
    rw [merges.eq_nil]
    rfl
  | cons e es =>
    obtain ⟨a, its', pop, real, here, n, count, absorbed⟩ := merges.next isTop
    simp only [count, popRow, pop, real, Bool.false_eq_true, if_false, here, absorbed]
    rfl

section

omit isTop [CellOps C]

/-- The reader when it has fetched the next of the rows `es`, with range tombstones `rts` to emit. -/
def fetched (ckRange : ClusteringRange Pos) (rest : List (ClusteringRange Pos)) (last : Option Pos)
    (rts : RangeTombstoneList Pos) (its : Iterators Pos C) (es : List (RowsEntry Pos C)) :
    FlatReader Pos C where
  ckRanges := ckRange :: rest
  lastEntry := last
  nextRow := es.head?.map fun e => (e.position, clusteringRow e)
  rangeTombstones := rts
  clusteringRows := es.head?.elim [] fun e => behind e.position its

/-- The reader when it has emitted the row at `last`. -/
def resumed (ckRange : ClusteringRange Pos) (rest : List (ClusteringRange Pos)) (last : Pos)
    (rts : RangeTombstoneList Pos) (its : Iterators Pos C) : FlatReader Pos C where
  ckRanges := ckRange :: rest
  lastEntry := some last
  rangeTombstones := rts
  clusteringRows := its

end

open RangeTombstoneList (applyAll)

/-- Entering a range, the reader collects the range tombstones and the rows of the newest version. -/
theorem fetchRow_new (hv : v.WellFormed) (changed : Bool) :
    fetchRow top (v :: older) ckRange { ckRanges := ckRange :: rest } changed =
      fetched ckRange rest none (applyAll [] (v.rowTombstones.slice ckRange)) (iterators [rowsOf v ckRange])
        (rowsOf v ckRange) := by
  have pop := popRow_eq isTop (merges_rowsOf hv ckRange)
  simp only [fetchRow, refreshState, fetched, Option.isNone_none, Bool.false_eq_true, not_false_eq_true, and_self,
    true_or, if_true, take_succ_cons, take_zero, map_cons, map_nil, foldl_cons, foldl_nil, pop]

variable {rts : RangeTombstoneList Pos}

/-- Inside a range it does not matter whether the place is looked up again. -/
theorem fetchRow_resumed {last : Pos} (merges : Merges its es) (place : iterators [rowsAfter v ckRange (some last)] = its)
    (changed : Bool) : fetchRow top (v :: older) ckRange (resumed ckRange rest last rts its) changed =
      fetched ckRange rest (some last) rts its es := by
  have pop := popRow_eq isTop merges
  cases changed <;>
    simp only [fetchRow, resumed, refreshState, fetched, Option.isNone_none, Option.isNone_some, Bool.false_eq_true,
      not_false_eq_true, and_self, or_self, or_true, if_true, if_false, take_succ_cons, take_zero,
      map_cons, map_nil, place, pop]

omit isTop

/-- The reader at the begin of the ranges that are left. -/
def entering (rest : List (ClusteringRange Pos)) : FlatReader Pos C := { ckRanges := rest, endOfStream := rest.isEmpty }

/-- From `x` on the rest of the range gives these rows and range tombstones. -/
def Finishes (top : Iterators Pos C → Nat) (versions : List (MutationPartition Pos C))
    (ckRange : ClusteringRange Pos) (rest : List (ClusteringRange Pos)) (x : FlatReader Pos C)
    (rows : List (RowsEntry Pos C)) (rts : RangeTombstoneList Pos) : Prop :=
  ∃ r fs gs, x.advance ckRange rest = (r, fs) ∧
    Emits (fill top versions) endOfStream (fun _ _ => True) r gs (entering rest) ∧ Yields (fs ++ gs) rows rts

variable {rows : List (RowsEntry Pos C)}

/-- A state from which the next row is fetched in one way only goes on from there. -/
theorem Finishes.emits {versions : List (MutationPartition Pos C)} {x r : FlatReader Pos C}
    (h : Finishes top versions ckRange rest x rows rts) (hr : r.ckRanges = ckRange :: rest)
    (live : r.endOfStream = false) (fetch : ∀ changed, r.fetchRow top versions ckRange changed = x) :
    ∃ fs, Emits (fill top versions) endOfStream (fun _ _ => True) r fs (entering rest) ∧ Yields fs rows rts := by
  obtain ⟨r', fs, gs, hx, hgs, hy⟩ := h
  refine ⟨fs ++ gs, .head live (fun changed _ => ?_) hgs, hy⟩
  simp only [fill, hr, fetch, hx]

/-- If there is a row already, or none is left, nothing is fetched. -/
theorem Finishes.again {versions : List (MutationPartition Pos C)} {x : FlatReader Pos C}
    (h : Finishes top versions ckRange rest x rows rts) (hx : x.ckRanges = ckRange :: rest)
    (live : x.endOfStream = false) (idle : ¬(x.nextRow.isNone ∧ ¬x.noMoreRowsInCurrentRange)) :
    ∃ fs, Emits (fill top versions) endOfStream (fun _ _ => True) x fs (entering rest) ∧ Yields fs rows rts :=
  h.emits hx live fun _ => if_neg idle

/-- Without rows left, the range tombstones that begin in the range are emitted, and the range ends. -/
theorem finishes_tombstones (early : ∀ rt ∈ rts, rt.start < ckRange.stop) (last : Option Pos) (noMore : Bool) :
    Finishes top versions ckRange rest
      { ckRanges := ckRange :: rest, lastEntry := last, rangeTombstones := rts, noMoreRowsInCurrentRange := noMore } [] rts := by
  induction rts generalizing noMore with
  | nil =>
    refine ⟨entering rest, _, [], rfl, .refl, ?_⟩
    cases rest with
    | nil => exact .partitionEnd
    | cons => exact .nil
  | cons rt rts ih =>
    obtain ⟨hrt, hrts⟩ := forall_mem_cons.1 early
    obtain ⟨fs, hfs, hy⟩ := (ih hrts true).again rfl rfl (by simp)
    refine ⟨_, [.rangeTombstone rt], fs, ?_, hfs, (Yields.rangeTombstone rt).append hy⟩
    simp only [advance, emitNext, getNext, decide_eq_true hrt, if_true]

/-- With a row fetched, the range tombstones in front of it are emitted, and then the row. -/
theorem finishes_row {last : Option Pos} {position : Pos} {row : DeletableRow C}
    (next : ∀ rts : RangeTombstoneList Pos, (∀ rt ∈ rts, rt.start < ckRange.stop) → ∃ fs,
      Emits (fill top versions) endOfStream (fun _ _ => True) (resumed ckRange rest position rts its) fs
        (entering rest) ∧ Yields fs rows rts) (early : ∀ rt ∈ rts, rt.start < ckRange.stop) :
    Finishes top versions ckRange rest
      { ckRanges := ckRange :: rest, lastEntry := last, nextRow := some (position, row), rangeTombstones := rts,
        clusteringRows := its } ({ position, row } :: rows) rts := by
  induction rts with
  | nil =>
    obtain ⟨fs, hfs, hy⟩ := next [] early
    exact ⟨_, [.clusteringRow position row], fs, rfl, hfs, (Yields.clusteringRow position row).append hy⟩
  | cons rt rts ih =>
    obtain ⟨hrt, hrts⟩ := forall_mem_cons.1 early
    by_cases before : rt.start < position
    · obtain ⟨fs, hfs, hy⟩ := (ih hrts).again rfl rfl (by simp)
      refine ⟨_, [.rangeTombstone rt], fs, ?_, hfs, (Yields.rangeTombstone rt).append hy⟩
      simp only [advance, emitNext, getNext, decide_eq_true before, if_true]
    · obtain ⟨fs, hfs, hy⟩ := next (rt :: rts) early
      refine ⟨_, [.clusteringRow position row], fs, ?_, hfs, (Yields.clusteringRow position row).append hy⟩
      simp only [advance, emitNext, getNext, decide_eq_false before, Bool.false_eq_true, if_false]
      rfl

include isTop

/-- From a fetched row on, the rows and range tombstones that are left come out, whatever happens meanwhile. -/
theorem finishes_fetched (merges : Merges its es) (onwards : ∀ e ∈ es, ckRange.start ≤ e.position ∧
      Placed [v] ckRange (some e.position) (behind e.position its))
    (last : Option Pos) (early : ∀ rt ∈ rts, rt.start < ckRange.stop) :
    Finishes top (v :: older) ckRange rest (fetched ckRange rest last rts its es) (shownRows es) rts := by
  induction es generalizing its last rts with
  | nil => exact finishes_tombstones _ early last false
  | cons e es ih =>
    obtain ⟨⟨inRange, place⟩, onwards⟩ := forall_mem_cons.1 onwards
    have shownCons : shownRows (e :: es) = shown e :: shownRows es := by
      simp [shownRows, merges.real.2 e mem_cons_self]
    rw [shownCons]
    exact finishes_row _ (fun rts early => (ih merges.behind (fun e' he' => by
      rw [behind_behind ((pairwise_cons.1 merges.sorted).1 e' he').le]
      exact onwards e' he') (some e.position) early).emits rfl rfl
      (fetchRow_resumed isTop merges.behind (place _ rfl inRange))) early

/-- One range: the rows of the newest version in it, and the range tombstones that overlap it. -/
theorem emits_range (hv : v.WellFormed) (older : List (MutationPartition Pos C)) (ckRange : ClusteringRange Pos)
    (rest : List (ClusteringRange Pos)) : ∃ fs, Emits (fill top (v :: older)) endOfStream (fun _ _ => True)
      (entering (ckRange :: rest)) fs (entering rest) ∧
    Yields fs (shownRows (rowsOf v ckRange)) (applyAll [] (v.rowTombstones.slice ckRange)) := by
  have early : ∀ rt ∈ applyAll [] (v.rowTombstones.slice ckRange), rt.start < ckRange.stop :=
    RangeTombstoneList.forall_start_applyAll (p := (· < ckRange.stop)) (hv.rowTombstones.slice ckRange) nofun
      fun rt hrt => (hv.rowTombstones.mem_slice.1 hrt).2.2
  exact (finishes_fetched isTop (merges_rowsOf hv ckRange) (fun e he => ⟨((mem_rowsOf hv.rows).1 he).2.1,
    placed_behind (forall_mem_singleton.2 hv.rows)⟩) none early).emits rfl rfl (fetchRow_new isTop hv)

theorem emits_ranges (hv : v.WellFormed) (older : List (MutationPartition Pos C)) (ckRange : ClusteringRange Pos) (rest : List (ClusteringRange Pos)) :
    ∃ fs, Emits (fill top (v :: older)) endOfStream (fun _ _ => True) (entering (ckRange :: rest)) fs
        (entering []) ∧
      Yields fs ((ckRange :: rest).flatMap fun r => shownRows (rowsOf v r))
        ((ckRange :: rest).flatMap fun r => applyAll [] (v.rowTombstones.slice r)) := by
  induction rest generalizing ckRange with
  | nil => simpa using emits_range isTop hv older ckRange []
  | cons next rest ih =>
    obtain ⟨fs, hfs, hy⟩ := emits_range isTop hv older ckRange (next :: rest)
    obtain ⟨gs, hgs, hy'⟩ := ih next
    exact ⟨fs ++ gs, hfs.trans hgs, hy.append hy'⟩

/-- However the reader is stopped and whatever moves meanwhile, it comes to the end of the stream, with the
partition tombstone and the static row of all versions, and the rows and range tombstones of the newest. -/
theorem emitted_eq (hv : v.WellFormed) (older : List (MutationPartition Pos C)) (ckRanges : List (ClusteringRange Pos))
    (changed : Nat → Bool) :
    ∃ n fs, (emitted top (v :: older) ckRanges changed n).1.endOfStream = true ∧
      (emitted top (v :: older) ckRanges changed n).2 = .partitionStart (partitionTombstone (v :: older)) ::
        (if (squashedStaticRow (v :: older)).empty then [] else [.staticRow (squashedStaticRow (v :: older))]) ++ fs ∧
      Yields fs (ckRanges.flatMap fun r => shownRows (rowsOf v r))
        (ckRanges.flatMap fun r => applyAll [] (v.rowTombstones.slice r)) := by
  cases ckRanges with
  | nil => exact ⟨0, [.partitionEnd], rfl, rfl, .partitionEnd⟩
  | cons ckRange rest =>
    obtain ⟨fs, hfs, hy⟩ := emits_ranges isTop hv older ckRange rest
    obtain ⟨n, hn⟩ := hfs.produce changed (start (v :: older) (ckRange :: rest)).2 fun _ _ => trivial
    have same : emitted top (v :: older) (ckRange :: rest) changed n = _ := hn
    refine ⟨n, fs, ?_, ?_, hy⟩
    · rw [same]
      rfl
    · rw [same]
      simp [start, onNewRange]

end FlatReader

end ScyllaMoon.Reader
