import ScyllaMoon.Mutation.Reconcile

/-!
# Fragments and row iterators

What the two snapshot readers share: the fragments they emit, the stream that holds back range
tombstones, and the heap of row iterators, one for each version that has rows left. An iterator is the
list of the rows from `_position` to `_end`. Which of two iterators at the same position is on top of
the heap is up to `std::make_heap`, so `top` is a parameter.
-/

namespace ScyllaMoon.Reader

open Lib Mutation List

variable {Pos C : Type}

/-- `mutation_fragment` -/
inductive Fragment (Pos C : Type) where
  | partitionStart (tomb : Tombstone)
  | staticRow (row : Row C)
  | clusteringRow (position : Pos) (row : DeletableRow C)
  | rangeTombstone (rt : RangeTombstone Pos)
  | partitionEnd

/-- A partition that holds one fragment. -/
def Fragment.partition : Fragment Pos C → MutationPartition Pos C
  | .partitionStart tomb => { tombstone := tomb }
  | .staticRow r => { staticRow := r }
  | .clusteringRow position row => { rows := [{ position, row }] }
  | .rangeTombstone rt => { rowTombstones := [rt] }
  | .partitionEnd => {}

/-- The fragments merged into a partition, one after the other. -/
def mergeFragments [Position Pos] [CellOps C] (p : MutationPartition Pos C) (fs : List (Fragment Pos C)) :
    MutationPartition Pos C :=
  fs.foldl (fun p f => p.merge f.partition) p

/-- The partition that the fragments merge to. -/
def rebuild [Position Pos] [CellOps C] (fs : List (Fragment Pos C)) : MutationPartition Pos C :=
  mergeFragments {} fs

/-- `clustering_row(const rows_entry&)` -/
def clusteringRow (e : RowsEntry Pos C) : DeletableRow C :=
  { e.row with deletedAt := e.row.deletedAt.maybeShadow e.row.marker }

/-- `clustering_row::apply(schema, const rows_entry&)` -/
def applyEntry [CellOps C] (r : DeletableRow C) (e : RowsEntry Pos C) : DeletableRow C :=
  let marker := r.marker.apply e.row.marker
  { marker, deletedAt := r.deletedAt.apply e.row.deletedAt marker, cells := r.cells.apply e.row.cells }

/-- `range_tombstone_stream::get_next`: the first range tombstone, if its position is early enough. -/
def getNext (early : Pos → Bool) : RangeTombstoneList Pos → Option (RangeTombstone Pos × RangeTombstoneList Pos)
  | [] => none
  | rt :: l => if early rt.start then some (rt, l) else none

/-- Of each version, the rows that are left -/
abbrev Iterators (Pos C : Type) := List (List (RowsEntry Pos C))

section Iterators

variable [LinearOrder Pos]

/-- The rows of a version from `lower_bound` to `upper_bound` of the range. -/
def rowsOf (v : MutationPartition Pos C) (range : ClusteringRange Pos) : List (RowsEntry Pos C) :=
  (v.rows.dropWhile fun e => decide (e.position < range.start)).takeWhile fun e => decide (e.position < range.stop)

/-- The rows of a version behind the last one emitted, up to `upper_bound` of the range. Without a last
row the static row was emitted last, which is in front of all rows. -/
def rowsAfter (v : MutationPartition Pos C) (range : ClusteringRange Pos) (last : Option Pos) : List (RowsEntry Pos C) :=
  (v.rows.dropWhile fun e => last.any fun p => decide (e.position ≤ p)).takeWhile fun e => decide (e.position < range.stop)

/-- `_clustering_rows`: an iterator is only kept if it has rows. -/
def iterators (rows : Iterators Pos C) : Iterators Pos C :=
  rows.filter fun l => !l.isEmpty

variable (top : Iterators Pos C → Nat)

/-- `pop_clustering_row` -/
def popClusteringRow (rows : Iterators Pos C) : Option (RowsEntry Pos C × Iterators Pos C) :=
  match rows[top rows]? with
  | some (e :: es) => some (e, if es.isEmpty then rows.eraseIdx (top rows) else rows.set (top rows) es)
  | _ => none

/-- Merges the rows of other versions at the position of the row that was popped. There are at most
`fuel` rows. -/
def absorb [CellOps C] (position : Pos) : (fuel : Nat) → DeletableRow C → Iterators Pos C →
    DeletableRow C × Iterators Pos C
  | 0, row, rows => (row, rows)
  | fuel + 1, row, rows =>
    match popClusteringRow top rows with
    | none => (row, rows)
    | some (e, rest) => if e.position = position then absorb position fuel (applyEntry row e) rest else (row, rows)

/-- The number of rows left. -/
def rowCount (rows : Iterators Pos C) : Nat := (rows.map length).sum

/-- What `std::make_heap` and `std::pop_heap` promise: no iterator is at an earlier position than the one
on top. -/
def IsTop : Prop := ∀ rows : Iterators Pos C, rows ≠ [] → ∃ l, rows[top rows]? = some l ∧
  ∀ e ∈ l.head?, ∀ l' ∈ rows, ∀ e' ∈ l'.head?, e.position ≤ e'.position

end Iterators

/-- The row in a fragment. -/
def Fragment.row? : Fragment Pos C → Option (RowsEntry Pos C)
  | .clusteringRow position row => some { position, row }
  | _ => none

/-- The range tombstone in a fragment. -/
def Fragment.rangeTombstone? : Fragment Pos C → Option (RangeTombstone Pos)
  | .rangeTombstone rt => some rt
  | _ => none

/-- The fragments behind the static row hold these rows and range tombstones, in this order. -/
structure Yields (fs : List (Fragment Pos C)) (rows : List (RowsEntry Pos C)) (rts : RangeTombstoneList Pos) : Prop where
  rows : fs.filterMap Fragment.row? = rows
  rts : fs.filterMap Fragment.rangeTombstone? = rts
  body : ∀ f ∈ fs, f.partition.tombstone = {} ∧ f.partition.staticRow = {}

namespace Yields

theorem nil : Yields ([] : List (Fragment Pos C)) [] [] := ⟨rfl, rfl, by simp⟩

theorem partitionEnd : Yields [(.partitionEnd : Fragment Pos C)] [] [] := ⟨rfl, rfl, by simp [Fragment.partition]⟩

theorem rangeTombstone (rt : RangeTombstone Pos) : Yields [(.rangeTombstone rt : Fragment Pos C)] [] [rt] :=
  ⟨rfl, rfl, by simp [Fragment.partition]⟩

theorem clusteringRow (position : Pos) (row : DeletableRow C) :
    Yields [.clusteringRow position row] [{ position, row }] [] :=
  ⟨rfl, rfl, by simp [Fragment.partition]⟩

theorem append {fs gs : List (Fragment Pos C)} {rows rows' : List (RowsEntry Pos C)} {rts rts' : RangeTombstoneList Pos}
    (h : Yields fs rows rts) (h' : Yields gs rows' rts') : Yields (fs ++ gs) (rows ++ rows') (rts ++ rts') :=
  ⟨by rw [filterMap_append, h.rows, h'.rows], by rw [filterMap_append, h.rts, h'.rts],
    forall_mem_append.2 ⟨h.body, h'.body⟩⟩

end Yields

/-- An entry as it is emitted. -/
def shown (e : RowsEntry Pos C) : RowsEntry Pos C := { position := e.position, row := clusteringRow e }

/-- The rows of a list of entries that are emitted. -/
def shownRows (es : List (RowsEntry Pos C)) : List (RowsEntry Pos C) :=
  (es.filter fun e => !e.dummy).map shown

section Rows

variable [LinearOrder Pos] {v : MutationPartition Pos C}

open RowsEntry (position)

theorem rowsOf_eq (sorted : Sorted position v.rows) (range : ClusteringRange Pos) :
    rowsOf v range = v.rows.filter fun e => decide (range.start ≤ e.position) && decide (e.position < range.stop) := by
  rw [rowsOf, takeWhile_dropWhile (sorted.imp fun hab hb => decide_eq_true (hab.trans (of_decide_eq_true hb)))
    (sorted.imp fun hab hb => decide_eq_true (hab.trans (of_decide_eq_true hb)))]
  exact filter_congr fun e _ => by rw [← decide_not, decide_eq_decide.2 not_lt]

variable {e : RowsEntry Pos C} {range : ClusteringRange Pos}

section

variable (sorted : Sorted position v.rows)
include sorted

theorem mem_rowsOf : e ∈ rowsOf v range ↔ e ∈ v.rows ∧ range.start ≤ e.position ∧ e.position < range.stop := by
  rw [rowsOf_eq sorted]
  simp

theorem sorted_rowsOf (range : ClusteringRange Pos) : Sorted position (rowsOf v range) :=
  sorted.sublist ((takeWhile_sublist _).trans (dropWhile_sublist _))

theorem rowsAfter_eq (range : ClusteringRange Pos) (p : Pos) : rowsAfter v range (some p) =
      v.rows.filter fun e => decide (p < e.position) && decide (e.position < range.stop) := by
  simp only [rowsAfter, Option.any_some]
  rw [takeWhile_dropWhile (sorted.imp fun hab hb => decide_eq_true (hab.le.trans (of_decide_eq_true hb)))
    (sorted.imp fun hab hb => decide_eq_true (hab.trans (of_decide_eq_true hb)))]
  exact filter_congr fun e _ => by rw [← decide_not, decide_eq_decide.2 not_le]

end

end Rows

section Heap

open RowsEntry (position)

variable {its : Iterators Pos C}

/-- What becomes of lists that have nothing left to begin with does not matter. -/
theorem iterators_map_iterators {f : List (RowsEntry Pos C) → List (RowsEntry Pos C)} (nil : f [] = []) :
    iterators ((iterators its).map f) = iterators (its.map f) := by
  unfold iterators
  rw [filter_map, filter_map, filter_filter]
  refine congrArg (map f) (filter_congr fun l _ => ?_)
  cases l with
  | nil => simp [nil]
  | cons => simp

variable [LinearOrder Pos]

/-- The iterators when all rows up to a position are popped. -/
def behind (p : Pos) (its : Iterators Pos C) : Iterators Pos C :=
  iterators (its.map (filter fun e => decide (p < e.position)))

theorem flatten_behind (p : Pos) :
    (behind p its).flatten = its.flatten.filter fun e => decide (p < e.position) := by
  rw [behind, iterators, flatten_filter_not_isEmpty, filter_flatten]

theorem behind_behind {p q : Pos} (le : p ≤ q) : behind q (behind p its) = behind q its := by
  unfold behind
  rw [iterators_map_iterators rfl, map_map]
  refine congrArg iterators (map_congr_left fun l _ => ?_)
  rw [Function.comp_apply, filter_filter]
  exact filter_congr fun e _ => by simpa using le.trans_lt

/-- Each iterator has rows left, and they are in order. -/
structure Ready (its : Iterators Pos C) : Prop where
  left : ∀ l ∈ its, l ≠ []
  sorted : ∀ l ∈ its, Sorted position l

theorem ready_iterators (sorted : ∀ l ∈ its, Sorted position l) : Ready (iterators its) :=
  ⟨fun l hl => by simpa using (mem_filter.1 hl).2, fun l hl => sorted l (mem_filter.1 hl).1⟩

namespace Ready

theorem iterators_eq (ready : Ready its) : iterators its = its :=
  filter_eq_self.2 fun l hl => by simpa using ready.left l hl

theorem behind (ready : Ready its) (p : Pos) : Ready (behind p its) :=
  ready_iterators (forall_mem_map.2 fun l hl => (ready.sorted l hl).sublist filter_sublist)

theorem behind_eq (ready : Ready its) {p : Pos} (after : ∀ e ∈ its.flatten, p < e.position) :
    Reader.behind p its = its := by
  have same : its.map (filter fun e => decide (p < e.position)) = its := by
    nth_rewrite 2 [← map_id its]
    refine map_congr_left fun l hl => filter_eq_self.2 fun e he => ?_
    simpa using after e (mem_flatten_of_mem hl he)
  rw [Reader.behind, same, ready.iterators_eq]

end Ready

/-- The first row of an iterator, which no row is in front of, and the iterators without it. -/
structure Pops (its : Iterators Pos C) (e : RowsEntry Pos C) (rest : Iterators Pos C) :
    Prop where
  ready : Ready rest
  perm : (e :: rest.flatten).Perm its.flatten
  least : ∀ a ∈ its.flatten, e.position ≤ a.position
  behind : ∀ p, e.position ≤ p → behind p rest = behind p its

namespace Ready

variable {top : Iterators Pos C → Nat} (isTop : IsTop top) (ready : Ready its)
include isTop ready

theorem popClusteringRow (left : its ≠ []) :
    ∃ e rest, popClusteringRow top its = some (e, rest) ∧ Pops its e rest := by
  obtain ⟨l, at_top, least⟩ := isTop its left
  obtain ⟨e, es, rfl⟩ := exists_cons_of_ne_nil (ready.left l (mem_of_getElem? at_top))
  obtain ⟨lt, get⟩ := List.getElem?_eq_some_iff.1 at_top
  obtain ⟨xs, ys, rfl, pop⟩ : ∃ xs ys, its = xs ++ (e :: es) :: ys ∧
      Reader.popClusteringRow top its = some (e, iterators (xs ++ es :: ys)) := by
    have kept {ls : Iterators Pos C} (sub : ls.Sublist its) : ls.filter (fun l => !l.isEmpty) = ls :=
      filter_eq_self.2 fun l hl => by simpa using ready.left l (sub.subset hl)
    refine ⟨its.take (top its), its.drop (top its + 1), by rw [← get, getElem_cons_drop, take_append_drop], ?_⟩
    rw [Reader.popClusteringRow, at_top, iterators, filter_append, filter_cons, kept (take_sublist ..),
      kept (drop_sublist ..)]
    cases es with
    | nil => simp [eraseIdx_eq_take_drop_succ]
    | cons => simp [set_eq_take_append_cons_drop, lt]
  have sorted := ready.sorted
  simp only [forall_mem_append, forall_mem_cons] at sorted
  refine ⟨e, _, pop, ready_iterators ?_, ?_, fun a ha => ?_, fun p le => ?_⟩
  · simp only [forall_mem_append, forall_mem_cons]
    exact ⟨sorted.1, sorted.2.1.of_cons, sorted.2.2⟩
  · rw [iterators, flatten_filter_not_isEmpty, flatten_append, flatten_append]
    exact perm_middle.symm
  · obtain ⟨l, hl, ha⟩ := mem_flatten.1 ha
    obtain ⟨b, bs, rfl⟩ := exists_cons_of_ne_nil (ready.left l hl)
    refine (least e rfl _ hl b rfl).trans ?_
    rcases mem_cons.1 ha with rfl | ha
    · exact le_rfl
    · exact ((pairwise_cons.1 (ready.sorted _ hl)).1 a ha).le
  · rw [Reader.behind, iterators_map_iterators rfl, Reader.behind]
    simp [le]

/-- The rows at the position are merged in some order, and those behind it are left. -/
theorem absorb [CellOps C] {p : Pos} (le : ∀ e ∈ its.flatten, p ≤ e.position) {fuel : Nat}
    (enough : its.flatten.length ≤ fuel) (row : DeletableRow C) : ∃ es : List (RowsEntry Pos C),
      es.Perm (its.flatten.filter fun e => decide (e.position = p)) ∧
      absorb top p fuel row its = (es.foldl applyEntry row, Reader.behind p its) := by
  induction fuel generalizing its row with
  | zero =>
    have none := eq_nil_of_length_eq_zero (Nat.le_zero.1 enough)
    exact ⟨[], by simp [none], by rw [ready.behind_eq (by simp [none])]; rfl⟩
  | succ fuel ih =>
    by_cases left : its = []
    · subst left
      exact ⟨[], .nil, rfl⟩
    obtain ⟨e, rest, pop, pops⟩ := ready.popClusteringRow isTop left
    rw [Reader.absorb, pop]
    dsimp only
    split
    next here =>
      have fewer := pops.perm.length_eq
      obtain ⟨es, perm, eq⟩ := ih pops.ready (fun a ha => le a (pops.perm.subset (mem_cons_of_mem _ ha)))
        (by rw [length_cons] at fewer; omega) (applyEntry row e)
      refine ⟨e :: es, ?_, ?_⟩
      · have all := pops.perm.filter fun a => decide (a.position = p)
        rw [filter_cons_of_pos (by simpa using here)] at all
        exact (perm.cons e).trans all
      · rw [eq, foldl_cons, pops.behind p here.le]
    next ahead =>
      have after : ∀ a ∈ its.flatten, p < a.position := fun a ha =>
        ((le e (pops.perm.subset mem_cons_self)).lt_of_ne' ahead).trans_le (pops.least a ha)
      refine ⟨[], ?_, by rw [ready.behind_eq after]; rfl⟩
      rw [filter_eq_nil_iff.2 fun a ha => by simpa using (after a ha).ne']

end Ready

/-- Looking up the place behind the last row of the range finds these iterators. -/
def Placed (versions : List (MutationPartition Pos C)) (ckRange : ClusteringRange Pos) (last : Option Pos)
    (its : Iterators Pos C) : Prop :=
  ∀ p, last = some p → ckRange.start ≤ p → iterators (versions.map (rowsAfter · ckRange (some p))) = its

theorem placed_behind {versions : List (MutationPartition Pos C)} (hv : ∀ q ∈ versions, Sorted position q.rows)
    {ckRange : ClusteringRange Pos} {p : Pos} :
    Placed versions ckRange (some p) (behind p (iterators (versions.map (rowsOf · ckRange)))) := by
  rintro _ ⟨⟩ le
  rw [behind, iterators_map_iterators rfl, map_map]
  refine congrArg iterators (map_congr_left fun q hq => ?_)
  rw [Function.comp_apply, rowsOf_eq (hv q hq), rowsAfter_eq (hv q hq), filter_filter]
  refine filter_congr fun e _ => ?_
  by_cases after : p < e.position
  · simp [after, le.trans after.le]
  · simp [after]

variable [CellOps C] {es : List (RowsEntry Pos C)}

/-- The rows that the iterators have left merge to these, in whatever order those of one position come. -/
structure Merges (its : Iterators Pos C) (es : List (RowsEntry Pos C)) : Prop where
  ready : Ready its
  real : (∀ a ∈ its.flatten, a.dummy = false) ∧ ∀ e ∈ es, e.dummy = false
  sorted : Sorted position es
  positions : ∀ x, (∃ a ∈ its.flatten, a.position = x) ↔ ∃ e ∈ es, e.position = x
  rows : ∀ e ∈ es, ∀ a l, (a :: l).Perm (its.flatten.filter fun a => decide (a.position = e.position)) →
    l.foldl applyEntry (clusteringRow a) = clusteringRow e

namespace Merges

theorem eq_nil (merges : Merges its []) : its = [] :=
  eq_nil_iff_forall_not_mem.2 fun l hl => by
    obtain ⟨a, ha⟩ := exists_mem_of_ne_nil l (merges.ready.left l hl)
    simpa using (merges.positions a.position).1 ⟨a, mem_flatten_of_mem hl ha, rfl⟩

variable {e : RowsEntry Pos C}

theorem behind (merges : Merges its (e :: es)) : Merges (behind e.position its) es := by
  obtain ⟨after, sorted⟩ := pairwise_cons.1 merges.sorted
  refine ⟨merges.ready.behind _, ⟨?_, (forall_mem_cons.1 merges.real.2).2⟩, sorted, fun x => ?_, fun e' he' a l perm => ?_⟩
  · rw [flatten_behind]
    exact fun a ha => merges.real.1 a (mem_of_mem_filter ha)
  · have positions := merges.positions x
    rw [flatten_behind]
    grind
  · refine merges.rows e' (mem_cons_of_mem _ he') a l (perm.trans (.of_eq ?_))
    rw [flatten_behind, filter_filter]
    exact filter_congr fun a _ => by simpa using fun here : a.position = e'.position => here ▸ after e' he'

theorem next {top : Iterators Pos C → Nat} (isTop : IsTop top) (merges : Merges its (e :: es)) :
    ∃ a its', popClusteringRow top its = some (a, its') ∧ a.dummy = false ∧
    a.position = e.position ∧ ∃ n, rowCount its = n + 1 ∧
      absorb top e.position n (clusteringRow a) its' = (clusteringRow e, Reader.behind e.position its) := by
  obtain ⟨b, hb, first⟩ := (merges.positions e.position).2 ⟨e, mem_cons_self, rfl⟩
  obtain ⟨a, its', pop, pops⟩ := merges.ready.popClusteringRow isTop fun none => by simp [none] at hb
  have mem := pops.perm.subset mem_cons_self
  have here : a.position = e.position := by
    refine (first ▸ pops.least b hb).antisymm ?_
    obtain ⟨e', he', same⟩ := (merges.positions a.position).1 ⟨a, mem, rfl⟩
    rcases mem_cons.1 he' with rfl | he'
    · exact same.le
    · exact (same ▸ (pairwise_cons.1 merges.sorted).1 e' he').le
  obtain ⟨hs, perm, absorbed⟩ := pops.ready.absorb isTop
    (fun b hb => here ▸ pops.least b (pops.perm.subset (mem_cons_of_mem _ hb))) le_rfl (clusteringRow a)
  refine ⟨a, its', pop, merges.real.1 a mem, here, its'.flatten.length, ?_, ?_⟩
  · rw [rowCount, ← length_flatten, ← pops.perm.length_eq, length_cons]
  · have all := pops.perm.filter fun b => decide (b.position = e.position)
    rw [filter_cons_of_pos (by simpa using here)] at all
    rw [absorbed, merges.rows e mem_cons_self a hs ((perm.cons a).trans all), pops.behind _ here.le]

end Merges

/-- The rows of one version are what they merge to. -/
theorem merges_rowsOf {v : MutationPartition Pos C} (hv : v.WellFormed) (range : ClusteringRange Pos) :
    Merges (iterators [rowsOf v range]) (rowsOf v range) := by
  have sorted := sorted_rowsOf hv.rows range
  have real : ∀ e ∈ rowsOf v range, e.dummy = false := fun e he => (hv.entries e ((mem_rowsOf hv.rows).1 he).1).2
  have flat : (iterators [rowsOf v range]).flatten = rowsOf v range := by
    rw [iterators, flatten_filter_not_isEmpty, flatten_singleton]
  refine ⟨ready_iterators (forall_mem_singleton.2 sorted), ⟨flat.symm ▸ real, real⟩, sorted, fun x => by rw [flat],
    fun e he a l perm => ?_⟩
  rw [flat, sorted.filter_eq, sorted.mem_iff_find?.1 he] at perm
  obtain ⟨rfl, rfl⟩ := List.cons.inj (perm_singleton.1 perm)
  rfl

end Heap

variable [LinearOrder Pos] (v : MutationPartition Pos C) (older : List (MutationPartition Pos C)) (r : ClusteringRange Pos)

open RangeTombstoneList

/-- `partition_snapshot::range_tombstones`, of the versions that the snapshot covers -/
def rangeTombstones : RangeTombstoneList Pos :=
  if older.isEmpty then v.rowTombstones.slice r
  else slice (applyAll [] ((v :: older).flatMap fun p => p.rowTombstones.slice r)) r

/-- The range tombstones of a snapshot are disjoint, overlap the range, and delete at each position of it what the
version with the greatest tombstone there does. -/
theorem range_tombstones_exact (h : ∀ p ∈ v :: older, p.rowTombstones.WellFormed) :
    WellFormed (rangeTombstones v older r) ∧ (∀ rt ∈ rangeTombstones v older r, r.start < rt.stop ∧ rt.start < r.stop) ∧
    ∀ x, r.start ≤ x → x < r.stop → ∀ t, (rangeTombstones v older r).tombstoneAt x = some t ↔
      (∃ p ∈ v :: older, p.rowTombstones.tombstoneAt x = some t) ∧
      ∀ p ∈ v :: older, ∀ u, p.rowTombstones.tombstoneAt x = some u → u ≤ t := by
  unfold rangeTombstones
  split
  next one =>
    have wf := h v mem_cons_self
    refine ⟨wf.slice r, fun rt hrt => (wf.mem_slice.1 hrt).2, fun x hx hx' t => ?_⟩
    rw [wf.tombstoneAt_slice ⟨hx, hx'⟩, isEmpty_iff.1 one]
    simp +contextual
  · have slices := fun p hp => (h p hp).slice r
    have wf := wellFormed_nil.applyAll (forall_mem_flatMap.2 fun p hp => (slices p hp).proper)
    refine ⟨wf.slice r, fun rt hrt => (wf.mem_slice.1 hrt).2, fun x hx hx' t => ?_⟩
    have same := filterMap_congr fun p hp => (h p hp).tombstoneAt_slice (r := r) ⟨hx, hx'⟩
    rw [wf.tombstoneAt_slice ⟨hx, hx'⟩, tombstoneAt_applyAll_flatMap wellFormed_nil slices, same, tombstoneAt_nil,
      Option.toList_none, nil_append, max?_eq_some_iff]
    simp only [mem_filterMap, forall_exists_index, and_imp]
    exact and_congr_right' ⟨fun le p hp u hu => le u p hp hu, fun le u p hp hu => le p hp u hu⟩

theorem range_tombstones_exact_two : (rangeTombstones ({ rowTombstones := [⟨1, 5, ⟨7, 0⟩⟩] } : MutationPartition Nat Nat)
    [{ rowTombstones := [⟨3, 6, ⟨8, 0⟩⟩] }] ⟨2, 4⟩).tombstoneAt 3 = some ⟨8, 0⟩ :=
  ((range_tombstones_exact _ _ _ (by simp [wellFormed_cons, wellFormed_nil])).2.2 3 (by decide) (by decide) _).2
    (by simp [tombstoneAt_cons, RangeTombstone.Covers]; decide)

end ScyllaMoon.Reader
