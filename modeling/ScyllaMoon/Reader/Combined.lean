import ScyllaMoon.Mutation.Absorb
import ScyllaMoon.Reader.Squashed

/-!
# Combined reads

A read of a partition combines the readers of several sources. Each source shows what its flat reader's
fragments merge to, brought to the schema of the query where the snapshot has another one, and the
combined reader merges what the sources show.
-/

namespace ScyllaMoon.Reader

open Lib Mutation List

variable {S Pos C : Type}

section Flat

variable [Position Pos] [CellOps C] {top : Iterators Pos C → Nat} {v : MutationPartition Pos C}
  {older : List (MutationPartition Pos C)} {ckRanges : List (ClusteringRange Pos)}

open RangeTombstoneList (applyAll slice)

/-- What the fragments of the flat reader merge to. -/
def flatContent (ckRanges : List (ClusteringRange Pos)) (v : MutationPartition Pos C)
    (older : List (MutationPartition Pos C)) : MutationPartition Pos C where
  tombstone := partitionTombstone (v :: older)
  staticRow := ({} : Row C).apply (squashedStaticRow (v :: older))
  rows := ckRanges.flatMap fun r => shownRows (rowsOf v r)
  rowTombstones := applyAll []
    (ckRanges.flatMap fun r => applyAll [] (v.rowTombstones.slice r))

open FlatReader (emitted)

theorem FlatReader.exists_rebuild_eq (isTop : IsTop top) (hv : ∀ q ∈ v :: older, q.WellFormed)
    (disjoint : ckRanges.Pairwise fun a b => a.stop ≤ b.start) (changed : Nat → Bool) :
    ∃ n, (emitted top (v :: older) ckRanges changed n).1.endOfStream = true ∧
      rebuild (emitted top (v :: older) ckRanges changed n).2 = flatContent ckRanges v older := by
  have first := hv v mem_cons_self
  obtain ⟨n, fs, done, eq, yields⟩ := FlatReader.emitted_eq isTop first older ckRanges changed
  have rebuilt := fun sr => rebuild_eq (wellFormed_partitionTombstone hv) sr yields (sorted_shownRows first disjoint)
  refine ⟨n, done, ?_⟩
  rw [eq]
  split
  next empty =>
    have none : ({} : Row C).apply (squashedStaticRow (v :: older)) = {} := by
      rw [Row.apply, isEmpty_iff.1 empty]
      rfl
    rw [flatContent, none]
    exact rebuilt .none
  · exact rebuilt (.some (squashedStaticRow (v :: older)))

/-- Whatever happens between the turns, the fragments merge to the same in the end. -/
theorem FlatReader.rebuild_emitted (isTop : IsTop top) (hv : ∀ q ∈ v :: older, q.WellFormed)
    (disjoint : ckRanges.Pairwise fun a b => a.stop ≤ b.start) {changed : Nat → Bool} {n : Nat}
    (done : (emitted top (v :: older) ckRanges changed n).1.endOfStream = true) :
    rebuild (emitted top (v :: older) ckRanges changed n).2 = flatContent ckRanges v older := by
  obtain ⟨m, done', eq⟩ := FlatReader.exists_rebuild_eq isTop hv disjoint changed
  have same : emitted top (v :: older) ckRanges changed n = emitted top (v :: older) ckRanges changed m :=
    produce_unique done done'
  rw [same, eq]

/-- Merging what a reader shows of `q` alone leaves `p` unchanged. -/
def AddsNothing (ckRanges : List (ClusteringRange Pos)) (p q : MutationPartition Pos C) : Prop :=
  p.merge (flatContent ckRanges q []) = p

variable {p : MutationPartition Pos C}

theorem addsNothing_empty (ht : p.tombstone.apply {} = p.tombstone)
    (ckRanges : List (ClusteringRange Pos)) : AddsNothing ckRanges p {} := by
  have rows : (ckRanges.flatMap fun r => shownRows (rowsOf ({} : MutationPartition Pos C) r)) = [] :=
    flatMap_eq_nil_iff.2 fun _ _ => rfl
  have rts : (ckRanges.flatMap fun r =>
      applyAll [] (slice [] r)) = [] :=
    flatMap_eq_nil_iff.2 fun _ _ => rfl
  unfold AddsNothing flatContent MutationPartition.merge
  simp only [rows, rts]
  exact congrArg (fun t => { p with tombstone := t }) ht

/-- Versions that add nothing each for itself add nothing together. -/
theorem AddsNothing.flatContent [LawfulCellOps C] (hp : p.staticRow.Sorted)
    (hv : ∀ q ∈ v :: older, q.WellFormed) (adds : ∀ q ∈ v :: older, AddsNothing ckRanges p q) :
    p.merge (flatContent ckRanges v older) = p := by
  have static : ∀ q ∈ v :: older, p.staticRow.Absorbs q.staticRow := by
    intro q hq
    have eq : p.staticRow.apply (({} : Row C).apply q.staticRow) = p.staticRow :=
      congrArg MutationPartition.staticRow (adds q hq)
    have absorbs := Row.absorbs_of_apply_eq_self hp (Row.sorted_empty.apply q.staticRow 0) eq
    unfold Row.Absorbs at absorbs ⊢
    rwa [(hv q hq).staticRow.cells_apply_empty rfl 0] at absorbs
  have tombstone : ∀ q ∈ v :: older, p.tombstone.apply q.tombstone = p.tombstone := fun q hq =>
    congrArg MutationPartition.tombstone (adds q hq)
  obtain ⟨first, rest⟩ := forall_mem_cons.1 static
  obtain ⟨firstT, restT⟩ := forall_mem_cons.1 tombstone
  have sumStatic : p.staticRow.Absorbs (squashedStaticRow (v :: older)) :=
    foldlRecOn older _ first fun _ hr q hq => hr.apply (rest q hq)
  have sumTombstone : p.tombstone.apply (partitionTombstone (v :: older)) = p.tombstone :=
    foldlRecOn (motive := fun t => p.tombstone.apply t = p.tombstone) older _ firstT
      fun _ ht q hq => Tombstone.absorbs_apply ht (restT q hq)
  have rows := congrArg MutationPartition.rows (adds v mem_cons_self)
  have rts := congrArg MutationPartition.rowTombstones (adds v mem_cons_self)
  have cells : p.staticRow.apply (({} : Row C).apply (squashedStaticRow (v :: older))) = p.staticRow := by
    refine Row.Absorbs.apply_eq_self hp ?_
    unfold Row.Absorbs
    rw [(sorted_squashedStaticRow (hv v mem_cons_self)).cells_apply_empty rfl 0]
    exact sumStatic
  simp only [MutationPartition.merge, Reader.flatContent] at rows rts ⊢
  rw [sumTombstone, cells, rows, rts]

end Flat

section Sources

variable [Position Pos] [CellOps C] [SchemaOps S C]

/-- `schema_upgrader::transform` -/
def transformRow (oldSchema newSchema : S) (kind : ColumnKind) (r : Row C) : Row C :=
  r.cells.foldl (fun dst p => match SchemaOps.convert oldSchema newSchema kind p.1 p.2 with
    | some (id, c) => dst.appendCell id c
    | none => dst) {}

/-- `schema_upgrader::consume` -/
def upgradeFragment (oldSchema newSchema : S) : Fragment Pos C → Fragment Pos C
  | .staticRow r => .staticRow (transformRow oldSchema newSchema .static r)
  | .clusteringRow position row =>
    .clusteringRow position { row with cells := transformRow oldSchema newSchema .regular row.cells }
  | f => f

/-- What a query with schema `s` gets from the flat reader of a snapshot, given as the schema of the
snapshot and its versions. -/
def Shows (top : Iterators Pos C → Nat) (s : S) (ckRanges : List (ClusteringRange Pos))
    (r : S × List (MutationPartition Pos C)) (p : MutationPartition Pos C) : Prop :=
  ∃ changed n, (FlatReader.emitted top r.2 ckRanges changed n).1.endOfStream = true ∧
    p = rebuild (if SchemaOps.version C r.1 ≠ SchemaOps.version C s
      then (FlatReader.emitted top r.2 ckRanges changed n).2.map (upgradeFragment r.1 s)
      else (FlatReader.emitted top r.2 ckRanges changed n).2)

/-- What `make_combined_reader` returns for these snapshots and for what the cache has of the partition. -/
def Combined (top : Iterators Pos C → Nat) (s : S) (ckRanges : List (ClusteringRange Pos))
    (cached : MutationPartition Pos C) (readers : List (S × List (MutationPartition Pos C)))
    (p : MutationPartition Pos C) : Prop :=
  ∃ ps : List (MutationPartition Pos C), List.Forall₂ (Shows top s ckRanges) readers ps ∧
    p = (ps.foldl (fun (sum q : MutationPartition Pos C) => sum.merge q) {}).merge cached

/-- The snapshot has the schema of the query, and versions, which are well-formed. -/
def Current (s : S) (r : S × List (MutationPartition Pos C)) : Prop :=
  SchemaOps.version C r.1 = SchemaOps.version C s ∧ r.2 ≠ [] ∧ ∀ q ∈ r.2, q.WellFormed

omit [SchemaOps S C] in
/-- What the reader of a current snapshot shows. -/
def content (ckRanges : List (ClusteringRange Pos)) : S × List (MutationPartition Pos C) → MutationPartition Pos C
  | (_, v :: older) => flatContent ckRanges v older
  | (_, []) => {}

omit [SchemaOps S C] in
/-- What the snapshots show together. -/
def sumOf (ckRanges : List (ClusteringRange Pos)) (readers : List (S × List (MutationPartition Pos C))) :
    MutationPartition Pos C :=
  readers.foldl (fun p r => p.merge (content ckRanges r)) {}

variable {top : Iterators Pos C → Nat} {s : S} {ckRanges : List (ClusteringRange Pos)}
  {readers : List (S × List (MutationPartition Pos C))}

theorem shows_iff (isTop : IsTop top) (disjoint : ckRanges.Pairwise fun a b => a.stop ≤ b.start)
    {r : S × List (MutationPartition Pos C)} (current : Current s r) {p : MutationPartition Pos C} :
    Shows top s ckRanges r p ↔ p = content ckRanges r := by
  obtain ⟨σ, versions⟩ := r
  obtain ⟨version, nonempty, hv⟩ := current
  obtain ⟨v, older, rfl⟩ := exists_cons_of_ne_nil nonempty
  simp only [Shows, version, ne_eq, not_true_eq_false, if_false]
  constructor
  · rintro ⟨changed, n, done, rfl⟩
    exact FlatReader.rebuild_emitted isTop hv disjoint done
  · rintro rfl
    obtain ⟨n, done, eq⟩ := FlatReader.exists_rebuild_eq isTop hv disjoint fun _ => false
    exact ⟨fun _ => false, n, done, eq.symm⟩

/-- A combined read of current snapshots has one result. -/
theorem combined_iff (isTop : IsTop top) (disjoint : ckRanges.Pairwise fun a b => a.stop ≤ b.start)
    (current : ∀ r ∈ readers, Current s r) (cached : MutationPartition Pos C) {p : MutationPartition Pos C} :
    Combined top s ckRanges cached readers p ↔ p = (sumOf ckRanges readers).merge cached := by
  have shown : ∀ ps, List.Forall₂ (Shows top s ckRanges) readers ps ↔ ps = readers.map (content ckRanges) := by
    induction readers with
    | nil => simp
    | cons r readers ih =>
      obtain ⟨hr, current⟩ := forall_mem_cons.1 current
      intro ps
      rw [forall₂_cons_left_iff, map_cons]
      simp only [ih current, shows_iff isTop disjoint hr]
      constructor
      · rintro ⟨_, _, rfl, rfl, rfl⟩
        rfl
      · rintro rfl
        exact ⟨_, _, rfl, rfl, rfl⟩
  simp only [Combined, shown, exists_eq_left, foldl_map, sumOf]

omit [SchemaOps S C] in
theorem sorted_sumOf (ckRanges : List (ClusteringRange Pos)) (readers : List (S × List (MutationPartition Pos C))) :
    (sumOf ckRanges readers).staticRow.Sorted :=
  foldlRecOn (motive := fun p : MutationPartition Pos C => p.staticRow.Sorted) readers _ Row.sorted_empty
    fun _ hp _ _ => hp.apply _ 0

theorem tombstone_sumOf (current : ∀ r ∈ readers, Current s r) (ckRanges : List (ClusteringRange Pos)) :
    (sumOf ckRanges readers).tombstone.apply {} = (sumOf ckRanges readers).tombstone := by
  refine Tombstone.apply_empty_right (foldlRecOn (motive := fun p : MutationPartition Pos C =>
    Tombstone.apply {} p.tombstone = p.tombstone) readers _ rfl fun p hp r hr => ?_)
  obtain ⟨σ, versions⟩ := r
  obtain ⟨-, nonempty, hv⟩ := current _ hr
  obtain ⟨v, older, rfl⟩ := exists_cons_of_ne_nil nonempty
  rcases Tombstone.apply_choice p.tombstone (content ckRanges (σ, v :: older)).tombstone with h | h
  · exact (congrArg (Tombstone.apply {}) h).trans (hp.trans h.symm)
  · exact (congrArg (Tombstone.apply {}) h).trans ((wellFormed_partitionTombstone hv).trans h.symm)

/-- More snapshots whose versions add nothing do not change the sum. -/
theorem sumOf_append [LawfulCellOps C] {new : List (S × List (MutationPartition Pos C))}
    (current : ∀ r ∈ new, Current s r) (adds : ∀ r ∈ new, ∀ q ∈ r.2, AddsNothing ckRanges (sumOf ckRanges readers) q) :
    sumOf ckRanges (readers ++ new) = sumOf ckRanges readers := by
  rw [sumOf, foldl_append, ← sumOf]
  refine foldlRecOn (motive := (· = sumOf ckRanges readers)) new _ rfl fun p hp r hr => ?_
  obtain ⟨σ, versions⟩ := r
  obtain ⟨-, nonempty, hv⟩ := current _ hr
  obtain ⟨v, older, rfl⟩ := exists_cons_of_ne_nil nonempty
  rw [hp]
  exact AddsNothing.flatContent (sorted_sumOf ckRanges readers) hv (adds _ hr)

end Sources

end ScyllaMoon.Reader
