import ScyllaMoon.Mutation.Reversible
import ScyllaMoon.Mvcc.Served
import ScyllaMoon.Mvcc.Tagging

/-!
# The version that a cell carries

A client takes the version of a key from the `most_recent_version` of the cells it gets. A tagged write puts its number
into one cell only, and a merge in which a cell of an older version is the greater one puts in what was handed on, which
is `0` when versions are squashed. As long as the writes bring nothing but that one cell, and each is at least as great
as those before, every cell carries the number of the version it was written in.
-/

namespace ScyllaMoon.Mutation

open Lib List

variable {S Pos Key Id : Type} [Position Pos] [LinearOrder Key] [LinearOrder Id]

namespace MutationPartition

/-- All cells of a partition -/
def allCells {C : Type} (p : MutationPartition Pos C) : List C :=
  (p.staticRow.cells ++ p.rows.flatMap fun e => e.row.cells.cells).map Prod.snd

open Position (emptyKey)

/-- The cells of the row of the empty clustering key -/
def firstCells {C : Type} (p : MutationPartition Pos C) : List (ColumnId × C) := (p.rowAt emptyKey).cells.cells

/-- It has no cells but atomic ones of the first column, in the row of the empty clustering key. -/
structure FirstColumnOnly (p : ColumnPartition Pos Key Id) : Prop where
  staticRow : p.staticRow.cells = []
  elsewhere : ∀ x, x ≠ emptyKey → (p.rowAt x).cells.cells = []
  first : ∀ c ∈ p.firstCells, c.1 = 0 ∧ ∃ a, c.2.data = .atomic a

/-- None of its first cells is replaced by one of `q`. -/
def NotBeaten (p q : ColumnPartition Pos Key Id) : Prop :=
  ∀ c ∈ p.firstCells, ∀ d ∈ q.firstCells, ∀ a b, c.2.data = .atomic a → d.2.data = .atomic b → a.compareForMerge b ≠ .lt

variable {p q : ColumnPartition Pos Key Id}

open RowsEntry (position)

theorem FirstColumnOnly.mem_firstCells (h : p.FirstColumnOnly) (sorted : Sorted position p.rows)
    {c : ColumnCell Key Id} (hc : c ∈ p.allCells) : (0, c) ∈ p.firstCells := by
  obtain ⟨d, hd, rfl⟩ := mem_map.1 hc
  rw [h.staticRow, nil_append, mem_flatMap] at hd
  obtain ⟨e, he, hd⟩ := hd
  rw [← rowAt_of_mem sorted he] at hd
  by_cases first : e.position = emptyKey
  · rw [first] at hd
    have zero := (h.first d hd).1
    rwa [← zero]
  · rw [h.elsewhere e.position first] at hd
    cases hd

section Merge

variable {r : Row (ColumnCell Key Id)}

/-- A cell that is not less stays, whatever the storage. -/
theorem cells_applyCell_of_not_lt {c d : ColumnCell Key Id} {l : List (ColumnId × ColumnCell Key Id)}
    (cells : r.cells = (0, c) :: l) {a b : AtomicCell} (ca : c.data = .atomic a) (db : d.data = .atomic b)
    (ge : a.compareForMerge b ≠ .lt) : (r.applyCell 0 d 0).cells = r.cells := by
  obtain ⟨data, x⟩ := c
  obtain ⟨data', y⟩ := d
  subst ca db
  rw [Row.cells_applyCell_zero, cells, Row.upsert, Lib.upsert, if_neg (Nat.lt_irrefl 0), if_pos rfl,
    ColumnCell.merge_atomic, if_neg ge]

/-- The cells of a row that are not beaten stay. -/
theorem cells_apply_of_not_lt {other : Row (ColumnCell Key Id)} (some : r.cells ≠ [] ∨ other.cells = [])
    (hr : ∀ c ∈ r.cells, c.1 = 0 ∧ ∃ a, c.2.data = .atomic a)
    (ho : ∀ c ∈ other.cells, c.1 = 0 ∧ ∃ a, c.2.data = .atomic a)
    (ge : ∀ c ∈ r.cells, ∀ d ∈ other.cells, ∀ a b, c.2.data = .atomic a → d.2.data = .atomic b → a.compareForMerge b ≠ .lt) :
    (r.apply other).cells = r.cells := by
  unfold Row.apply
  cases hl : other.cells.getLast? with
  | none => rfl
  | some last =>
    have nonempty : other.cells ≠ [] := fun h => by simp [h] at hl
    obtain ⟨⟨id, c⟩, l, cells⟩ := exists_cons_of_ne_nil (some.resolve_right nonempty)
    obtain ⟨rfl, a, ca⟩ := hr (id, c) (cells ▸ mem_cons_self)
    refine foldlRecOn (motive := fun q : Row (ColumnCell Key Id) => q.cells = r.cells) other.cells _
      (Row.cells_reserve r last.1) fun q hq d hd => ?_
    obtain ⟨zero, b, db⟩ := ho d hd
    rw [zero, cells_applyCell_of_not_lt (hq.trans cells) ca db
      (ge (0, c) (cells ▸ mem_cons_self) d hd a b ca db), hq]

/-- The row at a position after a merge: that of `q` where `p` has none, and the sum elsewhere -/
theorem cells_rowAt_merge (hp : Sorted position p.rows) (hq : Sorted position q.rows) (x : Pos) :
    (p.rowAt x).cells.cells = [] ∧ ((p.merge q).rowAt x).cells.cells = (q.rowAt x).cells.cells ∨
      ((p.merge q).rowAt x).cells.cells = ((p.rowAt x).cells.apply (q.rowAt x).cells).cells := by
  have keeps : ∀ e i : ColumnEntry Pos Key Id, ({ i with row := i.row.apply e.row } :
      ColumnEntry Pos Key Id).position = i.position := fun _ _ => rfl
  have found : (p.merge q).rows.find? (fun e => decide (e.position = x)) = _ := find?_foldl_upsert hp hq keeps x
  unfold rowAt
  rw [found]
  cases p.rows.find? fun e => decide (e.position = x) with
  | none => cases q.rows.find? fun e => decide (e.position = x) with
    | none | some e => exact .inl ⟨rfl, rfl⟩
  | some i => cases q.rows.find? fun e => decide (e.position = x) with
    | none | some e => exact .inr rfl

/-- A partition that is not beaten keeps its cells in a merge. -/
theorem FirstColumnOnly.merge (h : p.FirstColumnOnly) (hq : q.FirstColumnOnly) (sp : Sorted position p.rows)
    (sq : Sorted position q.rows) (some : p.firstCells ≠ [] ∨ q.firstCells = []) (ge : p.NotBeaten q) :
    (p.merge q).FirstColumnOnly ∧ (p.merge q).firstCells = p.firstCells := by
  have first : (p.merge q).firstCells = p.firstCells := by
    rcases cells_rowAt_merge sp sq emptyKey with ⟨none, eq⟩ | eq
    · exact eq.trans ((some.resolve_left (fun ne => ne none)).trans none.symm)
    · exact eq.trans (cells_apply_of_not_lt some h.first hq.first ge)
  refine ⟨⟨?_, fun x ne => ?_, first ▸ h.first⟩, first⟩
  · have static : (p.merge q).staticRow.cells = (p.staticRow.apply q.staticRow).cells := rfl
    rw [static, Row.apply, hq.staticRow, getLast?_nil, h.staticRow]
  · rcases cells_rowAt_merge sp sq x with ⟨-, eq⟩ | eq
    · exact eq.trans (hq.elsewhere x ne)
    · rw [eq, Row.apply, hq.elsewhere x ne, getLast?_nil, h.elsewhere x ne]

end Merge

/-- A partition as a write at version `n` stores it -/
structure TaggedWith (n : UInt32) (p : ColumnPartition Pos Key Id) : Prop where
  sorted : Sorted position p.rows
  firstColumn : p.FirstColumnOnly
  tagged : ∀ c ∈ p.firstCells, c.2.mostRecentVersion = n

variable {n : UInt32}

theorem TaggedWith.allCells (h : p.TaggedWith n) : ∀ c ∈ p.allCells, c.mostRecentVersion = n :=
  fun c hc => h.tagged (0, c) (h.firstColumn.mem_firstCells h.sorted hc)

theorem taggedWith_empty (n : UInt32) : TaggedWith n ({} : ColumnPartition Pos Key Id) := by
  have none : ({} : ColumnPartition Pos Key Id).firstCells = [] := rfl
  refine ⟨.nil, ⟨rfl, fun _ _ => rfl, ?_⟩, ?_⟩ <;> rw [none] <;> exact fun c hc => absurd hc not_mem_nil

theorem cells_rowAt_retag {C : Type} [CellOps C] (p : MutationPartition Pos C) (tags : Pos → ColumnId → Option UInt32)
    (x : Pos) : ((p.retag tags).rowAt x).cells.cells = (p.rowAt x).cells.cells.map fun c => match tags x c.1 with
      | some v => (c.1, CellOps.setMostRecentVersion c.2 v)
      | none => c := by
  have found : (p.retag tags).rows.find? (fun e => decide (e.position = x)) =
      (p.rows.find? fun e => decide (e.position = x)).map fun e => e.retag (tags e.position) := find?_map ..
  unfold rowAt
  rw [found]
  cases row : p.rows.find? fun e => decide (e.position = x) with
  | none => rfl
  | some e =>
    obtain rfl : e.position = x := by simpa using find?_some row
    rfl

theorem FirstColumnOnly.taggedWith (h : p.FirstColumnOnly) (sorted : Sorted position p.rows) (n : UInt32) :
    (p.retag (firstCellTag n)).TaggedWith n ∧
      (p.retag (firstCellTag n)).firstCells = p.firstCells.map fun c => (c.1, { c.2 with mostRecentVersion := n }) := by
  have first : (p.retag (firstCellTag n)).firstCells =
      p.firstCells.map fun c => (c.1, { c.2 with mostRecentVersion := n }) := by
    refine (cells_rowAt_retag p (firstCellTag n) emptyKey).trans (map_congr_left fun c hc => ?_)
    have tag : firstCellTag n (emptyKey : Pos) c.1 = some n := if_pos ⟨rfl, (h.first c hc).1⟩
    rw [tag]
    rfl
  refine ⟨⟨pairwise_map.2 sorted, ⟨h.staticRow, fun x ne => ?_, ?_⟩, ?_⟩, first⟩
  · rw [cells_rowAt_retag, h.elsewhere x ne, map_nil]
  · rw [first]
    exact forall_mem_map.2 h.first
  · rw [first]
    exact forall_mem_map.2 fun _ _ => rfl

theorem TaggedWith.merge {m : UInt32} (h : p.TaggedWith n) (hq : q.TaggedWith m)
    (some : p.firstCells ≠ [] ∨ q.firstCells = []) (ge : p.NotBeaten q) :
    (p.merge q).TaggedWith n ∧ (p.merge q).firstCells = p.firstCells := by
  obtain ⟨firstColumn, first⟩ := h.firstColumn.merge hq.firstColumn h.sorted hq.sorted some ge
  exact ⟨⟨foldlRecOn q.rows _ h.sorted fun _ hl _ _ => Sorted.upsert hl fun _ => rfl, firstColumn, first ▸ h.tagged⟩, first⟩

/-- The sum of versions in which none is beaten by an older one has the cells of the newest. -/
theorem TaggedWith.squash [SchemaOps S (ColumnCell Key Id)] (h : p.TaggedWith n) (schema : S)
    {ps : List (ColumnPartition Pos Key Id)} (others : ∀ q ∈ ps, ∃ m, q.TaggedWith m)
    (newest : ∀ q ∈ ps, (p.firstCells ≠ [] ∨ q.firstCells = []) ∧ p.NotBeaten q) :
    (Mvcc.Chain.squash schema p ps).TaggedWith n := by
  induction ps generalizing p with
  | nil => exact h
  | cons q ps ih =>
    obtain ⟨⟨m, hq⟩, others⟩ := forall_mem_cons.1 others
    obtain ⟨⟨some, ge⟩, newest⟩ := forall_mem_cons.1 newest
    obtain ⟨merged, first⟩ := h.merge hq some ge
    have applied : Mvcc.PartitionOps.apply schema p q schema = p.merge q := if_neg fun ne => ne rfl
    change (Mvcc.Chain.squash schema (Mvcc.PartitionOps.apply schema p q schema) ps).TaggedWith n
    rw [applied]
    refine ih merged others fun r hr => ?_
    unfold NotBeaten
    rw [first]
    exact newest r hr

end MutationPartition

end ScyllaMoon.Mutation

namespace ScyllaMoon.Mvcc

open Lib Mutation

variable {S Pos Key Id : Type} [Position Pos] [LinearOrder Key] [LinearOrder Id]

namespace Chain

variable {c c' : Chain S (ColumnPartition Pos Key Id)}

/-- The newer version has a cell if the older one does, and it is not replaced by that. -/
def Outdoes (v u : UInt32 × ColumnPartition Pos Key Id) : Prop :=
  (v.2.firstCells ≠ [] ∨ u.2.firstCells = []) ∧ v.2.NotBeaten u.2

/-- The snapshot is on a version of this number, wherever it is. -/
structure OnVersion (c : Chain S (ColumnPartition Pos Key Id)) (s : SnapshotId) (n : UInt32) : Prop where
  taken : s < c.nextSnapshot
  listed : ∀ e ∈ c.elems, e.snapshot = some s → e.number = n
  detached : ∀ p, c.detached s = some p → p.TaggedWith n

/-- What clients ask of one entry, and what they are told -/
abbrev Event (S Pos Key Id : Type) [LinearOrder Key] [LinearOrder Id] : Type :=
  Op S (MutationPartitionView Pos (ColumnCell Key Id)) (ColumnPartition Pos Key Id) ×
    Answer (ColumnPartition Pos Key Id)

/-- Every version carries its number in its cells, and none is replaced by an older one. -/
structure Versioned (tr : List (Event S Pos Key Id)) (c : Chain S (ColumnPartition Pos Key Id)) : Prop where
  tagged : ∀ v ∈ c.stored, v.2.TaggedWith v.1
  newest : c.stored.Pairwise Outdoes
  pinned : ∀ e ∈ c.elems, ∀ s, e.snapshot = some s → ∃ op p, (op, .snapshot s e.number p) ∈ tr
  detached : ∀ s p, c.detached s = some p → s < c.nextSnapshot
  reads : ∀ op s n p, (op, .snapshot s n p) ∈ tr → c.OnVersion s n

variable {tr : List (Event S Pos Key Id)}

section

variable (h : Versioned tr c)
include h

theorem Versioned.append (x : Event S Pos Key Id)
    (new : ∀ s n p, x.2 = .snapshot s n p → c.OnVersion s n) : Versioned (tr ++ [x]) c where
  tagged := h.tagged
  newest := h.newest
  pinned e he s hs := by
    obtain ⟨op, p, mem⟩ := h.pinned e he s hs
    exact ⟨op, p, List.mem_append_left _ mem⟩
  detached := h.detached
  reads op s n p mem := by
    rcases List.mem_append.1 mem with mem | mem
    · exact h.reads op s n p mem
    · exact new s n p (congrArg Prod.snd (List.mem_singleton.1 mem).symm)

theorem Versioned.silent {op o} (other : ∀ s n p, o ≠ .snapshot s n p) : Versioned (tr ++ [(op, o)]) c :=
  h.append (op, o) fun s n p eq => absurd eq (other s n p)

theorem Versioned.repin (stored : c'.stored = c.stored) (next : c.nextSnapshot ≤ c'.nextSnapshot)
    (pins : ∀ e' ∈ c'.elems, ∀ s, e'.snapshot = some s → ∃ e ∈ c.elems, e.snapshot = some s ∧ e.number = e'.number)
    (detached : ∀ s p, c'.detached s = some p → c.detached s = some p) : Versioned tr c' where
  tagged := stored ▸ h.tagged
  newest := stored ▸ h.newest
  pinned e' he' s hs := by
    obtain ⟨e, he, hs, number⟩ := pins e' he' s hs
    exact number ▸ h.pinned e he s hs
  detached s p hp := Nat.lt_of_lt_of_le (h.detached s p (detached s p hp)) next
  reads op s n p mem := by
    obtain ⟨taken, listed, tagged⟩ := h.reads op s n p mem
    refine ⟨Nat.lt_of_lt_of_le taken next, fun e' he' hs => ?_, fun p hp => tagged p (detached s p hp)⟩
    obtain ⟨e, he, hs, number⟩ := pins e' he' s hs
    exact number ▸ listed e he hs

theorem Versioned.pin {i : Nat} {e : Elem (ColumnPartition Pos Key Id)} (found : c.elems[i]? = some e) (op) (p)
    (elems : c'.elems = c.elems.set i { e with snapshot := some c.nextSnapshot })
    (next : c'.nextSnapshot = c.nextSnapshot + 1) (detached : c'.detached = c.detached) :
    Versioned (tr ++ [(op, .snapshot c.nextSnapshot e.number p)]) c' := by
  have fresh : ∀ x ∈ c.elems, x.snapshot ≠ some c.nextSnapshot := by
    intro x hx hs
    obtain ⟨op, p, mem⟩ := h.pinned x hx _ hs
    exact Nat.lt_irrefl _ (h.reads op _ _ p mem).taken
  have stored : c'.stored = c.stored := by
    rw [Chain.stored, elems]
    exact stored_set found _
  refine ⟨stored ▸ h.tagged, stored ▸ h.newest, fun x hx s hs => ?_, fun s q hq => ?_, fun op' s n q mem => ?_⟩
  · rw [elems] at hx
    rcases List.mem_or_eq_of_mem_set hx with hx | rfl
    · obtain ⟨op, p, mem⟩ := h.pinned x hx s hs
      exact ⟨op, p, List.mem_append_left _ mem⟩
    · cases hs
      exact ⟨op, p, List.mem_append_right _ (List.mem_singleton_self _)⟩
  · rw [detached] at hq
    rw [next]
    exact Nat.lt_succ_of_lt (h.detached s q hq)
  · rcases List.mem_append.1 mem with mem | mem
    · obtain ⟨taken, listed, tagged⟩ := h.reads op' s n q mem
      refine ⟨by rw [next]; exact Nat.lt_succ_of_lt taken, fun x hx hs => ?_, detached ▸ tagged⟩
      rw [elems] at hx
      rcases List.mem_or_eq_of_mem_set hx with hx | rfl
      · exact listed x hx hs
      · cases hs
        exact absurd taken (Nat.lt_irrefl _)
    · cases List.mem_singleton.1 mem
      refine ⟨by rw [next]; exact Nat.lt_succ_self _, fun x hx hs => ?_, fun p hp => ?_⟩
      · rw [elems] at hx
        rcases List.mem_or_eq_of_mem_set hx with hx | rfl
        · exact absurd hs (fresh x hx)
        · rfl
      · rw [detached] at hp
        exact absurd (h.detached _ p hp) (Nat.lt_irrefl _)

/-- A write that outdoes the versions before it -/
theorem Versioned.store {n : UInt32} {mp : ColumnPartition Pos Key Id}
    (tagged : mp.TaggedWith n) (newest : ∀ v ∈ c.stored, Outdoes (n, mp) v) : Versioned tr (c.store n mp) where
  tagged := List.forall_mem_cons.2 ⟨tagged, h.tagged⟩
  newest := List.pairwise_cons.2 ⟨newest, h.newest⟩
  pinned e he s hs := by
    rcases List.mem_cons.1 he with rfl | he
    · cases hs
    · exact h.pinned e he s hs
  detached := h.detached
  reads op s m p mem := by
    obtain ⟨taken, listed, alone⟩ := h.reads op s m p mem
    refine ⟨taken, fun e he hs => ?_, alone⟩
    rcases List.mem_cons.1 he with rfl | he
    · cases hs
    · exact listed e he hs

/-- A version is collected; the snapshot on it keeps its partition. -/
theorem Versioned.unlink (i : Nat) : Versioned tr (c.unlink i) := by
  have sub : (c.unlink i).elems.Sublist c.elems := List.eraseIdx_sublist ..
  have alone : ∀ {s p}, (c.unlink i).detached s = some p → c.detached s = some p ∨
      ∃ e ∈ c.elems, e.snapshot = some s ∧ p = e.partition := by
    intro s p hp
    cases he : c.elems[i]? with
    | none =>
      simp only [Chain.unlink, he] at hp
      exact .inl hp
    | some e =>
      cases ht : e.snapshot with
      | none =>
        simp only [Chain.unlink, he, Elem.detach, ht] at hp
        exact .inl hp
      | some t =>
        simp only [Chain.unlink, he, Elem.detach, ht, Function.update_apply] at hp
        split at hp
        next same =>
          exact .inr ⟨e, List.mem_of_getElem? he, same ▸ ht, (Option.some.inj hp).symm⟩
        · exact .inl hp
  refine ⟨fun v hv => h.tagged v ((sub.map _).subset hv), h.newest.sublist (sub.map _),
    fun e he => h.pinned e (sub.subset he), fun s p hp => ?_, fun op s n p mem => ?_⟩
  · rcases alone hp with hp | ⟨e, he, hs, -⟩
    · exact h.detached s p hp
    · obtain ⟨op, q, mem⟩ := h.pinned e he s hs
      exact (h.reads op s _ q mem).taken
  · obtain ⟨taken, listed, tagged⟩ := h.reads op s n p mem
    refine ⟨taken, fun e he => listed e (sub.subset he), fun q hq => ?_⟩
    rcases alone hq with hq | ⟨e, he, hs, rfl⟩
    · exact tagged q hq
    · rw [← listed e he hs]
      exact h.tagged (e.number, e.partition) (List.mem_map_of_mem he)

end

variable [SchemaOps S (ColumnCell Key Id)]

/-- What a write brings, read in the schema of the entry -/
def received (s : S) (mpv : MutationPartitionView Pos (ColumnCell Key Id)) (mpSchema : S) :
    ColumnPartition Pos Key Id := MutationPartition.applyView s {} mpv mpSchema 0

/-- Tagged writes bring one cell, and it is not replaced by one that was there. -/
def FirstCellOnly (stored : List (ColumnPartition Pos Key Id)) :
    Op S (MutationPartitionView Pos (ColumnCell Key Id)) (ColumnPartition Pos Key Id) → Prop
  | .read .. => True
  | .drop _ => True
  | .squashed _ => True
  | .applyView s mpv mpSchema v =>
    v ≠ 0 ∧ (received s mpv mpSchema).FirstColumnOnly ∧ ∀ p ∈ stored, (received s mpv mpSchema).NotBeaten p
  | _ => False

variable {mpv : MutationPartitionView Pos (ColumnCell Key Id)} {n : UInt32}
  {mp : ColumnPartition Pos Key Id}

/-- What such a write stores outdoes what was there. -/
theorem outdoes_writtenPartition {s mpSchema : S} {v : UInt32} (tagged : v ≠ 0)
    (first : (received s mpv mpSchema).FirstColumnOnly) (written : writtenPartition s mpv mpSchema v n = .ok mp) :
    mp.TaggedWith n ∧ ∀ p, (received s mpv mpSchema).NotBeaten p → ∀ m, Outdoes (n, mp) (m, p) := by
  have stored : BringsFirstCell s mpv mpSchema ∧
      mp = (received s mpv mpSchema).retag (MutationPartition.firstCellTag n) := by
    rw [writtenPartition_tagged s mpv mpSchema tagged, MutationPartition.applyView_empty] at written
    split at written
    next brings =>
      exact ⟨brings, (Except.ok.inj written).symm⟩
    · cases written
  obtain ⟨brings, rfl⟩ := stored
  have sorted : Sorted RowsEntry.position (received s mpv mpSchema).rows :=
    MutationPartition.sorted_rows_applyView s mpv mpSchema 0
  obtain ⟨c, hc, -⟩ := (MutationPartition.hasCell_applyView s mpv mpSchema 0 Position.emptyKey 0).2 brings
  obtain ⟨tags, cells⟩ := first.taggedWith sorted n
  refine ⟨tags, fun p ge m => ⟨.inl ?_, fun c hc => ?_⟩⟩ <;> dsimp only at *
  · rw [cells]
    exact List.ne_nil_of_mem (List.mem_map_of_mem hc)
  · rw [cells] at hc
    obtain ⟨d, hd, rfl⟩ := List.mem_map.1 hc
    exact ge d hd

theorem Versioned.written (h : Versioned tr c) {s mpSchema : S} {v : UInt32}
    (first : FirstCellOnly c.partitions (.applyView s mpv mpSchema v))
    (written : writtenPartition s mpv mpSchema v n = .ok mp) : Versioned tr (c.store n mp) := by
  obtain ⟨tagged, first, ge⟩ := first
  obtain ⟨tags, outdoes⟩ := outdoes_writtenPartition tagged first written
  refine h.store tags (List.forall_mem_map.2 fun e he => ?_)
  exact outdoes e.partition (ge e.partition (List.mem_map_of_mem he)) e.number

/-- Reads, drops and writes that bring one cell keep to it. -/
theorem Versioned.next (h : Versioned tr c) {op o} (step : Transition c op c' o)
    (first : FirstCellOnly c.partitions op) : Versioned (tr ++ [(op, o)]) c' := by
  cases step with
  | @share schema phase t e s snp found pinned live =>
    have same : Versioned tr { c.noteRead t with
        snapshots := Function.update c.snapshots s (some { snp with useCount := snp.useCount + 1 }) } :=
      h.repin rfl (Nat.le_refl _) (fun e he s hs => ⟨e, he, hs, rfl⟩) fun _ _ hp => hp
    refine same.append _ fun s' n p eq => ?_
    cases eq
    obtain ⟨op, p, mem⟩ := h.pinned e (List.mem_of_getElem? found) s pinned
    exact same.reads op s _ p mem
  | pin found => exact h.pin found _ _ rfl rfl rfl
  | release =>
    refine Versioned.silent ?_ fun _ _ _ eq => nomatch eq
    exact h.repin rfl (Nat.le_refl _) (fun e he s hs => ⟨e, he, hs, rfl⟩) fun _ _ hp => hp
  | @unpin s =>
    refine Versioned.silent ?_ fun _ _ _ eq => nomatch eq
    refine h.repin (stored_unpin s c) (Nat.le_refl _) (fun e' he' s' hs' => ?_) fun s' p hp => ?_
    · obtain ⟨e, he, rfl⟩ := List.mem_map.1 he'
      refine ⟨e, he, ?_, (unpin_number s e).symm⟩
      unfold Chain.unpin at hs'
      split at hs'
      · cases hs'
      · exact hs'
    · have hp : Function.update c.detached s none s' = some p := hp
      rw [Function.update_apply] at hp
      split at hp
      · cases hp
      · exact hp
  | squash | reject => exact h.silent fun _ _ _ eq => nomatch eq
  | store kept written => exact (h.written first written).silent fun _ _ _ eq => nomatch eq
  | @collect _ _ _ v mp i _ kept written full collects =>
    rw [collects.eq]
    refine Versioned.silent ?_ fun _ _ _ eq => nomatch eq
    have unlinked := (h.written first written).unlink (i + 1)
    exact unlinked.repin rfl (Nat.le_refl _) (fun e he s hs => ⟨e, he, hs, rfl⟩) fun _ _ hp => hp
  | apply | incomplete | add | upgrade => exact absurd first id

/-- What a snapshot on version `n` covers carries that version. -/
theorem Versioned.squashed (h : Versioned tr c) {s : SnapshotId} (on : c.OnVersion s n)
    (squashed : c.squashed s = .ok mp) : mp.TaggedWith n := by
  unfold Chain.squashed Chain.snapshotVersions at squashed
  split at squashed
  · cases squashed
  · split at squashed
    next e es covered =>
      cases squashed
      have suffix : (e :: es).Sublist c.elems := covered ▸ List.dropWhile_sublist _
      have pinned : e.snapshot = some s := by
        have := List.head?_dropWhile_not (fun e => decide (e.snapshot ≠ some s)) c.elems
        unfold Chain.covered at covered
        rw [covered] at this
        simpa using this
      have stored := suffix.map fun e => (e.number, e.partition)
      have newest := List.pairwise_cons.1 (h.newest.sublist stored)
      have tagged : e.partition.TaggedWith e.number := h.tagged _ (stored.subset List.mem_cons_self)
      rw [on.listed e (suffix.subset List.mem_cons_self) pinned] at tagged
      refine tagged.squash _ (List.forall_mem_map.2 fun e' he' => ?_) (List.forall_mem_map.2 fun e' he' => ?_)
      · exact ⟨e'.number, h.tagged _ (stored.subset (List.mem_cons_of_mem _ (List.mem_map_of_mem he')))⟩
      · exact newest.1 (e'.number, e'.partition) (List.mem_map_of_mem he')
    · split at squashed
      next p alone =>
        cases squashed
        exact on.detached p alone
      · cases squashed

end Chain

/-- The partitions of the chain, newest first -/
def Heap.partitions {P : Type} (w : Heap S P) : List P :=
  w.chain.filterMap fun a => (w.versions a).map PartitionVersion.partition

variable {l : List Addr}

theorem Sim.partitions_eq {P : Type} {w : Heap S P} {c : Chain S P} (h : Sim w l c) :
    w.partitions = c.partitions := by
  have along : l.filterMap (fun a => (w.elem? a).map Elem.partition) = c.partitions := by
    have := congrArg (List.filterMap (Option.map Elem.partition)) h.elems
    simpa [Chain.partitions, List.filterMap_map, Function.comp_def, List.filterMap_eq_map'] using this
  rw [Heap.partitions, h.chain_eq, ← along]
  refine List.filterMap_congr fun a _ => ?_
  cases hv : w.versions a with
  | none => simp [Heap.elem?, hv]
  | some v => simp [Heap.elem?, hv, PartitionVersion.toElem]

/-- A version of the chain is one of the list. -/
theorem Sim.stored_of_mem {P : Type} {w : Heap S P} {c : Chain S P} (h : Sim w l c) {a : Addr} (ha : a ∈ w.chain)
    {v : PartitionVersion P} (hv : w.versions a = some v) :
    (v.versionNumber, v.partition) ∈ c.stored := by
  rw [h.chain_eq] at ha
  have mem : w.elem? a ∈ c.elems.map some := h.elems ▸ List.mem_map_of_mem ha
  obtain ⟨e, he, eq⟩ := List.mem_map.1 mem
  rw [Heap.elem?_of hv] at eq
  cases eq
  exact List.mem_map_of_mem he

/-- In every history of tagged writes that bring the first cell only, and one that is not replaced by an older one, the
cells of every version carry its number, and so does everything that a snapshot of it returns. A merge of rows keeps the
versions of atomic cells exactly if those that replace others have the version that is handed on, and one that is
reverted keeps them all. -/
theorem cells_carry_versions [SchemaOps S (ColumnCell Key Id)] (e : EntryAddr) {tr : List (Chain.Event S Pos Key Id)}
    {w : Heap S (ColumnPartition Pos Key Id)}
    (run : Run Heap.step (fun _ w op => Chain.FirstCellOnly w.partitions op) (Heap.ofPartition e {}) tr w) :
    (∀ a ∈ w.chain, ∀ v, w.versions a = some v → ∀ c ∈ v.partition.allCells, c.mostRecentVersion = v.versionNumber) ∧
      (∀ op s n p mp, (op, .snapshot s n p) ∈ tr → w.squashed s = .ok mp →
        ∀ c ∈ mp.allCells, c.mostRecentVersion = n) ∧
      ∀ r other : Row (ColumnCell Key Id), r.Sorted → other.Sorted → ∀ v,
        (r.KeepsVersions other (r.apply other v) ↔ ∀ id a x b y, r.findCell id = some ⟨.atomic a, x⟩ →
          other.findCell id = some ⟨.atomic b, y⟩ → a.compareForMerge b = .lt → y = r.handedOn other v) ∧
        ((r.applyReversibly other v).1.revert (r.applyReversibly other v).2).cells = r.cells := by
  obtain ⟨l, c, sim, inv⟩ := Sim.run (fun tr _ c => Chain.Versioned tr c) (Sim.ofPartition e {})
    ⟨List.forall_mem_singleton.2 (MutationPartition.taggedWith_empty 0), List.pairwise_singleton .., by simp [Chain.ofPartition],
      nofun, nofun⟩
    (fun _ _ _ _ _ _ _ _ _ sim inv first h _ _ => inv.next h (sim.partitions_eq ▸ first)) run
  refine ⟨fun a ha v hv => ?_, fun op s n p mp mem squashed => ?_, fun r other h ho v => ⟨?_, ?_⟩⟩
  · exact (inv.tagged _ (sim.stored_of_mem ha hv)).allCells
  · rw [sim.squashed] at squashed
    exact (inv.squashed (inv.reads op s n p mem) squashed).allCells
  · exact Row.keepsVersions_apply_iff h ho v
  · exact Row.cells_revert_applyReversibly h ho v

/-- A tagged write of one byte into each of the columns -/
def putColumns (v : UInt32) (timestamp : Int) (ids : List ColumnId) :
    Op TableSchema (MutationPartitionView Nat (ColumnCell Nat Nat)) (ColumnPartition Nat Nat Nat) :=
  .applyView usertable { rows := [(0, {}, {}, ids.map fun id => (id, { data := .atomic (.live timestamp [7]) }))] } usertable v

theorem firstCellOnly_putColumns (v : UInt32) (tagged : v ≠ 0) (timestamp : Int) :
    Chain.FirstCellOnly [{}] (putColumns v timestamp [0]) := by
  have received : Chain.received usertable { rows := [(0, {}, {}, [(0, { data := .atomic (.live timestamp [7]) })])] }
      usertable = ({ rows := [{ position := 0, row := { cells := { cells := [(0, ⟨.atomic (.live timestamp [7]), 0⟩)] } } }] } :
        ColumnPartition Nat Nat Nat) := rfl
  refine ⟨tagged, ?_, List.forall_mem_singleton.2 fun c _ d hd => absurd hd List.not_mem_nil⟩
  rw [List.map_singleton, received]
  refine ⟨rfl, fun x ne => ?_, List.forall_mem_singleton.2 ⟨rfl, _, rfl⟩⟩
  have other : 0 ≠ x := Ne.symm ne
  simp [MutationPartition.rowAt, other]

theorem cells_carry_versions_put : ∃ tr w op s n p mp,
    Run Heap.step (fun _ w op => Chain.FirstCellOnly w.partitions op) (Heap.ofPartition 0 {}) tr w ∧
      (op, .snapshot s n p) ∈ tr ∧ w.squashed s = .ok mp ∧ mp.allCells.length = 1 ∧
      ∀ c ∈ (mp : ColumnPartition Nat Nat Nat).allCells, c.mostRecentVersion = n := by
  have written : Run Heap.step (fun _ w op => Chain.FirstCellOnly w.partitions op) (Heap.ofPartition 0 {}) _ _ :=
    .snoc .init (firstCellOnly_putColumns 1 (by decide) 1) rfl
  have run := written.snoc (i := .read usertable defaultPhase 1) (by trivial) rfl
  exact ⟨_, _, _, _, 1, _, _, run, List.mem_append_right _ (List.mem_singleton.2 rfl), rfl, rfl,
    (cells_carry_versions 0 run).2.1 _ _ _ _ _ (List.mem_append_right _ (List.mem_singleton.2 rfl)) rfl⟩

/-- The second of two columns is not tagged, and neither is a cell that replaces that of a newer version. -/
theorem cells_lose_versions :
    (∃ w a v, after Heap.step (Heap.ofPartition 0 {}) [putColumns 1 1 [0, 1]] = some w ∧ a ∈ w.chain ∧
      w.versions a = some v ∧ v.versionNumber = 1 ∧ v.partition.allCells.map ColumnCell.mostRecentVersion = [1, 0]) ∧
    ∃ w mp, after Heap.step (Heap.ofPartition 0 {}) [putColumns 1 5 [0], putColumns 2 3 [0],
        .read usertable defaultPhase 2] = some w ∧ w.squashed 0 = .ok mp ∧
      mp.allCells.map ColumnCell.mostRecentVersion = [0] :=
  ⟨⟨_, 1, _, rfl, by decide, rfl, rfl, rfl⟩, _, _, rfl, rfl, rfl⟩

end ScyllaMoon.Mvcc
