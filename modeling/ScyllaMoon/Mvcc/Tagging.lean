import ScyllaMoon.Mutation.Tags
import ScyllaMoon.Mvcc.Transition
import ScyllaMoon.Mvcc.Usertable

/-!
# The cell that a tagged write tags

A tagged write that is not turned away has `partition_entry::apply` look up the first column in the row of the empty
clustering key, and go through the pointer. Mutations without that cell are deletions, updates of other columns only,
and all mutations of tables with clustering columns or without regular ones.
-/

namespace ScyllaMoon.Mvcc

open Lib Mutation

namespace Heap

variable {S P : Type} {w w' : Heap S P}

/-- What the newest version holds -/
def newestPartition (w : Heap S P) : Option P :=
  w.entry.version.version.bind fun a => (w.versions a).map (·.partition)

/-- Whatever a write stores, the collection of garbage that follows it does not fault. -/
def Collects (w : Heap S P) : Prop :=
  w.entry.numVersions ≥ 100 → ∀ mp n w₁, w.storeVersion mp n = .ok w₁ →
    ∃ w', { w₁ with entry := { w₁.entry with numVersions := w₁.entry.numVersions + 1 } }.collectGarbage = .ok w'

/-- The newest version is not garbage. -/
theorem newestPartition_collectGarbage (h : w.collectGarbage = .ok w') : w'.newestPartition = w.newestPartition := by
  obtain ⟨w₁, advanced, h⟩ := bind_eq_ok.1 h
  obtain ⟨last, -, h⟩ := bind_eq_ok.1 h
  obtain ⟨next, -, h⟩ := bind_eq_ok.1 h
  obtain ⟨victim, -, h⟩ := bind_eq_ok.1 h
  cases h
  obtain ⟨a, -, h⟩ := bind_eq_ok.1 advanced
  obtain ⟨v, -, h⟩ := bind_eq_ok.1 h
  split at h
  · obtain ⟨p, -, h⟩ := bind_eq_ok.1 h
    cases h
    rfl
  · cases h
    rfl

end Heap

variable {S Pos C : Type} [Position Pos] [CellOps C] [SchemaOps S C]

/-- A write comes to its end. It is turned away and nothing changes, or the newest version then holds the mutation with
other tags: no row and no cell is added. -/
def OnlyTags (w : Heap S (MutationPartition Pos C)) (s : S) (mpv : MutationPartitionView Pos C) (mpSchema : S)
    (versionToWrite : UInt32) : Prop :=
  ∃ w' r, w.applyView s mpv mpSchema versionToWrite = .ok (w', r) ∧
    if r.accepted then ∃ tags, w'.newestPartition =
      some ((MutationPartition.applyView s {} mpv mpSchema r.commitVersion).retag tags)
    else w' = w

/-- The mutation has a cell for the first column in the row of the empty clustering key. -/
def BringsFirstCell (s : S) (mpv : MutationPartitionView Pos C) (mpSchema : S) : Prop :=
  ∃ r ∈ mpv.rows, r.1 = Position.emptyKey ∧ ∃ c ∈ r.2.2.2, MutationPartition.columnOf s mpSchema c = some 0

instance (s : S) (mpv : MutationPartitionView Pos C) (mpSchema : S) : Decidable (BringsFirstCell s mpv mpSchema) := by
  unfold BringsFirstCell
  infer_instance

theorem writtenPartition_tagged (s : S) (mpv : MutationPartitionView Pos C) (mpSchema : S) {v : UInt32} (tagged : v ≠ 0)
    (promoted : UInt32) : writtenPartition s mpv mpSchema v promoted =
      if BringsFirstCell s mpv mpSchema
      then .ok ((MutationPartition.applyView s {} mpv mpSchema promoted).retag (MutationPartition.firstCellTag promoted))
      else .error .nullDeref := by
  have cell := MutationPartition.hasCell_applyView s mpv mpSchema promoted Position.emptyKey 0
  rw [MutationPartition.HasCell, ← MutationPartition.findCell_isSome] at cell
  have set : PartitionOps.setMostRecentVersion s
      (PartitionOps.applyView s (PartitionOps.empty s) mpv mpSchema promoted) promoted =
        (MutationPartition.applyView s {} mpv mpSchema promoted).setMostRecentVersion promoted := rfl
  unfold writtenPartition
  rw [if_pos (.inl tagged), set,
    MutationPartition.setMostRecentVersion_eq (MutationPartition.sorted_rows_applyView s mpv mpSchema promoted)]
  by_cases brings : BringsFirstCell s mpv mpSchema
  · rw [if_pos brings, if_pos (cell.2 brings)]
  · rw [if_neg brings, if_neg (mt cell.1 brings)]

variable {tr : List (Op S (MutationPartitionView Pos C) (MutationPartition Pos C) × Answer (MutationPartition Pos C))}

variable {w : Heap S (MutationPartition Pos C)}

/-- A tagged write that brings the cell is stored. -/
theorem onlyTags_of_brings {e : EntryAddr} {mp : MutationPartition Pos C}
    (run : Run Heap.step (fun _ _ _ => True) (Heap.ofPartition e mp) tr w)
    (collects : w.Collects) {s : S} {mpv : MutationPartitionView Pos C} {mpSchema : S} {v : UInt32} (tagged : v ≠ 0)
    (newer : ¬v ≤ w.entry.highestVersionWritten) (brings : BringsFirstCell s mpv mpSchema) :
    OnlyTags w s mpv mpSchema v := by
  obtain ⟨l, c, sim, -⟩ := Sim.run (fun _ _ _ => True) (Sim.ofPartition e mp) trivial
    (fun _ _ _ _ _ _ _ _ _ _ _ _ _ _ _ => trivial) run
  obtain ⟨head, tl, hv, -, hl, hh, hhv, -⟩ := sim.exists_head
  have ne : head ≠ w.brk := fun eq => sim.brk_notMem (by simp [hl, ← eq])
  have store := Heap.storeVersion_eq hhv ne sim.unset hh
  have newest : ∀ mp n, (w.stored head hv mp n).newestPartition = some mp := fun mp n => by
    simp [Heap.newestPartition, Heap.stored, Heap.pushed]
  unfold OnlyTags Heap.applyView
  rw [if_neg fun h => newer h.2]
  dsimp only
  rw [writtenPartition_tagged s mpv mpSchema tagged, if_pos brings, ok_bind, store, ok_bind]
  split
  next full =>
    obtain ⟨w', collected⟩ := collects full _ _ _ (store _ _)
    refine ⟨w', { accepted := true, commitVersion := _ }, by rw [collected]; rfl, ?_⟩
    rw [if_pos rfl]
    exact ⟨_, (Heap.newestPartition_collectGarbage collected).trans (newest _ _)⟩
  · refine ⟨_, { accepted := true, commitVersion := _ }, rfl, ?_⟩
    rw [if_pos rfl]
    exact ⟨_, newest _ _⟩

/-- In every state that an entry can reach, a tagged write changes nothing but tags exactly if it is turned away or
brings the cell that is tagged, unless the collection of garbage faults. Any other one dereferences a null pointer. -/
theorem tagged_write_only_tags_iff (e : EntryAddr) (mp : MutationPartition Pos C)
    (run : Run Heap.step (fun _ _ _ => True) (Heap.ofPartition e mp) tr w)
    (collects : w.Collects) (s : S) (mpv : MutationPartitionView Pos C) (mpSchema : S) (v : UInt32) (tagged : 1 ≤ v) :
    (OnlyTags w s mpv mpSchema v ↔ v ≤ w.entry.highestVersionWritten ∨ BringsFirstCell s mpv mpSchema) ∧
      (¬OnlyTags w s mpv mpSchema v → w.applyView s mpv mpSchema v = .error .nullDeref) := by
  have nonzero : v ≠ 0 := by
    rintro rfl
    exact absurd tagged (by decide)
  have fault (newer : ¬v ≤ w.entry.highestVersionWritten) (missing : ¬BringsFirstCell s mpv mpSchema) :
      w.applyView s mpv mpSchema v = .error .nullDeref := by
    unfold Heap.applyView
    rw [if_neg fun h => newer h.2]
    dsimp only
    rw [writtenPartition_tagged s mpv mpSchema nonzero, if_neg missing]
    rfl
  have iff : OnlyTags w s mpv mpSchema v ↔ v ≤ w.entry.highestVersionWritten ∨ BringsFirstCell s mpv mpSchema := by
    constructor
    · rintro ⟨w', r, ok, -⟩
      by_contra neither
      obtain ⟨newer, missing⟩ := not_or.1 neither
      cases (fault newer missing).symm.trans ok
    · intro h
      by_cases newer : v ≤ w.entry.highestVersionWritten
      · refine ⟨w, _, if_pos ⟨nonzero, newer⟩, ?_⟩
        rfl
      · exact onlyTags_of_brings run collects nonzero newer (h.resolve_left newer)
  refine ⟨iff, fun fails => ?_⟩
  obtain ⟨newer, missing⟩ := not_or.1 (mt iff.2 fails)
  exact fault newer missing

theorem tagged_write_only_tags_put :
    OnlyTags (entryAfter [put 5 0 7]) usertable (putByte 1 7) usertable 6 := by
  have run : Run Heap.step (fun _ _ _ => True) newEntry _ (entryAfter [put 5 0 7]) :=
    .snoc .init (i := put 5 0 7) trivial rfl
  exact (tagged_write_only_tags_iff 0 {} run (fun full => absurd full (by decide)) usertable (putByte 1 7) usertable 6
    (by decide)).1.2 (.inr (by decide))

/-- The deletion of a partition, and a row with another clustering key -/
theorem tagged_deletion_faults :
    newEntry.applyView usertable { tombstone := ⟨1, 1⟩ } usertable 1 = .error .nullDeref ∧
      newEntry.applyView usertable { rows := [(3, {}, {}, [(0, { cell := .live 1 [7] })])] } usertable 1 =
        .error .nullDeref :=
  ⟨rfl, rfl⟩

end ScyllaMoon.Mvcc
