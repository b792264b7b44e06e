import ScyllaMoon.Mutation.ColumnCell
import ScyllaMoon.Mutation.WellFormed

/-!
# Merging what adds nothing

A partition that a merge leaves unchanged is left unchanged by the sum of two such merges as well. For
tombstones this is so because a merge keeps one of the two. For the cells of a row it needs the same of
cells, `LawfulCellOps`. Of two atomic cells one is kept, too, and so it is with the shards of counters and
the cells of collections.
-/

namespace ScyllaMoon.Mutation

open Lib List

variable {Pos C : Type}

open CellOps (merge)

/-- A cell that two others leave unchanged is left unchanged by their sum. -/
class LawfulCellOps (C : Type) [CellOps C] : Prop where
  absorbs_merge : ∀ d a b : C, merge d a 0 = d → merge d b 0 = d →
    merge d (merge a b 0) 0 = d

instance : LawfulCellOps Cell where
  absorbs_merge d a b ha hb := by
    by_cases h : a.cell.compareForMerge b.cell = .lt
    · have sum : merge a b 0 = { b with mostRecentVersion := 0 } := if_pos h
      rw [sum]
      by_cases hd : d.cell.compareForMerge b.cell = .lt
      · exact (if_pos hd).trans ((if_pos hd).symm.trans hb)
      · exact if_neg hd
    · have sum : merge a b 0 = a := if_neg h
      rwa [sum]

section ColumnCell

variable {Key Id : Type} [LinearOrder Key] [LinearOrder Id]

open CounterShard (newer applyInPlace)

/-- Shards that the others leave unchanged are merged in place. -/
theorem CounterShard.applyInPlace_of_combine {s s' : List (CounterShard Id)} (h : combine id newer s s' = s) :
    s'.length ≤ s.length ∧ (applyInPlace s s').isSome = true := by
  fun_induction applyInPlace s s' with
  | case1 dst => exact ⟨Nat.zero_le _, rfl⟩
  | case2 => cases h
  | case3 d dst s src lt ih =>
    rw [combine_cons_cons, if_pos lt] at h
    obtain ⟨le, some⟩ := ih (cons.inj h).2
    exact ⟨Nat.le_succ_of_le le, by simpa using some⟩
  | case4 d dst s src ge ne =>
    rw [combine_cons_cons, if_neg ge, if_pos (lt_of_le_of_ne (not_lt.1 ge) ne.symm)] at h
    exact absurd (congrArg id (cons.inj h).1).symm ne
  | case5 d dst s src ge same ih =>
    rw [combine_cons_cons, if_neg ge, if_neg (by rw [not_ne_iff.1 same]; exact lt_irrefl _)] at h
    obtain ⟨le, some⟩ := ih (cons.inj h).2
    exact ⟨Nat.succ_le_succ le, by simpa using some⟩

namespace CollectionMutation

variable {d a b : CollectionMutation Key} (ha : d.merge a = d) (hb : d.merge b = d)
include ha

theorem tomb_of_absorbs : a.tomb ≤ d.tomb := max_eq_left_iff.1 (congrArg tomb ha)

/-- What the tombstone of `d` leaves, that of `a` leaves. -/
theorem spared_of_absorbs (o : Option AtomicCell) : spared d.tomb (spared a.tomb o) = spared d.tomb o := by
  have le := Tombstone.timestamp_le (tomb_of_absorbs ha)
  refine Option.ext fun c => ?_
  rw [spared_eq_some, spared_eq_some, spared_eq_some]
  exact ⟨fun h => ⟨h.1.1, h.2⟩, fun h => ⟨⟨h.1, le.trans_lt h.2⟩, h.2⟩⟩

theorem find_of_absorbs (k : Key) : spared a.tomb (d.find k) = d.find k ∧
    Option.merge AtomicCell.pick (d.find k) (spared d.tomb (a.find k)) = d.find k := by
  have found := find_merge d a k
  rw [ha] at found
  have kept : spared a.tomb (d.find k) = d.find k := by
    cases hk : d.find k with
    | none => rfl
    | some c =>
      refine spared_of_lt (lt_of_not_ge fun old => ?_)
      rw [hk, spared_of_le old, Option.merge_none_left] at found
      have := (spared_eq_some.1 found.symm).2.trans_le old
      exact this.not_ge (Tombstone.timestamp_le (tomb_of_absorbs ha))
  rw [kept] at found
  exact ⟨kept, found.symm⟩

include hb

theorem absorbs_merge : d.merge (a.merge b) = d := by
  refine ext_find (max_eq_left (max_le (tomb_of_absorbs ha) (tomb_of_absorbs hb))) fun k => ?_
  obtain ⟨keptA, foundA⟩ := find_of_absorbs ha k
  obtain ⟨keptB, foundB⟩ := find_of_absorbs hb k
  have kept : spared (max a.tomb b.tomb) (d.find k) = d.find k := by
    rcases max_choice a.tomb b.tomb with e | e <;> rwa [e]
  have choice (c d : AtomicCell) : c.pick d = c ∨ c.pick d = d := ite_eq_or_eq _ _ _
  rw [find_merge, find_merge, show (a.merge b).tomb = max a.tomb b.tomb from rfl, kept]
  rcases Option.merge_eq_or_eq choice (spared b.tomb (a.find k)) (spared a.tomb (b.find k)) with e | e <;> rw [e]
  · rwa [spared_of_absorbs hb]
  · rwa [spared_of_absorbs ha]

end CollectionMutation

namespace ColumnCell

/-- Cells of different types leave each other alone. -/
theorem merge_of_ne {dst src : ColumnCell Key Id} (ne : dst.data.type ≠ src.data.type) : merge dst src 0 = dst := by
  obtain ⟨d, _⟩ := dst
  obtain ⟨s, _⟩ := src
  cases d with
  | counter c => cases c <;> cases s <;> first | rfl | exact absurd rfl ne
  | _ => cases s <;> first | rfl | exact absurd rfl ne

instance : LawfulCellOps (ColumnCell Key Id) where
  absorbs_merge d a b ha hb := by
    by_cases da : d.data.type = a.data.type
    · by_cases ab : a.data.type = b.data.type
      · obtain ⟨d, v⟩ := d
        obtain ⟨a, va⟩ := a
        obtain ⟨b, vb⟩ := b
        cases d <;> cases a <;> cases da <;> cases b <;> cases ab
        case atomic.atomic.refl.atomic.refl d a b =>
          change merge _ (⟨.atomic (if a.compareForMerge b = .lt then b else a), va⟩ : ColumnCell Key Id) 0 = _
          split
          · exact hb
          · exact ha
        case counter.counter.refl.counter.refl d a b =>
          cases d <;> cases a <;> cases b
          case live.live.live t s hs ta sa hsa tb sb hsb =>
            simp only [CellOps.merge, CellData.merge, CounterCell.merge, versionAfter, mk.injEq, CellData.counter.injEq,
              CounterCell.live.injEq, CounterShard.apply_eq] at ha hb ⊢
            have shards := combine_absorbs hs hsa hsb (fun _ _ => CounterShard.newer_id)
              (fun _ _ => (ite_eq_or_eq _ _ _).symm) ha.1.2 hb.1.2
            refine ⟨⟨?_, shards⟩, if_pos (CounterShard.applyInPlace_of_combine shards)⟩
            rw [← max_assoc, ha.1.1, hb.1.1]
          case dead.dead.dead t d t' d' t'' d'' =>
            simp only [CellOps.merge, CellData.merge, CounterCell.merge, versionAfter]
            by_cases lt : (AtomicCell.dead t' d').compareForMerge (.dead t'' d'') = .lt
            · simp only [if_pos lt]
              exact hb
            · simp only [if_neg lt]
              exact ha
          -- a deletion is final
          all_goals first | rfl | exact ha | exact hb | cases ha
        case collection.collection.refl.collection.refl =>
          simp only [CellOps.merge, CellData.merge, versionAfter, mk.injEq, CellData.collection.injEq] at ha hb ⊢
          exact ⟨CollectionMutation.absorbs_merge ha.1 hb.1, ha.2⟩
      · rwa [merge_of_ne ab]
    · exact merge_of_ne (ne_of_ne_of_eq da (CellData.type_merge a.data b.data).symm)

end ColumnCell

end ColumnCell

theorem Tombstone.absorbs_apply {t a b : Tombstone} (ha : t.apply a = t) (hb : t.apply b = t) :
    t.apply (a.apply b) = t := by
  rcases Tombstone.apply_choice a b with h | h <;> rw [h]
  · exact ha
  · exact hb

namespace Row

variable [CellOps C] {r other : Row C}

omit [CellOps C] in
theorem findCell_reserve (r : Row C) (last id : ColumnId) : (r.reserve last).findCell id = r.findCell id := by
  unfold findCell
  rw [cells_reserve]

/-- Without a version to record, a cell is merged alike in both kinds of storage. -/
theorem cells_applyCell_zero (r : Row C) (id : ColumnId) (value : C) :
    (r.applyCell id value 0).cells = upsert id value (merge · value 0) r.cells := by
  unfold applyCell
  split <;> rfl

theorem findCell_applyCell (h : r.Sorted) (id : ColumnId) (value : C) (j : ColumnId) :
    (r.applyCell id value 0).findCell j =
      if j = id then some ((r.findCell id).elim value (merge · value 0)) else r.findCell j := by
  have keeps : ∀ p : ColumnId × C, (p.1, merge p.2 value 0).1 = p.1 := fun _ => rfl
  unfold findCell
  rw [cells_applyCell_zero, upsert, find?_upsert h keeps]
  by_cases hj : j = id
  · subst hj
    rw [if_pos rfl, if_pos rfl]
    cases r.cells.find? fun p => decide (p.1 = j) <;> rfl
  · rw [if_neg hj, if_neg hj]

variable {cells : List (ColumnId × C)}

theorem findCell_foldl_of_ne {id : ColumnId} (h : r.Sorted) (ne : ∀ p ∈ cells, p.1 ≠ id) :
    (cells.foldl (fun r p => r.applyCell p.1 p.2 0) r).findCell id = r.findCell id := by
  induction cells generalizing r with
  | nil => rfl
  | cons p cells ih =>
    obtain ⟨hp, ne⟩ := forall_mem_cons.1 ne
    rw [foldl_cons, ih (h.applyCell p.1 p.2 0) ne, findCell_applyCell h, if_neg hp.symm]

theorem findCell_foldl (h : r.Sorted) (sorted : Lib.Sorted Prod.fst cells) {p : ColumnId × C} (hp : p ∈ cells) :
    (cells.foldl (fun r p => r.applyCell p.1 p.2 0) r).findCell p.1 =
      some ((r.findCell p.1).elim p.2 (merge · p.2 0)) := by
  induction cells generalizing r with
  | nil => exact absurd hp not_mem_nil
  | cons q cells ih =>
    obtain ⟨first, sorted⟩ := pairwise_cons.1 sorted
    rw [foldl_cons]
    rcases mem_cons.1 hp with rfl | hp
    · rw [findCell_foldl_of_ne (h.applyCell _ _ 0) fun q hq => (first q hq).ne', findCell_applyCell h, if_pos rfl]
    · rw [ih (h.applyCell _ _ 0) sorted hp, findCell_applyCell h, if_neg (first p hp).ne']

/-- Every cell of `other` loses against the one that `r` has in its column, and needs no other storage. -/
def Absorbs (r other : Row C) : Prop :=
  ∀ p ∈ other.cells, (r.storage = .set ∨ p.1 < maxVectorSize) ∧
    ∃ d, r.findCell p.1 = some d ∧ merge d p.2 0 = d

theorem applyCell_eq_self (h : r.Sorted) {id : ColumnId} {value : C} (storage : r.storage = .set ∨ id < maxVectorSize)
    {d : C} (found : r.findCell id = some d) (same : merge d value 0 = d) : r.applyCell id value 0 = r := by
  obtain ⟨p, hp, rfl⟩ := Option.map_eq_some_iff.1 found
  have cells : upsert id value (merge · value 0) r.cells = r.cells :=
    upsert_eq_self h hp (Prod.ext rfl same)
  unfold applyCell
  rw [cells]
  split
  · rfl
  next hs =>
    have set : r.storage = .set := by
      rcases storage with set | lt
      · exact set
      · cases hr : r.storage with
        | set => rfl
        | vector => exact absurd ⟨hr, lt⟩ hs
    rw [← set]

omit [CellOps C] in
theorem reserve_eq_self {last : ColumnId} (storage : r.storage = .set ∨ last < maxVectorSize) : r.reserve last = r := by
  unfold reserve
  split
  next ge =>
    have set := storage.resolve_right (Nat.not_lt.2 ge)
    rw [← set]
  · rfl

theorem Absorbs.apply_eq_self (h : r.Sorted) (absorbs : r.Absorbs other) : r.apply other = r := by
  unfold Row.apply
  cases hl : other.cells.getLast? with
  | none => rfl
  | some last =>
    simp only
    rw [reserve_eq_self (absorbs last (mem_of_getLast? hl)).1]
    refine foldlRecOn (motive := (· = r)) other.cells _ rfl fun r' hr' p hp => ?_
    obtain ⟨storage, d, found, same⟩ := absorbs p hp
    rw [hr', applyCell_eq_self h storage found same]

theorem storage_foldl (cells : List (ColumnId × C)) (h : r.storage = .set) :
    (cells.foldl (fun r p => r.applyCell p.1 p.2 0) r).storage = .set := by
  refine foldlRecOn (motive := fun r : Row C => r.storage = .set) cells _ h fun r hr p _ => ?_
  simp [applyCell, hr]

theorem absorbs_of_apply_eq_self (h : r.Sorted) (ho : other.Sorted) (eq : r.apply other = r) : r.Absorbs other := by
  intro p hp
  unfold Row.apply at eq
  cases hl : other.cells.getLast? with
  | none =>
    rw [getLast?_eq_none_iff.1 hl] at hp
    exact absurd hp not_mem_nil
  | some last =>
    simp only [hl] at eq
    constructor
    · by_cases ge : last.1 ≥ maxVectorSize
      · left
        rw [← eq]
        exact storage_foldl _ (by simp [reserve, ge])
      · right
        obtain ⟨xs, hxs⟩ := getLast?_eq_some_iff.1 hl
        have le : p.1 ≤ last.1 := by
          rw [hxs] at hp
          rcases mem_append.1 hp with hp | hp
          · unfold Row.Sorted at ho
            rw [hxs] at ho
            exact ((pairwise_append.1 ho).2.2 p hp last (by simp)).le
          · rw [mem_singleton.1 hp]
        exact Nat.lt_of_le_of_lt le (Nat.not_le.1 ge)
    · have found := findCell_foldl (h.reserve last.1) ho hp
      rw [eq, findCell_reserve] at found
      cases hr : r.findCell p.1 with
      | none =>
        rw [hr] at found
        cases found
      | some d =>
        rw [hr] at found
        exact ⟨d, rfl, (Option.some.inj found).symm⟩

/-- A row absorbs the sum of two rows that it absorbs. -/
theorem Absorbs.apply [LawfulCellOps C] {a b : Row C} (ha : r.Absorbs a) (hb : r.Absorbs b) : r.Absorbs (a.apply b) := by
  unfold Row.apply
  split
  · exact ha
  · refine foldlRecOn (motive := fun a : Row C => r.Absorbs a) b.cells _ ?_ fun a ha p hp => ?_
    · unfold Absorbs
      rw [cells_reserve]
      exact ha
    · unfold Absorbs
      rw [cells_applyCell_zero]
      refine forall_mem_upsert (hb p hp) ha fun q hq hq' => ⟨hq'.1, ?_⟩
      obtain ⟨d, found, same⟩ := hq'.2
      obtain ⟨-, d', found', same'⟩ := hb p hp
      cases (hq ▸ found').symm.trans found
      exact ⟨d, found, LawfulCellOps.absorbs_merge d q.2 p.2 same same'⟩

end Row

end ScyllaMoon.Mutation
