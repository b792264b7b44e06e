import ScyllaMoon.Lib.Join
import ScyllaMoon.Mutation.WellFormed

/-!
# Reconciliation keeps the greater

Tombstones are ordered by timestamp and deletion time. `compare_atomic_cell_for_merge` and
`compare_row_marker_for_merge` compare ranks: the timestamp, then what is deleted above what is live,
then the value, then what expires above what does not, then the time. Deletion times are compared as
`uint32_t`, which tells two of them apart because `gc_clock` counts in an `int32_t`.
-/

namespace ScyllaMoon.Mutation

open Lib

namespace Tombstone

def rank (t : Tombstone) : Int ×ₗ Int := toLex (t.timestamp, t.deletionTime)

theorem rank_injective : Function.Injective rank := by
  intro t u h
  cases t
  cases u
  simpa [rank] using h

instance : LinearOrder Tombstone := LinearOrder.lift' rank rank_injective

variable {t u : Tombstone}

theorem lt_iff : t < u ↔ t.timestamp < u.timestamp ∨ t.timestamp = u.timestamp ∧ t.deletionTime < u.deletionTime :=
  Prod.Lex.toLex_lt_toLex

theorem le_iff : t ≤ u ↔ t.timestamp < u.timestamp ∨ t.timestamp = u.timestamp ∧ t.deletionTime ≤ u.deletionTime :=
  Prod.Lex.toLex_le_toLex

theorem timestamp_le (h : t ≤ u) : t.timestamp ≤ u.timestamp := by
  rcases le_iff.1 h with h | h
  · exact h.le
  · exact h.1.le

theorem compare_eq_lt : t.compare u = .lt ↔ t < u := by
  simp [Tombstone.compare, Ordering.then_eq_lt, lt_iff, compare_lt_iff_lt]

theorem apply_eq_max (t u : Tombstone) : t.apply u = max t u := by
  unfold Tombstone.apply
  by_cases h : t < u
  · rw [if_pos (compare_eq_lt.2 h), max_eq_right h.le]
  · rw [if_neg (fun hc => h (compare_eq_lt.1 hc)), max_eq_left (not_lt.1 h)]

/-- A tombstone is empty or has a timestamp. -/
def Written (t : Tombstone) : Prop := t = {} ∨ missingTimestamp < t.timestamp

theorem written_empty : ({} : Tombstone).Written := .inl rfl

theorem Written.ge (h : t.Written) : {} ≤ t := by
  rcases h with rfl | h
  · exact le_rfl
  · exact le_iff.2 (.inl h)

theorem Written.max (h : t.Written) (hu : u.Written) : (max t u).Written := by
  rcases le_total t u with e | e
  · rwa [max_eq_right e]
  · rwa [max_eq_left e]

theorem overlay_eq_merge (new old : Option Tombstone) : overlay new old = Option.merge max old new := by
  cases new with
  | none => simp
  | some t => cases old with
    | none => rfl
    | some u => exact congrArg some ((apply_eq_max t u).trans (max_comm t u))

theorem isJoin : IsJoin (fun _ : Tombstone => True) (· ≤ ·) max :=
  .of_choice le_refl (fun _ _ _ => le_trans) fun t u _ _ => by
    rcases le_total t u with h | h
    · exact .inr ⟨max_eq_right h, h⟩
    · exact .inl ⟨max_eq_left h, h⟩

end Tombstone

/-- The numbers of an `int32_t`. -/
def IsInt32 (n : Int) : Prop := -2147483648 ≤ n ∧ n < 2147483648

/-- Deletion times that differ still do so as `uint32_t`. -/
theorem compare_uint32 {d e : Int} (hd : IsInt32 d) (he : IsInt32 e) :
    (if d = e then .eq else if d % 4294967296 < e % 4294967296 then .lt else .gt : Ordering) =
      compare (d % 4294967296) (e % 4294967296) := by
  unfold IsInt32 at hd he
  by_cases h : d = e
  · simp [h]
  · rw [if_neg h]
    by_cases lt : d % 4294967296 < e % 4294967296
    · rw [if_pos lt, compare_lt_iff_lt.2 lt]
    · rw [if_neg lt, compare_gt_iff_gt.2 (by omega)]

theorem compareUnsigned_eq (v w : List UInt8) : compareUnsigned v w = compare v w := by
  induction v generalizing w with
  | nil => cases w <;> rfl
  | cons a v ih => cases w with
    | nil => rfl
    | cons b w => rw [compareUnsigned, ih, List.compare_cons_cons]

namespace AtomicCell

def rank : AtomicCell → Int ×ₗ Bool ×ₗ List UInt8 ×ₗ Bool ×ₗ Int
  | live t v => toLex (t, toLex (false, toLex (v, toLex (false, 0))))
  | expiring t v e _ => toLex (t, toLex (false, toLex (v, toLex (true, e))))
  | dead t d => toLex (t, toLex (true, toLex ([], toLex (false, d % 4294967296))))

/-- The deletion time is one of `gc_clock`. -/
def Fits : AtomicCell → Prop
  | dead _ d => IsInt32 d
  | _ => True

variable {l r : AtomicCell}

theorem compareForMerge_eq (hl : l.Fits) (hr : r.Fits) : l.compareForMerge r = compare l.rank r.rank := by
  cases l <;> cases r <;>
    simp only [compareForMerge, rank, timestamp, Prod.Lex.compare_def, compareLex, compareOn, ofLex_toLex,
      compareUnsigned_eq, Std.ReflOrd.compare_self, Ordering.eq_then, Ordering.then_eq]
  case dead.dead => rw [compare_uint32 hl hr]
  all_goals rfl

theorem compareForMerge_swap (hl : l.Fits) (hr : r.Fits) : (l.compareForMerge r).swap = r.compareForMerge l := by
  rw [compareForMerge_eq hl hr, compareForMerge_eq hr hl, ← Std.OrientedOrd.eq_swap]

theorem compareForMerge_of_timestamp_gt (h : r.timestamp < l.timestamp) : l.compareForMerge r = .gt := by
  unfold compareForMerge
  rw [compare_gt_iff_gt.2 h]
  rfl

theorem rank_fst (c : AtomicCell) : (ofLex c.rank).1 = c.timestamp := by cases c <;> rfl

theorem timestamp_le (h : RankLe rank l r) : l.timestamp ≤ r.timestamp := by
  by_contra lt
  have gt : compare l.timestamp r.timestamp = .gt := compare_gt_iff_gt.2 (not_le.1 lt)
  simp [RankLe, Prod.Lex.compare_def, compareLex, compareOn, rank_fst, gt] at h

end AtomicCell

namespace RowMarker

def rank (m : RowMarker) : Int ×ₗ Bool ×ₗ Bool ×ₗ Int :=
  toLex (m.timestamp, if m.isLive then toLex (false, toLex (m.isExpiring, if m.isExpiring then m.expiry else 0))
    else toLex (true, toLex (false, m.deletionTime % 4294967296)))

/-- The deletion time of a marker that has one is one of `gc_clock`. -/
def Fits (m : RowMarker) : Prop := m.isLive = false → IsInt32 m.deletionTime

variable {l r : RowMarker}

theorem compareForMerge_eq (hl : l.Fits) (hr : r.Fits) : l.compareForMerge r = compare l.rank r.rank := by
  unfold compareForMerge rank
  cases livel : l.isLive <;> cases liver : r.isLive
  case false.false =>
    simp [Prod.Lex.compare_def, compareLex, compareOn, compare_uint32 (hl livel) (hr liver)]
  all_goals cases l.isExpiring <;> cases r.isExpiring <;> simp [Prod.Lex.compare_def, compareLex, compareOn]
  all_goals rfl

theorem isJoin : IsJoin Fits (RankLe rank) RowMarker.apply := .of_rank fun l r hl hr => by
  unfold RowMarker.apply RankLe
  rw [compareForMerge_eq hl hr, Std.OrientedOrd.eq_swap (a := r.rank)]
  cases compare l.rank r.rank <;> simp

end RowMarker

namespace AtomicCell

/-- What two cells of an atomic column become: `dst` is kept unless `src` is greater. -/
def merge (dst src : AtomicCell) : AtomicCell := if dst.compareForMerge src = .lt then src else dst

theorem isJoin : IsJoin Fits (RankLe rank) merge := .of_rank fun dst src hd hs => by
  unfold merge RankLe
  rw [compareForMerge_eq hd hs, Std.OrientedOrd.eq_swap (a := src.rank)]
  cases compare dst.rank src.rank <;> simp

/-- What two cells of a collection become: the second is kept unless the first is greater. -/
def pick (c d : AtomicCell) : AtomicCell := if c.compareForMerge d = .gt then c else d

theorem isJoin_pick : IsJoin Fits (RankLe rank) pick := .of_rank fun c d hc hd => by
  unfold pick RankLe
  rw [compareForMerge_eq hc hd, Std.OrientedOrd.eq_swap (a := d.rank)]
  cases compare c.rank d.rank <;> simp

end AtomicCell

namespace RangeTombstoneList

open List

variable {Pos : Type} [LinearOrder Pos] {m m' : RangeTombstoneList Pos}

/-- Ranges that are applied one after the other leave the greatest tombstone at every position. -/
theorem tombstoneAt_applied (proper : ∀ rt ∈ m, rt.start < rt.stop) {x : Pos} {t : Tombstone} :
    (applyAll [] m).tombstoneAt x = some t ↔
      (∃ rt ∈ m, rt.Covers x ∧ rt.tomb = t) ∧ ∀ rt ∈ m, rt.Covers x → rt.tomb ≤ t := by
  have greatest : (applyAll [] m).tombstoneAt x = ((m.filter fun rt => rt.Covers x).map RangeTombstone.tomb).max? := by
    induction m using reverseRecOn with
    | nil => rfl
    | append_singleton m rt ih =>
      obtain ⟨before, last⟩ := forall_mem_append.1 proper
      have spec := (apply_spec (wellFormed_nil.applyAll before) (last rt mem_cons_self)).2 x
      rw [applyAll_append]
      refine (spec.trans (Tombstone.overlay_eq_merge ..)).trans ?_
      rw [ih before, filter_append, map_append]
      by_cases covers : rt.Covers x
      · cases (m.filter fun rt => rt.Covers x).map RangeTombstone.tomb <;>
          simp [covers, RangeTombstone.tombstoneAt, -max?_cons, max?_cons', Option.merge]
      · simp [covers, RangeTombstone.tombstoneAt]
  rw [greatest, max?_eq_some_iff]
  grind

/-- Lists that are applied one after the other leave the greatest of their tombstones at every position. -/
theorem tombstoneAt_applyAll_flatMap {α : Type} {ps : List α} {f : α → RangeTombstoneList Pos} (h : WellFormed m)
    (hf : ∀ p ∈ ps, WellFormed (f p)) (x : Pos) : (applyAll m (ps.flatMap f)).tombstoneAt x =
      ((m.tombstoneAt x).toList ++ ps.filterMap fun p => (f p).tombstoneAt x).max? := by
  induction ps generalizing m with
  | nil => cases hm : m.tombstoneAt x <;> simp [applyAll, hm]
  | cons p ps ih =>
    obtain ⟨hp, hf⟩ := forall_mem_cons.1 hf
    rw [flatMap_cons, applyAll_append, ih (h.applyAll hp.proper) hf, tombstoneAt_applyAll h hp,
      Tombstone.overlay_eq_merge]
    cases m.tombstoneAt x <;> cases hl : (f p).tombstoneAt x <;>
      simp [hl, -max?_cons, max?_cons', Option.merge]

/-- Ranges that are applied in any order, however often, leave disjoint ranges with the greatest tombstone everywhere. -/
theorem applied_ranges_exact (proper : ∀ rt ∈ m, rt.start < rt.stop) (same : ∀ rt, rt ∈ m' ↔ rt ∈ m) :
    (applyAll [] m').WellFormed ∧ ∀ x t, (applyAll [] m').tombstoneAt x = some t ↔
      (∃ rt ∈ m, rt.Covers x ∧ rt.tomb = t) ∧ ∀ rt ∈ m, rt.Covers x → rt.tomb ≤ t := by
  simp only [← same] at proper ⊢
  exact ⟨wellFormed_nil.applyAll proper, fun _ _ => tombstoneAt_applied proper⟩

theorem applied_ranges_exact_older : (applyAll [] [⟨3, 6, ⟨8, 0⟩⟩, ⟨1, 5, ⟨7, 0⟩⟩] : RangeTombstoneList Nat).tombstoneAt 4 =
    some ⟨8, 0⟩ :=
  ((applied_ranges_exact (by decide) fun _ => Iff.rfl).2 4 _).2 (by decide +kernel)

end RangeTombstoneList

end ScyllaMoon.Mutation
