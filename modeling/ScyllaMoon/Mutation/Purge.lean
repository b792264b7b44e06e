import ScyllaMoon.Mutation.CompactContent

/-!
# Compaction and other data of the key

Other data of the key, in memtables or sstables that are not compacted, is merged with what compaction
leaves. A tombstone is purged only if it is older than all of that data, so it deletes none of it. What
compaction drops was covered by a tombstone that either stays or is older than the other data.
-/

namespace ScyllaMoon.Mutation

open Lib Tombstone RowTombstone RowMarker CollectionMutation Option

variable {Pos Key Id : Type} [LinearOrder Key] [LinearOrder Id]

/-- `t` covers a partition that is compacted and purged below `bound`; `e` covers the merge with other
data before, `e'` after it. Both cover the same of what is newer than `t` or not below the bound. -/
structure PurgedAlike (bound : Int) (t e e' : Tombstone) : Prop where
  le : t.timestamp ≤ e.timestamp
  newer : ∀ s, t.timestamp < s → (s ≤ e.timestamp ↔ s ≤ e'.timestamp)
  outside : ∀ s, bound ≤ s → (s ≤ e.timestamp ↔ s ≤ e'.timestamp)

/-- The cell of a column, or of a key of its collection. -/
def CellData.cellAt : CellData Key Id → Option Key → Option AtomicCell
  | atomic c, none => some c
  | collection m, some k => m.find k
  | _, _ => none

/-- The tombstone of a collection. -/
def CellData.tomb : CellData Key Id → Tombstone
  | collection m => m.tomb
  | _ => {}

/-- The cell that is newer. -/
def newest (a b : AtomicCell) : AtomicCell := if a.timestamp < b.timestamp then b else a

/-- The cell, if it is live. -/
def liveCell (t : Tombstone) (now : Int) (o : Option AtomicCell) : Option AtomicCell := o.filter fun c => c.isLiveAt t now

section Cell

variable {bound : Int} {e : Expiry} {t u u' : Tombstone} {now : Int}

/-- What may be purged is below the bound. -/
def Expiry.PurgesBelow (e : Expiry) (bound : Int) : Prop := ∀ t, e.canPurge t = true → t.timestamp < bound

/-- What is left of a cell: nothing if it is covered or purged, or a cell of its timestamp that is live
whenever the cell was. -/
inductive Leaves (e : Expiry) (bound : Int) (t : Tombstone) (c : AtomicCell) : Option AtomicCell → Prop
  | covered (le : c.timestamp ≤ t.timestamp) : Leaves e bound t c none
  | purged (below : c.timestamp < bound) (gone : ∀ u now, e.queryTime ≤ now → c.isLiveAt u now = false) : Leaves e bound t c none
  | kept (d : AtomicCell) (newer : t.timestamp < c.timestamp) (same : d.timestamp = c.timestamp)
      (live : ∀ u now, e.queryTime ≤ now → liveCell u now (some d) = liveCell u now (some c)) :
      Leaves e bound t c (some d)

open Option (filter merge merge_some_some)

theorem AtomicCell.leaves_compactAndExpire (purges : e.PurgesBelow bound) (c : AtomicCell) :
    Leaves e bound t c (c.compactAndExpire e ⟨t, t⟩).1 := by
  unfold AtomicCell.compactAndExpire
  split
  next covered =>
    exact .covered (by simpa [isCoveredBy] using covered)
  next uncovered =>
    have newer : t.timestamp < c.timestamp := by simpa [isCoveredBy] using uncovered
    split
    next expired =>
      have gone : ∀ u now, e.queryTime ≤ now → c.isLiveAt u now = false := fun u now later => by
        cases c with
        | expiring ts v expiry ttl =>
          have : expiry ≤ now := (by simpa [hasExpired] using expired : expiry ≤ e.queryTime).trans later
          simp [isLiveAt, hasExpired, this]
        | live | dead => cases expired
      split
      next purge =>
        exact .purged (purges _ purge) gone
      · have never : ∀ u now, (dead c.timestamp c.deletionTime).isLiveAt u now = false := fun _ _ => rfl
        refine .kept _ newer rfl fun u now later => ?_
        simp only [liveCell, filter, gone u now later, never, Bool.false_eq_true, if_false]
    · split
      · have gone : ∀ u now, e.queryTime ≤ now → c.isLiveAt u now = false := fun u now _ => by
          simp_all [isLiveAt]
        split
        next purge =>
          exact .purged (purges _ purge) gone
        · exact .kept _ newer rfl fun _ _ _ => rfl
      · exact .kept _ newer rfl fun _ _ _ => rfl

variable {c : AtomicCell}

theorem liveCell_congr (h : c.timestamp ≤ u.timestamp ↔ c.timestamp ≤ u'.timestamp) :
    liveCell u now (some c) = liveCell u' now (some c) := by
  simp only [liveCell, filter, c.isLiveAt_congr h]

theorem liveCell_of_covered (h : c.timestamp ≤ u.timestamp) : liveCell u now (some c) = none := by
  simp [liveCell, filter, c.isLiveAt_of_covered h]

variable {a b : AtomicCell}

theorem newest_left (h : b.timestamp < a.timestamp) : newest a b = a := if_neg h.le.not_gt

theorem newest_right (h : a.timestamp < b.timestamp) : newest a b = b := if_pos h

/-- A cell that compaction keeps or drops is as live as before, with the newer of the other data. -/
theorem live_newest_compact (purges : e.PurgesBelow bound) (alike : PurgedAlike bound t u u') (later : e.queryTime ≤ now)
    {c d : Option AtomicCell} (apart : ∀ a ∈ c, ∀ b ∈ d, a.timestamp ≠ b.timestamp) (other : ∀ b ∈ d, bound ≤ b.timestamp) :
    liveCell u' now (merge newest (c.bind fun a => (a.compactAndExpire e ⟨t, t⟩).1) d) =
      liveCell u now (merge newest c d) := by
  have outside : ∀ b ∈ d, liveCell u' now (some b) = liveCell u now (some b) :=
    fun b hb => (liveCell_congr (alike.outside _ (other b hb))).symm
  cases c with
  | none => cases d with
    | none => rfl
    | some b => exact outside b rfl
  | some a =>
    have leaves := a.leaves_compactAndExpire (t := t) purges
    rw [bind_some]
    generalize (a.compactAndExpire e ⟨t, t⟩).1 = k at leaves
    cases leaves with
    | covered le =>
      have gone := (liveCell_of_covered (le.trans alike.le) : liveCell u now (some a) = none)
      cases d with
      | none => exact gone.symm
      | some b =>
        rcases lt_or_gt_of_ne (apart a rfl b rfl) with lt | gt
        · rw [merge_some_some, newest_right lt]
          exact outside b rfl
        · -- what the tombstone covered still is
          rw [merge_some_some, newest_left gt, gone]
          exact (outside b rfl).trans (liveCell_of_covered ((gt.le.trans le).trans alike.le))
    | purged below gone =>
      cases d with
      | none => simp [liveCell, filter, gone u now later]
      | some b =>
        rw [merge_some_some, newest_right (below.trans_le (other b rfl))]
        exact outside b rfl
    | kept k newer same live =>
      have kept : liveCell u' now (some k) = liveCell u now (some a) :=
        (live u' now later).trans (liveCell_congr (alike.newer _ newer).symm)
      cases d with
      | none => exact kept
      | some b =>
        rcases lt_or_gt_of_ne (apart a rfl b rfl) with lt | gt
        · rw [merge_some_some, merge_some_some, newest_right lt, newest_right (same ▸ lt)]
          exact outside b rfl
        · rw [merge_some_some, merge_some_some, newest_left gt, newest_left (same.symm ▸ gt)]
          exact kept

end Cell

namespace AtomicCell

variable {a b : AtomicCell}

theorem compareForMerge_of_timestamp_lt (h : a.timestamp < b.timestamp) : a.compareForMerge b = .lt := by
  unfold compareForMerge
  rw [compare_lt_iff_lt.2 h]
  rfl

theorem merge_eq_newest (h : a.timestamp ≠ b.timestamp) : a.merge b = newest a b := by
  unfold merge
  rcases lt_or_gt_of_ne h with lt | gt
  · rw [compareForMerge_of_timestamp_lt lt, newest_right lt, if_pos rfl]
  · rw [compareForMerge_of_timestamp_gt gt, newest_left gt, if_neg (by decide)]

theorem pick_eq_newest (h : a.timestamp ≠ b.timestamp) : a.pick b = newest a b := by
  unfold pick
  rcases lt_or_gt_of_ne h with lt | gt
  · rw [compareForMerge_of_timestamp_lt lt, newest_right lt, if_neg (by decide)]
  · rw [compareForMerge_of_timestamp_gt gt, newest_left gt, if_pos rfl]

/-- A shadowable tombstone that is not newer than the regular one makes no difference. -/
theorem compactAndExpire_regular (e : Expiry) {t s : Tombstone} (h : s.timestamp ≤ t.timestamp) (c : AtomicCell) :
    c.compactAndExpire e ⟨t, s⟩ = c.compactAndExpire e ⟨t, t⟩ := by
  unfold compactAndExpire
  by_cases covered : c.timestamp ≤ t.timestamp
  · simp [isCoveredBy, covered]
  · have uncovered : ¬c.timestamp ≤ s.timestamp := fun le => covered (le.trans h)
    simp [isCoveredBy, covered, uncovered]

end AtomicCell

theorem Tombstone.timestamp_max (t u : Tombstone) : (max t u).timestamp = max t.timestamp u.timestamp := by
  rcases le_total t u with h | h
  · rw [max_eq_right h, max_eq_right (timestamp_le h)]
  · rw [max_eq_left h, max_eq_left (timestamp_le h)]

namespace CollectionMutation

variable {m n : CollectionMutation Key} {k : Key} {u : Tombstone} {now : Int}

/-- Cells that the tombstone of the other collection kills are not live anyway. -/
theorem liveCell_find_merge (hm : m.tomb ≤ u) (hn : n.tomb ≤ u)
    (apart : ∀ a ∈ m.find k, ∀ b ∈ n.find k, a.timestamp ≠ b.timestamp) :
    liveCell u now ((m.merge n).find k) = liveCell u now (Option.merge newest (m.find k) (n.find k)) := by
  have killed : ∀ {t : Tombstone} {c : AtomicCell}, t ≤ u → c.timestamp ≤ t.timestamp →
      liveCell u now (some c) = none := fun ht hc => liveCell_of_covered (hc.trans (timestamp_le ht))
  rw [find_merge]
  cases hm' : m.find k with
  | none => cases hn' : n.find k with
    | none => rfl
    | some b =>
      rcases le_or_gt b.timestamp m.tomb.timestamp with le | lt
      · rw [spared_of_le le]
        exact (killed hm le).symm
      · rw [spared_of_lt lt]
        rfl
  | some a => cases hn' : n.find k with
    | none =>
      rcases le_or_gt a.timestamp n.tomb.timestamp with le | lt
      · rw [spared_of_le le]
        exact (killed hn le).symm
      · rw [spared_of_lt lt]
        rfl
    | some b =>
      have ne := apart a hm' b hn'
      rw [merge_some_some]
      rcases le_or_gt a.timestamp n.tomb.timestamp with lea | lta <;>
        rcases le_or_gt b.timestamp m.tomb.timestamp with leb | ltb
      · rw [spared_of_le lea, spared_of_le leb]
        rcases lt_or_gt_of_ne ne with lt | gt
        · rw [newest_right lt]
          exact (killed hm leb).symm
        · rw [newest_left gt]
          exact (killed hn lea).symm
      · rw [spared_of_le lea, spared_of_lt ltb]
        rcases lt_or_gt_of_ne ne with lt | gt
        · rw [newest_right lt]
          rfl
        · rw [newest_left gt]
          exact (killed hn (gt.le.trans lea)).trans (killed hn lea).symm
      · rw [spared_of_lt lta, spared_of_le leb]
        rcases lt_or_gt_of_ne ne with lt | gt
        · rw [newest_right lt]
          exact (killed hm (lt.le.trans leb)).trans (killed hm leb).symm
        · rw [newest_left gt]
          rfl
      · rw [spared_of_lt lta, spared_of_lt ltb, merge_some_some, AtomicCell.pick_eq_newest ne]

end CollectionMutation

/-- The cell of a column that may have none. -/
def cellAt (o : Option (CellData Key Id)) (k : Option Key) : Option AtomicCell := o.bind fun d => d.cellAt k

/-- The tombstone of a column that may be a collection. -/
def tombOf (o : Option (CellData Key Id)) : Tombstone := (o.map CellData.tomb).getD {}

@[simp] theorem cellAt_none (k : Option Key) : cellAt (none : Option (CellData Key Id)) k = none := rfl

@[simp] theorem cellAt_some (d : CellData Key Id) (k : Option Key) : cellAt (some d) k = d.cellAt k := rfl

variable {t : Tombstone}

theorem max_tombOf_none (ht : {} ≤ t) : max t (tombOf (none : Option (CellData Key Id))) = t := max_eq_left ht

/-- A column of the given type, which may have no cell. -/
def OfType (ct : CellType) (o : Option (CellData Key Id)) : Prop := ∀ d ∈ o, d.type = ct

theorem CellData.live_eq {d : CellData Key Id} (noCounter : d.type ≠ .counter) (ht : {} ≤ t) (now : Int)
    (k : Option Key) : d.live t now k = (liveCell (max t d.tomb) now (d.cellAt k)).map .cell := by
  cases d with
  | counter c => exact absurd rfl noCounter
  | atomic c => cases k with
    | none =>
      have same : max t (CellData.tomb (.atomic c : CellData Key Id)) = t := max_eq_left ht
      rw [same]
      simp only [live, cellAt, liveCell, Option.filter]
      split <;> rfl
    | some k => rfl
  | collection m => cases k with
    | none => rfl
    | some k =>
      simp only [live, cellAt, tomb, liveCell, apply_eq_max]

/-- What is live of a column of the merge: the newer of the cells, if no tombstone covers it. -/
theorem live_merge {a b : Option (CellData Key Id)} {ct : CellType} (ha : OfType ct a) (hb : OfType ct b)
    (noCounter : ct ≠ .counter) (ht : {} ≤ t) (now : Int) (k : Option Key)
    (apart : ∀ x ∈ cellAt a k, ∀ y ∈ cellAt b k, x.timestamp ≠ y.timestamp) :
    ((merge CellData.merge a b).bind fun d => d.live t now k) =
      (liveCell (max (max t (tombOf a)) (tombOf b)) now (merge newest (cellAt a k) (cellAt b k))).map .cell := by
  cases a with
  | none => cases b with
    | none => rfl
    | some b =>
      rw [max_tombOf_none ht, cellAt_none, merge_none_left, merge_none_left]
      exact b.live_eq (hb b rfl ▸ noCounter) ht now k
  | some a => cases b with
    | none =>
      rw [max_tombOf_none (ht.trans (le_max_left _ _)), cellAt_none, merge_none_right, merge_none_right]
      exact a.live_eq (ha a rfl ▸ noCounter) ht now k
    | some b =>
      have same : a.type = b.type := (ha a rfl).trans (hb b rfl).symm
      have type : (a.merge b).type ≠ .counter := by rwa [CellData.type_merge, ha a rfl]
      refine ((a.merge b).live_eq type ht now k).trans ?_
      rw [max_assoc]
      cases a <;> cases b <;> cases same
      next x y =>
        cases k with
        | some k => rfl
        | none =>
          change (liveCell (max t {}) now (some (x.merge y))).map _ = (liveCell (max t (max {} {})) now (some (newest x y))).map _
          rw [AtomicCell.merge_eq_newest (apart x rfl y rfl), max_self]
      · exact absurd (ha _ rfl).symm noCounter
      · cases k with
        | none => rfl
        | some k =>
          refine congrArg (Option.map LiveValue.cell) ?_
          exact liveCell_find_merge ((le_max_left _ _).trans (le_max_right _ _))
            ((le_max_right _ _).trans (le_max_right _ _)) apart

section Column

variable {bound : Int} {e : Expiry} {t u u' : Tombstone} {now : Int} {a b : Option (CellData Key Id)} {ct : CellType}

/-- What is left of a column. -/
def compactColumn (e : Expiry) (t : Tombstone) (a : Option (CellData Key Id)) : Option (CellData Key Id) :=
  a.bind fun d => (d.compactAndExpire e ⟨t, t⟩).1

open Option (bind_some merge)

theorem CollectionMutation.find_compactAndExpire (e : Expiry) (t : Tombstone) (m : CollectionMutation Key) (k : Key) :
    (m.compactAndExpire e ⟨t, t⟩).find k =
      (m.find k).bind fun c => (c.compactAndExpire e ⟨max t m.tomb, max t m.tomb⟩).1 := by
  have covering : m.covering ⟨t, t⟩ = ⟨max t m.tomb, t⟩ := by
    simp only [covering, apply_eq_max, max_comm]
  have le : t.timestamp ≤ (max t m.tomb).timestamp := timestamp_le (le_max_left _ _)
  unfold find compactAndExpire
  rw [Sorted.find?_filterMap (fun _ _ => compactCell_fst) m.sorted, covering]
  cases m.cells.find? fun c => decide (c.1 = k) with
  | none => rfl
  | some c =>
    simp only [bind_some, map_some, compactCell, map_map, Function.comp_def,
      c.2.compactAndExpire_regular e le, map_id_fun']
    rfl

theorem OfType.compactColumn (ha : OfType ct a) : OfType ct (compactColumn e t a) := by
  intro d hd
  obtain ⟨c, hc, hd⟩ := bind_eq_some_iff.1 hd
  rw [← ha c hc]
  cases c with
  | atomic c | counter c =>
    obtain ⟨-, -, rfl⟩ := map_eq_some_iff.1 hd
    rfl
  | collection m =>
    simp only [CellData.compactAndExpire] at hd
    split at hd <;> cases hd
    rfl

theorem cellAt_compactColumn (ha : OfType ct a) (noCounter : ct ≠ .counter) (ht : {} ≤ t) (k : Option Key) :
    cellAt (compactColumn e t a) k =
      (cellAt a k).bind fun c => (c.compactAndExpire e ⟨max t (tombOf a), max t (tombOf a)⟩).1 := by
  cases a with
  | none => rfl
  | some d => cases d with
    | counter c => exact absurd (ha _ rfl).symm noCounter
    | atomic c =>
      have same : max t (tombOf (some (.atomic c : CellData Key Id))) = t := max_eq_left ht
      rw [same]
      cases k with
      | some k | none =>
        cases h : (c.compactAndExpire e ⟨t, t⟩).1 <;> simp [compactColumn, CellData.compactAndExpire, CellData.cellAt, h]
    | collection m => cases k with
      | none =>
        simp only [compactColumn, CellData.compactAndExpire, bind_some]
        split <;> rfl
      | some k =>
        have left := m.find_compactAndExpire e t k
        simp only [compactColumn, CellData.compactAndExpire, bind_some]
        split
        next erased =>
          have none : (m.compactAndExpire e ⟨t, t⟩).cells = [] := by simpa using (Bool.and_eq_true_iff.1 erased).1
          have : (m.compactAndExpire e ⟨t, t⟩).find k = Option.none := by simp [find, none]
          exact this.symm.trans left
        · exact left

namespace CollectionMutation

variable {m : CollectionMutation Key}

theorem tomb_compactAndExpire (e : Expiry) (t : Tombstone) (m : CollectionMutation Key) :
    (m.compactAndExpire e ⟨t, t⟩).tomb = serializedTomb (if e.canPurge (max t m.tomb) then {} else max t m.tomb) := by
  simp only [compactAndExpire, compactTomb, apply_eq_max, max_comm]

theorem timestamp_serializedTomb {t : Tombstone} : (serializedTomb t).timestamp = t.timestamp := by
  unfold serializedTomb
  split
  · rfl
  next unset =>
    have missing : t.timestamp = missingTimestamp := by simpa [isSet] using unset
    exact missing.symm

end CollectionMutation

/-- The tombstone of a collection takes over at most the one of its row. -/
theorem tombOf_compactColumn_le (ht : {} ≤ t) :
    (tombOf (compactColumn e t a)).timestamp ≤ (max t (tombOf a)).timestamp := by
  have least : missingTimestamp ≤ (max t (tombOf a)).timestamp := timestamp_le (ht.trans (le_max_left _ _))
  cases a with
  | none => exact least
  | some d => cases d with
    | atomic c | counter c =>
      cases h : (c.compactAndExpire e ⟨t, t⟩).1 <;> simp only [compactColumn, CellData.compactAndExpire, h, bind_some] <;>
        exact least
    | collection m =>
      simp only [compactColumn, CellData.compactAndExpire, bind_some]
      split
      · exact least
      · change (m.compactAndExpire e ⟨t, t⟩).tomb.timestamp ≤ _
        rw [m.tomb_compactAndExpire, timestamp_serializedTomb]
        split
        · exact least
        · exact le_rfl

variable (purges : e.PurgesBelow bound)
include purges

variable (alike : PurgedAlike bound t u u')
include alike

/-- What the tombstone of a collection covers of other data still is covered. -/
theorem covered_by_compactColumn (hu' : {} ≤ u') {s : Int}
    (hs : bound ≤ s) (covered : s ≤ (tombOf a).timestamp) : s ≤ u'.timestamp ∨ s ≤ (tombOf (compactColumn e t a)).timestamp := by
  have least : s ≤ missingTimestamp → s ≤ u'.timestamp := fun le => le.trans (timestamp_le hu')
  cases a with
  | none => exact .inl (least covered)
  | some d => cases d with
    | atomic c | counter c => exact .inl (least covered)
    | collection m =>
      have le : s ≤ (max t m.tomb).timestamp := covered.trans (timestamp_le (le_max_right _ _))
      have keeps : ¬e.canPurge (max t m.tomb) = true := fun purge => absurd (purges _ purge) (not_lt.2 (hs.trans le))
      have comm : m.tomb.apply t = max t m.tomb := (apply_eq_max _ _).trans (max_comm _ _)
      simp only [compactColumn, CellData.compactAndExpire, bind_some]
      split
      next erased =>
        left
        have older : max t m.tomb ≤ t := by
          have := of_decide_eq_true (Bool.and_eq_true_iff.1 erased).2
          rwa [compactTomb, comm, if_neg keeps] at this
        exact (alike.outside s hs).1 ((le.trans (timestamp_le older)).trans alike.le)
      · right
        change s ≤ (m.compactAndExpire e ⟨t, t⟩).tomb.timestamp
        rw [m.tomb_compactAndExpire, timestamp_serializedTomb, if_neg keeps]
        exact le

theorem PurgedAlike.column (ht : {} ≤ t) (hu' : {} ≤ u')
    (a : Option (CellData Key Id)) (v : Tombstone) : PurgedAlike bound (max t (tombOf a)) (max (max u (tombOf a)) v)
      (max (max u' (tombOf (compactColumn e t a))) v) := by
  have le := tombOf_compactColumn_le (e := e) (a := a) ht
  refine ⟨?_, fun s hs => ?_, fun s hs => ?_⟩
  · simp only [timestamp_max]
    have := alike.le
    omega
  · simp only [timestamp_max] at hs le ⊢
    have := alike.newer s (by omega)
    omega
  · have covered := covered_by_compactColumn (a := a) purges alike hu' hs
    simp only [timestamp_max] at le ⊢
    have same := alike.outside s hs
    have := alike.le
    omega

/-- What is live of a column, merged with other data, is the same before and after compaction. -/
theorem live_compactColumn (later : e.queryTime ≤ now)
    (ht : {} ≤ t) (hu : {} ≤ u) (hu' : {} ≤ u') (noCounter : ct ≠ .counter) (ha : OfType ct a) (hb : OfType ct b)
    (k : Option Key)
    (apart : ∀ x ∈ cellAt a k, ∀ y ∈ cellAt b k, x.timestamp ≠ y.timestamp) (other : ∀ y ∈ cellAt b k, bound ≤ y.timestamp) :
    ((merge CellData.merge (compactColumn e t a) b).bind fun d => d.live u' now k) =
      (merge CellData.merge a b).bind fun d => d.live u now k := by
  have left := cellAt_compactColumn (e := e) ha noCounter ht k
  have apart' : ∀ x ∈ cellAt (compactColumn e t a) k, ∀ y ∈ cellAt b k, x.timestamp ≠ y.timestamp := by
    intro x hx y hy
    rw [left] at hx
    obtain ⟨c, hc, hx⟩ := bind_eq_some_iff.1 hx
    have leaves := c.leaves_compactAndExpire (t := max t (tombOf a)) purges
    rw [hx] at leaves
    cases leaves with
    | kept _ _ same _ => exact same.symm ▸ apart c hc y hy
  rw [live_merge ha hb noCounter hu now k apart, live_merge ha.compactColumn hb noCounter hu' now k apart', left]
  exact congrArg _ (live_newest_compact purges (alike.column purges ht hu' a (tombOf b)) later apart other)

end Column

namespace RowMarker

variable {bound : Int} {e : Expiry} {t u u' : Tombstone} {now : Int} {m m' n : RowMarker}

/-- `m` has expired at the time of the compaction. -/
def Expired (e : Expiry) (m : RowMarker) : Prop := m.ttl > 0 ∧ m.expiry < e.queryTime

/-- What is left of a marker: a missing one if it was missing, covered or purged, or a marker of its
timestamp that is live whenever the marker was. -/
inductive Leaves (e : Expiry) (bound : Int) (t : Tombstone) (m : RowMarker) : RowMarker → Prop
  | missing (h : m.isMissing = true) : Leaves e bound t m m
  | covered (n : RowMarker) (le : m.timestamp ≤ t.timestamp) (h : n.isMissing = true) : Leaves e bound t m n
  | purged (n : RowMarker) (below : m.timestamp < bound) (dead : m.isLive = false ∨ m.Expired e) (h : n.isMissing = true) :
      Leaves e bound t m n
  | expired (n : RowMarker) (newer : t.timestamp < m.timestamp) (same : n.timestamp = m.timestamp) (dead : n.isLive = false)
      (h : m.Expired e) : Leaves e bound t m n
  | kept (newer : t.timestamp < m.timestamp) : Leaves e bound t m m

theorem leaves_compactAndExpire (purges : e.PurgesBelow bound) (m : RowMarker) :
    Leaves e bound t m (m.compactAndExpire e t) := by
  unfold compactAndExpire
  split
  next missing =>
    exact .missing missing
  · split
    next le =>
      exact .covered _ le rfl
    next uncovered =>
      have newer := not_le.1 uncovered
      by_cases expired : m.ttl > 0 ∧ m.expiry < e.queryTime
      · simp only [if_pos expired, true_and]
        split
        next purge =>
          exact .purged _ (purges _ purge) (.inr expired) rfl
        · exact .expired _ newer rfl (by simp [isLive]) expired
      · simp only [if_neg expired]
        split
        next purge =>
          exact .purged _ (purges _ purge.2) (.inl (by simp [isLive, purge.1])) rfl
        · exact .kept newer

/-- A marker that is dead or has expired is not live later. -/
theorem isLiveAt_of_dead (dead : m.isLive = false ∨ m.Expired e) (later : e.queryTime ≤ now) : m.isLiveAt u now = false := by
  rcases dead with dead | ⟨ttl, expiry⟩
  · have : (m.isMissing || m.ttl == -1) = true := by
      cases h : m.isMissing <;> simp_all [isLive]
    simp [isLiveAt, this]
  · have expired : m.expiry < now := expiry.trans_le later
    have : m.ttl ≠ 0 := ttl.ne'
    simp [isLiveAt, this, expired]

theorem apply_of_lt (h : m.timestamp < n.timestamp) : m.apply n = n := by
  unfold apply
  rw [compareForMerge_of_lt h, if_pos rfl]

theorem apply_of_timestamp_gt (h : n.timestamp < m.timestamp) : m.apply n = m := by
  unfold apply compareForMerge
  rw [compare_gt_iff_gt.2 h]
  exact if_neg (by simp [Ordering.then])

theorem timestamp_eq (h : m.isMissing = true) : m.timestamp = missingTimestamp := by simpa [isMissing] using h

theorem timestamp_lt (least : missingTimestamp ≤ m.timestamp) (h : m.isMissing = false) : missingTimestamp < m.timestamp :=
  lt_of_le_of_ne least fun eq => by simp [isMissing, ← eq] at h

theorem isMissing_apply (hm : m.isMissing = true) (hn : n.isMissing = true) : (m.apply n).isMissing = true := by
  unfold apply
  split
  · exact hn
  · exact hm

/-- Two markers that may be missing. -/
structure Apart (m n : RowMarker) : Prop where
  left : missingTimestamp ≤ m.timestamp
  right : missingTimestamp ≤ n.timestamp
  ne : m.isMissing = false → n.isMissing = false → m.timestamp ≠ n.timestamp

/-- The newer marker is kept, or both are missing. -/
theorem Apart.cases (h : Apart m n) : m.timestamp < n.timestamp ∧ m.apply n = n ∨ n.timestamp < m.timestamp ∧ m.apply n = m ∨
    m.isMissing = true ∧ n.isMissing = true ∧ (m.apply n).isMissing = true := by
  rcases lt_trichotomy m.timestamp n.timestamp with lt | eq | gt
  · exact .inl ⟨lt, apply_of_lt lt⟩
  · refine .inr (.inr ?_)
    have same : m.isMissing = n.isMissing := by simp [isMissing, eq]
    have missing : m.isMissing = true := by
      by_contra no
      have no := Bool.eq_false_iff.2 no
      exact h.ne no (same ▸ no) eq
    exact ⟨missing, same ▸ missing, isMissing_apply missing (same ▸ missing)⟩
  · exact .inr (.inl ⟨gt, apply_of_timestamp_gt gt⟩)

theorem apply_of_isMissing (hm : m.isMissing = true) (least : missingTimestamp ≤ n.timestamp) :
    m.apply n = n ∨ n.isMissing = true ∧ (m.apply n).isMissing = true := by
  cases missing : n.isMissing with
  | true => exact .inr ⟨rfl, isMissing_apply hm missing⟩
  | false =>
    left
    exact apply_of_lt ((timestamp_eq hm).symm ▸ timestamp_lt least missing)

/-- A marker that compaction keeps or drops is as live as before, with the newer of the other data. -/
theorem isLiveAt_apply (leaves : Leaves e bound t m m') (alike : PurgedAlike bound t u u') (later : e.queryTime ≤ now)
    (apart : Apart m n) (other : n.isMissing = false → bound ≤ n.timestamp) :
    (m'.apply n).isLiveAt u' now = (m.apply n).isLiveAt u now := by
  have right : n.isLiveAt u' now = n.isLiveAt u now := by
    cases missing : n.isMissing with
    | true => rw [isLiveAt_of_missing missing, isLiveAt_of_missing missing]
    | false => exact (isLiveAt_congr (alike.outside _ (other missing)) now).symm
  -- what is left is missing, and the marker is not live
  have dropped : m'.isMissing = true → (n.timestamp < m.timestamp → n.isLiveAt u now = false) → m.isLiveAt u now = false →
      (m'.apply n).isLiveAt u' now = (m.apply n).isLiveAt u now := by
    intro missing older dead
    have left : (m'.apply n).isLiveAt u' now = n.isLiveAt u now := by
      rcases apply_of_isMissing missing apart.right with h | ⟨h, h'⟩
      · rw [h, right]
      · rw [isLiveAt_of_missing h', isLiveAt_of_missing h]
    rw [left]
    rcases apart.cases with ⟨-, h⟩ | ⟨gt, h⟩ | ⟨-, h, h'⟩
    · rw [h]
    · rw [h, dead, older gt]
    · rw [isLiveAt_of_missing h, isLiveAt_of_missing h']
  cases leaves with
  | missing h =>
    refine dropped h (fun gt => ?_) (isLiveAt_of_missing h u now)
    rw [timestamp_eq h] at gt
    exact absurd apart.right (not_le.2 gt)
  | covered _ le h =>
    refine dropped h (fun gt => ?_) (isLiveAt_of_covered (le.trans alike.le) now)
    exact isLiveAt_of_covered ((gt.le.trans le).trans alike.le) now
  | purged _ below dead h =>
    refine dropped h (fun gt => ?_) (isLiveAt_of_dead dead later)
    cases missing : n.isMissing with
    | true => exact isLiveAt_of_missing missing u now
    | false => exact absurd (other missing) (not_le.2 (gt.trans below))
  | expired _ newer same dead h =>
    rcases apart.cases with ⟨lt, h'⟩ | ⟨gt, h'⟩ | ⟨missing, none, h'⟩
    · rw [h', apply_of_lt (same ▸ lt), right]
    · rw [h', apply_of_timestamp_gt (same.symm ▸ gt), isLiveAt_of_dead (.inr h) later]
      exact isLiveAt_of_dead (.inl dead) later
    · have missing' : m'.isMissing = true := by simp [isMissing, same, timestamp_eq missing]
      rw [isLiveAt_of_missing h', isLiveAt_of_missing (isMissing_apply missing' none)]
  | kept newer =>
    rcases apart.cases with ⟨lt, h'⟩ | ⟨gt, h'⟩ | ⟨-, -, h'⟩
    · rw [h', right]
    · rw [h']
      exact (isLiveAt_congr (alike.newer _ newer) now).symm
    · rw [isLiveAt_of_missing h', isLiveAt_of_missing h']

end RowMarker

/-- What purging leaves of the tombstones that cover a row: less than before, but all that covers other
data. -/
structure PurgedBelow (bound : Int) (t t' : Tombstone) : Prop where
  le : t'.timestamp ≤ t.timestamp
  keeps : ∀ s, bound ≤ s → s ≤ t.timestamp → s ≤ t'.timestamp

/-- The tombstone of the partition, with the one of the other data. -/
theorem PurgedBelow.alike {bound : Int} {t t' : Tombstone} (h : PurgedBelow bound t t') (o : Tombstone) :
    PurgedAlike bound t (max t o) (max t' o) := by
  have le := h.le
  refine ⟨timestamp_le (le_max_left _ _), fun s lt => ?_, fun s hs => ?_⟩
  · simp only [timestamp_max]
    omega
  · have keeps := h.keeps s hs
    simp only [timestamp_max]
    omega

section Row

variable {bound : Int} {e : Expiry} {t : Tombstone} {m m' n : RowMarker}

/-- The marker of the merge shadows a shadowable tombstone of the other data, before and after. -/
theorem RowMarker.shadows_iff (leaves : m.Leaves e bound t m') (apart : RowMarker.Apart m n) (shadowable : Int)
    (newer : t.timestamp < shadowable) (other : bound ≤ shadowable) (unexpired : ¬m.Expired e) :
    ((m'.apply n).isLive = true ∧ shadowable < (m'.apply n).timestamp) ↔
      ((m.apply n).isLive = true ∧ shadowable < (m.apply n).timestamp) := by
  have never : ∀ {k : RowMarker}, k.isMissing = true → ¬(k.isLive = true ∧ shadowable < k.timestamp) :=
    fun missing h => by simp [isLive, missing] at h
  -- a marker that was dropped did not shadow
  have dropped : m'.isMissing = true → m.timestamp < shadowable →
      (((m'.apply n).isLive = true ∧ shadowable < (m'.apply n).timestamp) ↔
        ((m.apply n).isLive = true ∧ shadowable < (m.apply n).timestamp)) := by
    intro missing lt
    have left : ((m'.apply n).isLive = true ∧ shadowable < (m'.apply n).timestamp) ↔
        (n.isLive = true ∧ shadowable < n.timestamp) := by
      rcases apply_of_isMissing missing apart.right with h | ⟨h, h'⟩
      · rw [h]
      · exact iff_of_false (never h') (never h)
    rw [left]
    rcases apart.cases with ⟨-, h⟩ | ⟨gt, h⟩ | ⟨-, h, h'⟩
    · rw [h]
    · rw [h]
      exact iff_of_false (fun k => absurd k.2 (gt.trans lt).not_gt) fun k => absurd k.2 lt.not_gt
    · exact iff_of_false (never h) (never h')
  cases leaves with
  | missing => rfl
  | kept => rfl
  | covered _ le h => exact dropped h (le.trans_lt newer)
  | purged _ below _ h => exact dropped h (below.trans_le other)
  | expired _ _ _ _ h => exact absurd h unexpired

variable {s d : RowTombstone}

theorem RowTombstone.timestamp_apply (plain : d.shadowable = d.regular) (k : RowMarker) :
    (s.apply d k).shadowable.timestamp =
      if k.isLive = true ∧ max s.shadowable.timestamp d.shadowable.timestamp < k.timestamp
      then max s.regular.timestamp d.shadowable.timestamp else max s.shadowable.timestamp d.shadowable.timestamp := by
  rw [apply_eq, maybeShadow]
  simp only [gt_iff_lt, timestamp_max]
  split
  · rw [timestamp_max, plain]
  · rw [timestamp_max]

theorem PurgedAlike.row {b b' o : Tombstone} {d' : RowTombstone} (plain : d.shadowable = d.regular)
    (plain' : d'.shadowable = d'.regular) (hb : {} ≤ b) (base : b'.timestamp ≤ b.timestamp)
    (row : d'.shadowable.timestamp ≤ (max b d.shadowable).timestamp)
    (purged : PurgedBelow bound (max b d.shadowable) (max b' d'.shadowable)) (proper : s.Proper)
    (other : s.shadowable.isSet = true → bound ≤ s.shadowable.timestamp)
    (leaves : m.Leaves e bound (max b d.shadowable) m') (apart : RowMarker.Apart m n)
    (unexpired : s.shadowable ≠ s.regular → ¬m.Expired e) :
    PurgedAlike bound (max b d.shadowable) (max (max b o) (s.apply d (m.apply n)).shadowable)
      (max (max b' o) (s.apply d' (m'.apply n)).shadowable) := by
  have regular := timestamp_le proper.le
  have ge : ∀ {d : RowTombstone} k, d.shadowable = d.regular →
      d.shadowable.timestamp ≤ (s.apply d k).shadowable.timestamp := fun k plain => by
    rw [timestamp_apply plain]
    split <;> exact le_max_right _ _
  have le : (max b d.shadowable).timestamp ≤ (max (max b o) (s.apply d (m.apply n)).shadowable).timestamp := by
    have := ge (m.apply n) plain
    simp only [timestamp_max]
    omega
  have newer : ∀ x, (max b d.shadowable).timestamp < x →
      (x ≤ (max (max b o) (s.apply d (m.apply n)).shadowable).timestamp ↔
        x ≤ (max (max b' o) (s.apply d' (m'.apply n)).shadowable).timestamp) := by
    intro x hx
    rw [timestamp_max] at hx row
    simp only [timestamp_max, timestamp_apply plain, timestamp_apply plain']
    by_cases hs : x ≤ s.shadowable.timestamp
    · by_cases same : s.shadowable = s.regular
      · rw [same]
        split <;> split <;> omega
      · have least := timestamp_le hb
        have isSet : s.shadowable.isSet = true := by
          have : missingTimestamp < s.shadowable.timestamp := least.trans_lt (by omega)
          simpa [isSet] using this.ne'
        have shadows := shadows_iff leaves apart s.shadowable.timestamp
          (by rw [timestamp_max]; omega) (other isSet) (unexpired same)
        have thresholds : max s.shadowable.timestamp d.shadowable.timestamp = s.shadowable.timestamp ∧
            max s.shadowable.timestamp d'.shadowable.timestamp = s.shadowable.timestamp := by omega
        rw [thresholds.1, thresholds.2]
        by_cases h : (m.apply n).isLive = true ∧ s.shadowable.timestamp < (m.apply n).timestamp
        · rw [if_pos h, if_pos (shadows.2 h)]
          omega
        · rw [if_neg h, if_neg fun h' => h (shadows.1 h')]
          omega
    · split <;> split <;> omega
  refine ⟨le, newer, fun x hx => ?_⟩
  rcases le_or_gt x (max b d.shadowable).timestamp with covered | lt
  · refine iff_of_true (covered.trans le) ?_
    have kept := purged.keeps x hx covered
    have := ge (m'.apply n) plain'
    simp only [timestamp_max] at kept ⊢
    omega
  · exact newer x lt

end Row

theorem RowTombstone.maybeShadow_plain {t : RowTombstone} (plain : t.shadowable = t.regular) (m : RowMarker) :
    t.maybeShadow m = t := by
  cases t
  cases plain
  unfold maybeShadow
  split <;> rfl

variable {m : RowMarker}

theorem RowMarker.least_compactAndExpire {e : Expiry} {t : Tombstone} (least : missingTimestamp ≤ m.timestamp) :
    missingTimestamp ≤ (m.compactAndExpire e t).timestamp := by
  unfold compactAndExpire
  simp only
  split_ifs
  all_goals first | exact least | exact le_rfl

theorem RowMarker.Same.isLiveAt {n : RowMarker} (h : RowMarker.Same m n) (t : Tombstone) (now : Int) :
    m.isLiveAt t now = n.isLiveAt t now := by
  rcases h with rfl | ⟨hm, hn⟩
  · rfl
  · rw [isLiveAt_of_missing hm, isLiveAt_of_missing hn]

theorem RowMarker.Same.apply {m n o : RowMarker} (h : RowMarker.Same m n) (least : missingTimestamp ≤ o.timestamp) :
    RowMarker.Same (m.apply o) (n.apply o) := by
  rcases h with rfl | ⟨hm, hn⟩
  · exact .inl rfl
  · rcases apply_of_isMissing hm least with h | ⟨h, h'⟩ <;> rcases apply_of_isMissing hn least with k | ⟨k, k'⟩
    · exact .inl (h.trans k.symm)
    · exact .inr ⟨by rw [h]; exact k, k'⟩
    · exact .inr ⟨h', by rw [k]; exact h⟩
    · exact .inr ⟨h', k'⟩

namespace RowContent

section Alike

variable {r s o : RowContent Key Id} {base : Tombstone} {now : Int}

theorem Alike.live (h : r.Alike s) : r.live base now = s.live base now := by
  unfold RowContent.live RowContent.tombstone
  rw [h.deletedAt, h.cells]

theorem Alike.isLive_iff (h : r.Alike s) : r.IsLive base now ↔ s.IsLive base now := by
  unfold RowContent.IsLive
  rw [h.live, h.marker.isLiveAt, tombstone, tombstone, h.deletedAt]

theorem Alike.join (h : r.Alike s) (least : missingTimestamp ≤ o.marker.timestamp) : (r.join o).Alike (s.join o) where
  deletedAt := by
    simp only [RowContent.join, apply_eq, h.deletedAt]
    exact maybeShadow_congr (h.marker.apply least) _
  marker := h.marker.apply least
  cells := by simp only [RowContent.join, h.cells]

end Alike

section Compacted

variable {mode : CompactMutation.Mode} {r o : RowContent Key Id} {b b' v : Tombstone} {now : Int} {types : ColumnId → CellType}

/-- The other row has no timestamp below the bound, and none that the row has in the same place. -/
structure Outside (bound : Int) (r o : RowContent Key Id) : Prop where
  shadowable : o.deletedAt.shadowable.isSet = true → bound ≤ o.deletedAt.shadowable.timestamp
  marker : o.marker.isMissing = false → bound ≤ o.marker.timestamp
  cells : ∀ id k, ∀ c ∈ cellAt (o.cells id) k, bound ≤ c.timestamp
  apartMarkers : r.marker.Apart o.marker
  apartCells : ∀ id k, ∀ c ∈ cellAt (r.cells id) k, ∀ d ∈ cellAt (o.cells id) k, c.timestamp ≠ d.timestamp

theorem purgesBelow (sstable : mode.sstableCompaction = true) : mode.expiry.PurgesBelow mode.maxPurgeable := by
  intro t h
  simp [Expiry.canPurge, CompactMutation.Mode.expiry, CompactMutation.Mode.canGc, sstable] at h
  exact h.2.2

theorem deletedAt_compacted (mode : CompactMutation.Mode) (b : Tombstone) (r : RowContent Key Id) :
    (r.compacted mode b).deletedAt = {} ∧ (r.deletedAt.shadowable ≤ b ∨ mode.canPurgeRowTombstone r.deletedAt = true) ∨
      (r.compacted mode b).deletedAt = r.deletedAt := by
  simp only [compacted]
  split
  next drop =>
    exact .inl ⟨rfl, drop⟩
  · exact .inr rfl

/-- The tombstone of a row is purged below the bound, or covered by one that stays. -/
theorem purgedBelow_deletedAt (sstable : mode.sstableCompaction = true) (base : PurgedBelow mode.maxPurgeable b b')
    (hb : {} ≤ b) (r : RowContent Key Id) :
    PurgedBelow mode.maxPurgeable (max b r.deletedAt.shadowable) (max b' (r.compacted mode b).deletedAt.shadowable) := by
  have le := base.le
  have least : missingTimestamp ≤ b.timestamp := timestamp_le hb
  rcases deletedAt_compacted mode b r with ⟨none, drop⟩ | kept
  · rw [none]
    refine ⟨?_, fun s hs => ?_⟩
    · simp only [timestamp_max]
      omega
    · have keeps := base.keeps s hs
      simp only [timestamp_max]
      rcases drop with covered | purge
      · have := timestamp_le covered
        omega
      · simp [CompactMutation.Mode.canPurgeRowTombstone, CompactMutation.Mode.canGc, sstable] at purge
        omega
  · rw [kept]
    refine ⟨?_, fun s hs => ?_⟩
    · simp only [timestamp_max]
      omega
    · have keeps := base.keeps s hs
      simp only [timestamp_max]
      omega

/-- What is live of a row, merged with other data, is the same before and after compaction. -/
theorem live_join_compacted (sstable : mode.sstableCompaction = true) (later : mode.queryTime ≤ now) (hb : {} ≤ b) (hb' : {} ≤ b')
    (base : PurgedBelow mode.maxPurgeable b b') (plain : r.deletedAt.shadowable = r.deletedAt.regular)
    (proper : o.deletedAt.Proper) (noCounters : ∀ id, types id ≠ .counter) (hr : ∀ id, OfType (types id) (r.cells id))
    (ho : ∀ id, OfType (types id) (o.cells id)) (outside : Outside mode.maxPurgeable r o)
    (unexpired : o.deletedAt.shadowable ≠ o.deletedAt.regular → ¬r.marker.Expired mode.expiry) :
    ((r.compacted mode b).join o).live (max b' v) now = (r.join o).live (max b v) now ∧
      (((r.compacted mode b).join o).IsLive (max b' v) now ↔ (r.join o).IsLive (max b v) now) := by
  have purges := purgesBelow sstable
  have purged := purgedBelow_deletedAt sstable base hb r
  have leaves := leaves_compactAndExpire (t := max b r.deletedAt.shadowable) purges r.marker
  have marker : (r.compacted mode b).marker = r.marker.compactAndExpire mode.expiry (max b r.deletedAt.shadowable) := by
    simp only [compacted, max_comm]
  have cells : ∀ id, (r.compacted mode b).cells id = compactColumn mode.expiry (max b r.deletedAt.shadowable) (r.cells id) :=
    fun id => by simp only [compacted, compactColumn, ← plain, max_comm]
  have plain' : (r.compacted mode b).deletedAt.shadowable = (r.compacted mode b).deletedAt.regular := by
    rcases deletedAt_compacted mode b r with ⟨none, -⟩ | kept
    · rw [none]
    · rw [kept, plain]
  have row : (r.compacted mode b).deletedAt.shadowable.timestamp ≤ (max b r.deletedAt.shadowable).timestamp := by
    refine le_trans ?_ purged.le
    exact timestamp_le (le_max_right _ _)
  rw [← marker] at leaves
  have alike : PurgedAlike mode.maxPurgeable (max b r.deletedAt.shadowable) ((r.join o).tombstone (max b v))
      (((r.compacted mode b).join o).tombstone (max b' v)) :=
    .row plain plain' hb base.le row purged proper outside.shadowable leaves outside.apartMarkers unexpired
  have least : {} ≤ (r.join o).tombstone (max b v) := (hb.trans (le_max_left _ _)).trans (le_max_left _ _)
  have least' : {} ≤ ((r.compacted mode b).join o).tombstone (max b' v) := (hb'.trans (le_max_left _ _)).trans (le_max_left _ _)
  have live : ((r.compacted mode b).join o).live (max b' v) now = (r.join o).live (max b v) now := by
    funext id k
    have column := live_compactColumn purges alike later (hb.trans (le_max_left _ _)) least least' (noCounters id)
      (hr id) (ho id) k (outside.apartCells id k) (outside.cells id k)
    rw [← cells] at column
    exact column
  refine ⟨live, ?_⟩
  unfold IsLive
  rw [live]
  refine or_congr_left (Eq.congr_left ?_)
  exact isLiveAt_apply leaves alike later outside.apartMarkers outside.marker

end Compacted

end RowContent

namespace RowContent

/-- The row is in the form that merges keep. -/
structure Settled (r : RowContent Key Id) : Prop where
  proper : r.deletedAt.Proper
  shadowed : r.deletedAt.maybeShadow r.marker = r.deletedAt
  least : missingTimestamp ≤ r.marker.timestamp

theorem settled_empty : (emptyRow : RowContent Key Id).Settled := ⟨proper_empty, rfl, le_rfl⟩

variable {m n : RowMarker}

theorem same_apply_missing (missing : n.isMissing = true) (least : missingTimestamp ≤ m.timestamp) :
    RowMarker.Same (m.apply n) m := by
  cases hm : m.isMissing with
  | true => exact .inr ⟨isMissing_apply hm missing, hm⟩
  | false => exact .inl (apply_of_timestamp_gt (timestamp_eq missing ▸ timestamp_lt least hm))

theorem same_missing_apply (missing : n.isMissing = true) (least : missingTimestamp ≤ m.timestamp) :
    RowMarker.Same (n.apply m) m := by
  rcases apply_of_isMissing missing least with h | h
  · exact .inl h
  · exact .inr h.symm

variable {r : RowContent Key Id}

theorem Settled.join_empty (h : r.Settled) : (r.join emptyRow).Alike r where
  deletedAt := by
    refine (empty_apply h.proper _).trans ?_
    exact (maybeShadow_congr (same_apply_missing rfl h.least) _).trans h.shadowed
  marker := same_apply_missing rfl h.least
  cells := by
    funext id
    simp [join, joinCells, emptyRow, DeletableRow.content, Row.data, Row.findCell]

theorem Settled.empty_join (h : r.Settled) : ((emptyRow : RowContent Key Id).join r).Alike r where
  deletedAt := by
    have : r.deletedAt.apply {} (apply {} r.marker) = r.deletedAt.maybeShadow (apply {} r.marker) := by
      rw [apply_eq, max_eq_left h.proper.regular.ge, max_eq_left h.proper.shadowable.ge]
    refine this.trans ?_
    exact (maybeShadow_congr (same_missing_apply rfl h.least) _).trans h.shadowed
  marker := same_missing_apply rfl h.least
  cells := by
    funext id
    simp [join, joinCells, emptyRow, DeletableRow.content, Row.data, Row.findCell]

variable {s : RowContent Key Id}

theorem Alike.trans {t : RowContent Key Id} (h : r.Alike s) (h' : s.Alike t) : r.Alike t where
  deletedAt := h.deletedAt.trans h'.deletedAt
  marker := by
    rcases h.marker with e | ⟨hr, hs⟩
    · rw [e]
      exact h'.marker
    · rcases h'.marker with e | ⟨-, ht⟩
      · exact .inr ⟨hr, e ▸ hs⟩
      · exact .inr ⟨hr, ht⟩
  cells := h.cells.trans h'.cells

theorem Settled.of_alike (h : s.Settled) (alike : r.Alike s) : r.Settled where
  proper := alike.deletedAt ▸ h.proper
  shadowed := by
    rw [maybeShadow_congr alike.marker, alike.deletedAt]
    exact h.shadowed
  least := by
    rcases alike.marker with e | ⟨missing, -⟩
    · exact e ▸ h.least
    · exact (timestamp_eq missing).ge

theorem Settled.compacted (h : r.Settled) (plain : r.deletedAt.shadowable = r.deletedAt.regular)
    (mode : CompactMutation.Mode) (b : Tombstone) : (r.compacted mode b).Settled where
  proper := by
    rcases deletedAt_compacted mode b r with ⟨none, -⟩ | kept
    · exact none ▸ proper_empty
    · exact kept ▸ h.proper
  shadowed := by
    have plain' : (r.compacted mode b).deletedAt.shadowable = (r.compacted mode b).deletedAt.regular := by
      rcases deletedAt_compacted mode b r with ⟨none, -⟩ | kept
      · rw [none]
      · rw [kept, plain]
    exact maybeShadow_plain plain' _
  least := least_compactAndExpire h.least

end RowContent

end ScyllaMoon.Mutation
