import ScyllaMoon.Mutation.ReadRepair

/-!
# Rows with shadowable tombstones

When two rows are merged, a live marker that is newer than the shadowable tombstone resets it to the
regular one. The marker is the greatest of those that were merged so far, so whether the tombstone is
reset can depend on the order: a live marker may meet the tombstone first, or a greater marker that is
dead. Everything else that `deletable_row::apply` does to markers and tombstones is to take the greatest,
where markers that differ in the TTL only count as equal.
-/

namespace ScyllaMoon.Mutation

open Lib MergeTree RowMarker List

namespace RowMarker

variable {m n : RowMarker}

/-- Expiring markers that differ in the TTL and in nothing else. -/
def DifferInTtl (m n : RowMarker) : Prop :=
  m.timestamp = n.timestamp ∧ m.isLive ∧ n.isLive ∧ m.isExpiring ∧ n.isExpiring ∧ m.expiry = n.expiry ∧ m.ttl ≠ n.ttl

instance (m n : RowMarker) : Decidable (m.DifferInTtl n) := inferInstanceAs (Decidable (_ ∧ _))

theorem rankLe_iff : RankLe rank m n ↔ m.rank ≤ n.rank := by
  unfold RankLe
  rw [Ordering.isLE_iff_ne_gt, compare_gt_iff_gt, not_lt]

theorem timestamp_le (h : m.rank ≤ n.rank) : m.timestamp ≤ n.timestamp := by
  rcases Prod.Lex.toLex_le_toLex.1 h with lt | le
  · exact lt.le
  · exact le.1.le

theorem isLive_eq (h : m.rank = n.rank) : m.isLive = n.isLive := by
  have second := congrArg (fun r => (ofLex (ofLex r).2).1) h
  unfold rank at second
  cases hm : m.isLive <;> cases hn : n.isLive <;> simp [hm, hn] at second ⊢

/-- Markers of one rank are equal but for the TTL. -/
theorem equal_or_differInTtl (hm : m.Fits) (hn : n.Fits) (h : m.rank = n.rank) : m.equal n = true ∨ m.DifferInTtl n := by
  have live := isLive_eq h
  obtain ⟨ts, rest⟩ := Prod.mk.inj (toLex.injective h)
  cases hl : n.isLive with
  | true =>
    rw [live, hl, if_pos rfl, if_pos rfl] at rest
    obtain ⟨expiring, expiry⟩ := Prod.mk.inj (toLex.injective (Prod.mk.inj (toLex.injective rest)).2)
    cases he : n.isExpiring with
    | true =>
      rw [expiring, he, if_pos rfl, if_pos rfl] at expiry
      by_cases ttl : m.ttl = n.ttl
      · exact .inl (by simp [equal, ts, ttl, expiry])
      · exact .inr ⟨ts, live.trans hl, hl, expiring.trans he, he, expiry, ttl⟩
    | false =>
      exact .inl (by simp_all [equal, isExpiring])
  | false =>
    have same : m.deletionTime = n.deletionTime := by
      rw [live, hl, if_neg (by decide), if_neg (by decide)] at rest
      obtain ⟨-, mod⟩ := Prod.mk.inj (toLex.injective (Prod.mk.inj (toLex.injective rest)).2)
      obtain ⟨lm, um⟩ := hm (live.trans hl)
      obtain ⟨ln, un⟩ := hn hl
      omega
    by_cases missing : m.isMissing = true
    · exact .inl (equal_of_missing missing (by unfold isMissing at missing ⊢; rwa [← ts]))
    · -- both are dead, and the deletion time is in the place of the expiry
      have dead : m.ttl = -1 ∧ n.ttl = -1 := by
        simp only [isLive, isMissing, ts, Bool.and_eq_false_imp] at live hl missing
        simp_all
      rw [deletionTime, deletionTime, if_pos dead.1, if_pos dead.2] at same
      exact .inl (by simp [equal, ts, dead, same])

theorem DifferInTtl.rank_eq (h : m.DifferInTtl n) : m.rank = n.rank := by
  obtain ⟨ts, hm, hn, em, en, expiry, -⟩ := h
  unfold rank
  rw [if_pos hm, if_pos hn, if_pos em, if_pos en, em, en, ts, expiry]

theorem DifferInTtl.not_equal (h : m.DifferInTtl n) : m.equal n = false := by
  obtain ⟨-, hm, -, -, -, -, ttl⟩ := h
  have present : m.isMissing = false := by
    cases missing : m.isMissing
    · rfl
    · simp [isLive, missing] at hm
  simp [equal, present, ttl]

theorem apply_mem (m n : RowMarker) : m.apply n = m ∨ m.apply n = n := by
  unfold apply
  split
  · exact .inr rfl
  · exact .inl rfl

theorem apply_of_le (hm : m.Fits) (hn : n.Fits) (h : n.rank ≤ m.rank) : m.apply n = m :=
  if_neg fun lt => absurd (compare_lt_iff_lt.1 (compareForMerge_eq hm hn ▸ lt)) (not_lt.2 h)

end RowMarker

namespace DeletableRow

variable {C : Type} [CellOps C]

/-- `deletable_row::apply(schema, deletable_row)` -/
def applyRow (r src : DeletableRow C) : DeletableRow C where
  cells := r.cells.apply src.cells 0
  marker := r.marker.apply src.marker
  deletedAt := r.deletedAt.apply src.deletedAt (r.marker.apply src.marker)

/-- The same marker and the same two tombstones. -/
structure Agree (r s : DeletableRow C) : Prop where
  marker : r.marker.equal s.marker = true
  regular : r.deletedAt.regular = s.deletedAt.regular
  shadowable : r.deletedAt.shadowable = s.deletedAt.shadowable

/-- The shadowable tombstone is not less than the regular one, and the deletion time of the marker is one of `gc_clock`. -/
structure Sound (r : DeletableRow C) : Prop where
  le : r.deletedAt.regular ≤ r.deletedAt.shadowable
  fits : r.marker.Fits

/-- Where two markers differ in the TTL only, another one is greater. -/
def MarkersDecided (rows : List (DeletableRow C)) : Prop :=
  ∀ r ∈ rows, ∀ s ∈ rows, r.marker.DifferInTtl s.marker → ∃ q ∈ rows, r.marker.rank < q.marker.rank

/-- Some of the rows have a live marker `a` as their greatest, newer than the greatest shadowable tombstone, which only they
have, while the greatest marker of all rows is dead. -/
structure Shadows (part rest : List (DeletableRow C)) (a b d : DeletableRow C) : Prop where
  two : 2 ≤ part.length
  live : a ∈ part ∧ a.marker.isLive = true ∧ ∀ r ∈ part, r.marker.rank ≤ a.marker.rank
  tombstone : b ∈ part ∧ (∀ r ∈ part, r.deletedAt.shadowable ≤ b.deletedAt.shadowable) ∧
    ∀ r ∈ rest, r.deletedAt.shadowable < b.deletedAt.shadowable
  newer : b.deletedAt.shadowable.timestamp < a.marker.timestamp
  regular : ∀ r ∈ part ++ rest, r.deletedAt.regular < b.deletedAt.shadowable
  dead : d ∈ rest ∧ d.marker.isLive = false ∧ ∀ r ∈ part ++ rest, r.marker.rank ≤ d.marker.rank

/-- The rows can be split so. -/
def ShadowedInPart (rows : List (DeletableRow C)) : Prop :=
  ∃ part rest a b d, (part ++ rest).Perm rows ∧ Shadows part rest a b d

/-- What is known of a row that was merged from others in any order. -/
structure Merged (rows : List (DeletableRow C)) (r : DeletableRow C) : Prop where
  sound : r.Sound
  regular : ∀ t, r.deletedAt.regular ≤ t ↔ ∀ s ∈ rows, s.deletedAt.regular ≤ t
  shadowable : ∀ t, (∀ s ∈ rows, s.deletedAt.shadowable ≤ t) → r.deletedAt.shadowable ≤ t
  marker : ∃ s ∈ rows, r.marker = s.marker
  top : ∀ s ∈ rows, s.marker.rank ≤ r.marker.rank

variable {r s x y : DeletableRow C} {rows l m : List (DeletableRow C)} {t u : MergeTree (DeletableRow C)}

open RowTombstone (apply_eq maybeShadow)

theorem regular_applyRow (r s : DeletableRow C) :
    (r.applyRow s).deletedAt.regular = max r.deletedAt.regular s.deletedAt.regular := by
  change (r.deletedAt.apply s.deletedAt _).regular = _
  rw [apply_eq, maybeShadow]
  split <;> rfl

/-- A live and newer marker leaves the regular tombstone only. -/
theorem shadowable_applyRow_of_newer (live : (r.applyRow s).marker.isLive = true)
    (newer : (max r.deletedAt.shadowable s.deletedAt.shadowable).timestamp < (r.applyRow s).marker.timestamp) :
    (r.applyRow s).deletedAt.shadowable = (r.applyRow s).deletedAt.regular := by
  change (r.deletedAt.apply s.deletedAt (r.marker.apply s.marker)).shadowable = (r.deletedAt.apply s.deletedAt _).regular
  rw [apply_eq, maybeShadow, if_pos ⟨live, newer⟩]

theorem shadowable_applyRow_of_not_newer (h : (r.applyRow s).marker.isLive = true →
      (r.applyRow s).marker.timestamp ≤ (max r.deletedAt.shadowable s.deletedAt.shadowable).timestamp) :
    (r.applyRow s).deletedAt.shadowable = max r.deletedAt.shadowable s.deletedAt.shadowable := by
  change (r.deletedAt.apply s.deletedAt (r.marker.apply s.marker)).shadowable = _
  rw [apply_eq, maybeShadow, if_neg fun shadow => absurd (h shadow.1) (not_le.2 shadow.2)]

theorem shadowable_applyRow_le (hr : r.Sound) (hs : s.Sound) :
    (r.applyRow s).deletedAt.shadowable ≤ max r.deletedAt.shadowable s.deletedAt.shadowable := by
  by_cases shadow : (r.applyRow s).marker.isLive = true ∧
      (max r.deletedAt.shadowable s.deletedAt.shadowable).timestamp < (r.applyRow s).marker.timestamp
  · rw [shadowable_applyRow_of_newer shadow.1 shadow.2, regular_applyRow]
    exact max_le_max hr.le hs.le
  · exact (shadowable_applyRow_of_not_newer fun live => not_lt.1 fun lt => shadow ⟨live, lt⟩).le

omit [CellOps C] in
theorem Merged.leaf (h : r.Sound) : Merged [r] r where
  sound := h
  regular t := by simp
  shadowable t le := le r (mem_singleton.2 rfl)
  marker := ⟨r, mem_singleton.2 rfl, rfl⟩
  top := forall_mem_singleton.2 le_rfl

theorem sound_applyRow (hr : r.Sound) (hs : s.Sound) : (r.applyRow s).Sound where
  le := by
    by_cases shadow : (r.applyRow s).marker.isLive = true ∧
        (max r.deletedAt.shadowable s.deletedAt.shadowable).timestamp < (r.applyRow s).marker.timestamp
    · exact (shadowable_applyRow_of_newer shadow.1 shadow.2).ge
    · rw [shadowable_applyRow_of_not_newer fun live => not_lt.1 fun lt => shadow ⟨live, lt⟩, regular_applyRow]
      exact max_le_max hr.le hs.le
  fits := isJoin.closed _ _ hr.fits hs.fits

theorem Merged.node (hx : Merged l x) (hy : Merged m y) : Merged (l ++ m) (x.applyRow y) where
  sound := sound_applyRow hx.sound hy.sound
  regular t := by rw [regular_applyRow, max_le_iff, hx.regular, hy.regular, forall_mem_append]
  shadowable t le := by
    obtain ⟨lex, ley⟩ := forall_mem_append.1 le
    exact (shadowable_applyRow_le hx.sound hy.sound).trans (max_le (hx.shadowable t lex) (hy.shadowable t ley))
  marker := by
    obtain ⟨s, hs, eqx⟩ := hx.marker
    obtain ⟨q, hq, eqy⟩ := hy.marker
    rcases apply_mem x.marker y.marker with eq | eq
    · exact ⟨s, mem_append_left _ hs, eq.trans eqx⟩
    · exact ⟨q, mem_append_right _ hq, eq.trans eqy⟩
  top := by
    have left := rankLe_iff.1 (isJoin.left _ _ hx.sound.fits hy.sound.fits)
    have right := rankLe_iff.1 (isJoin.right _ _ hx.sound.fits hy.sound.fits)
    exact forall_mem_append.2 ⟨fun s hs => (hx.top s hs).trans left, fun s hs => (hy.top s hs).trans right⟩

omit [CellOps C] in
theorem Merged.perm (h : Merged l r) (perm : l.Perm m) : Merged m r where
  sound := h.sound
  regular t := (h.regular t).trans ⟨fun le s hs => le s (perm.mem_iff.2 hs), fun le s hs => le s (perm.mem_iff.1 hs)⟩
  shadowable t le := h.shadowable t fun s hs => le s (perm.mem_iff.1 hs)
  marker := by
    obtain ⟨s, hs, eq⟩ := h.marker
    exact ⟨s, perm.mem_iff.1 hs, eq⟩
  top s hs := h.top s (perm.mem_iff.2 hs)

theorem Merged.eval (h : ∀ r ∈ t.leaves, r.Sound) (full : t.Full) : Merged t.leaves (t.eval {} applyRow) := by
  induction t with
  | empty => exact full.elim
  | leaf r => exact .leaf (h r (mem_singleton.2 rfl))
  | node l r ihl ihr =>
    obtain ⟨hl, hr⟩ := forall_mem_append.1 h
    exact (ihl hl full.1).node (ihr hr full.2)

omit [CellOps C] in
theorem exists_greatest {β : Type} [LinearOrder β] (f : DeletableRow C → β) (ne : l ≠ []) :
    ∃ a ∈ l, ∀ b ∈ l, f b ≤ f a := by
  obtain ⟨a, ha⟩ := Option.ne_none_iff_exists'.1 fun none : l.argmax f = none => ne (argmax_eq_none.1 none)
  exact ⟨a, argmax_mem ha, fun b hb => le_of_mem_argmax hb ha⟩

variable {v : Tombstone}

/-- A tombstone that no live and newer marker meets is not reset. -/
theorem le_shadowable_applyRow (le : v ≤ max x.deletedAt.shadowable y.deletedAt.shadowable)
    (safe : (x.applyRow y).marker.isLive = true → (x.applyRow y).marker.timestamp ≤ v.timestamp) :
    v ≤ (x.applyRow y).deletedAt.shadowable := by
  rwa [shadowable_applyRow_of_not_newer fun live => (safe live).trans (Tombstone.timestamp_le le)]

/-- The live markers that are newer than the tombstone of `b` are less than its marker; its own, if it is one, is less than
all the others. -/
structure Protected (b : DeletableRow C) (rest : List (DeletableRow C)) : Prop where
  others : ∀ r ∈ rest, r.marker.isLive = true → b.deletedAt.shadowable.timestamp < r.marker.timestamp →
    r.marker.rank < b.marker.rank
  own : b.marker.isLive = true → b.deletedAt.shadowable.timestamp < b.marker.timestamp →
    ∀ r ∈ rest, b.marker.rank < r.marker.rank

variable {b : DeletableRow C}

omit [CellOps C] in
theorem Protected.mono (h : Protected b rows) (sub : l ⊆ rows) : Protected b l :=
  ⟨fun r hr => h.others r (sub hr), fun live newer r hr => h.own live newer r (sub hr)⟩

omit [CellOps C] in
/-- A marker that all the rows have together is not live and newer. -/
theorem Protected.safe (h : Protected b rows) (merged : Merged (b :: rows) r) (ne : rows ≠ [])
    (live : r.marker.isLive = true) : r.marker.timestamp ≤ b.deletedAt.shadowable.timestamp := by
  by_contra newer
  rw [not_le] at newer
  obtain ⟨s, hs, eq⟩ := merged.marker
  rw [eq] at live newer
  rcases mem_cons.1 hs with rfl | hs
  · obtain ⟨q, hq⟩ := exists_mem_of_ne_nil rows ne
    exact absurd (h.own live newer q hq) (not_lt.2 (eq ▸ merged.top q (mem_cons_of_mem _ hq)))
  · exact absurd (h.others s hs live newer) (not_lt.2 (eq ▸ merged.top b mem_cons_self))

open Merged (eval leaf)

/-- The tombstone of a protected row is there in the end. -/
theorem Protected.le_eval (sound : ∀ r ∈ t.leaves, r.Sound) (full : t.Full) (perm : (b :: rows).Perm t.leaves)
    (h : Protected b rows) :
    b.deletedAt.shadowable ≤ (t.eval {} applyRow).deletedAt.shadowable := by
  induction t generalizing rows with
  | empty => exact full.elim
  | leaf r =>
    obtain ⟨rfl, -⟩ := cons.inj (perm_singleton.1 perm)
    exact le_rfl
  | node l r ihl ihr =>
    obtain ⟨soundL, soundR⟩ := forall_mem_append.1 sound
    have merged : Merged (b :: rows) ((l.eval {} applyRow).applyRow (r.eval {} applyRow)) :=
      (eval sound full).perm perm.symm
    have ne : rows ≠ [] := by
      have length := perm.length_eq
      have left := length_pos_iff.2 full.1.leaves_ne_nil
      have right := length_pos_iff.2 full.2.leaves_ne_nil
      simp only [leaves, length_append, length_cons] at length
      exact length_pos_iff.1 (by omega)
    refine le_shadowable_applyRow ?_ (h.safe merged ne)
    -- the row is on one of the two sides, with some of the others
    rcases mem_append.1 (perm.mem_iff.1 mem_cons_self) with mem | mem
    · obtain ⟨s, s', split⟩ := append_of_mem mem
      have others : rows.Perm ((s ++ s') ++ r.leaves) := by
        refine List.Perm.cons_inv (perm.trans ?_)
        rw [leaves, split]
        exact perm_middle.append_right _
      have sub : s ++ s' ⊆ rows := fun q hq => others.mem_iff.2 (mem_append_left _ hq)
      exact (ihl soundL full.1 (split ▸ perm_middle.symm) (h.mono sub)).trans (le_max_left _ _)
    · obtain ⟨s, s', split⟩ := append_of_mem mem
      have others : rows.Perm (l.leaves ++ (s ++ s')) := by
        refine List.Perm.cons_inv (perm.trans ?_)
        rw [leaves, split]
        exact (perm_middle.append_left _).trans perm_middle
      have sub : s ++ s' ⊆ rows := fun q hq => others.mem_iff.2 (mem_append_right _ hq)
      exact (ihr soundR full.2 (split ▸ perm_middle.symm) (h.mono sub)).trans (le_max_right _ _)

variable {a : DeletableRow C}

omit [CellOps C] in
theorem Merged.rank_eq (h : Merged l r) (ha : a ∈ l) (top : ∀ s ∈ l, s.marker.rank ≤ a.marker.rank) :
    r.marker.rank = a.marker.rank := by
  obtain ⟨s, hs, eq⟩ := h.marker
  exact le_antisymm (eq ▸ top s hs) (h.top a ha)

variable {d : DeletableRow C}

section

omit [CellOps C]

theorem Merged.not_live (h : Merged l r) (hd : d ∈ l) (top : ∀ s ∈ l, s.marker.rank ≤ d.marker.rank)
    (dead : d.marker.isLive = false) : ¬ r.marker.isLive = true := by
  rw [isLive_eq (h.rank_eq hd top), dead]
  decide

theorem Merged.shadowable_lt (h : Merged l r) (lt : ∀ s ∈ l, s.deletedAt.shadowable < v) :
    r.deletedAt.shadowable < v := by
  obtain ⟨s, hs, -⟩ := h.marker
  obtain ⟨g, hg, top⟩ := exists_greatest (fun s => s.deletedAt.shadowable) (ne_nil_of_mem hs)
  exact (h.shadowable _ top).trans_lt (lt g hg)

theorem Merged.regular_lt (h : Merged l r) (lt : ∀ s ∈ l, s.deletedAt.regular < v) : r.deletedAt.regular < v := by
  obtain ⟨s, hs, -⟩ := h.marker
  obtain ⟨g, hg, top⟩ := exists_greatest (fun s => s.deletedAt.regular) (ne_nil_of_mem hs)
  exact ((h.regular _).2 top).trans_lt (lt g hg)

end

/-- A live marker that is newer than all the tombstones resets them. -/
theorem shadowable_eval_of_newer (sound : ∀ r ∈ t.leaves, r.Sound) (full : t.Full) (two : 2 ≤ t.leaves.length)
    (ha : a ∈ t.leaves) (live : a.marker.isLive = true) (top : ∀ r ∈ t.leaves, r.marker.rank ≤ a.marker.rank)
    (newer : ∀ r ∈ t.leaves, r.deletedAt.shadowable.timestamp < a.marker.timestamp) :
    (t.eval {} applyRow).deletedAt.shadowable = (t.eval {} applyRow).deletedAt.regular := by
  have merged := eval sound full
  have rank := merged.rank_eq ha top
  cases t with
  | empty => exact full.elim
  | leaf r => exact absurd two (by simp [leaves])
  | node l r =>
    obtain ⟨soundL, soundR⟩ := forall_mem_append.1 sound
    refine shadowable_applyRow_of_newer ((isLive_eq rank).trans live) ?_
    obtain ⟨g, hg, greatest⟩ := exists_greatest (fun s => s.deletedAt.shadowable) (ne_nil_of_mem ha)
    obtain ⟨greatestL, greatestR⟩ := forall_mem_append.1 greatest
    have le := max_le ((eval soundL full.1).shadowable _ greatestL) ((eval soundR full.2).shadowable _ greatestR)
    have ts : a.marker.timestamp ≤ _ := timestamp_le rank.ge
    exact ((Tombstone.timestamp_le le).trans_lt (newer g hg)).trans_le ts

theorem regular_eval_eq (sound : ∀ r ∈ rows, r.Sound) (ft : t.Full) (fu : u.Full) (pt : t.leaves.Perm rows)
    (pu : u.leaves.Perm rows) : (t.eval {} applyRow).deletedAt.regular = (u.eval {} applyRow).deletedAt.regular := by
  have mt := (eval (fun r hr => sound r (pt.mem_iff.1 hr)) ft).perm pt
  have mu := (eval (fun r hr => sound r (pu.mem_iff.1 hr)) fu).perm pu
  exact eq_of_forall_ge_iff fun v => (mt.regular v).trans (mu.regular v).symm

omit [CellOps C] in
/-- The greatest of the live markers that are newer than a tombstone. -/
theorem exists_greatest_newer (h : ∃ a ∈ rows, a.marker.isLive = true ∧ v.timestamp < a.marker.timestamp) :
    ∃ a ∈ rows, a.marker.isLive = true ∧ v.timestamp < a.marker.timestamp ∧ ∀ r ∈ rows, r.marker.isLive = true →
      v.timestamp < r.marker.timestamp → r.marker.rank ≤ a.marker.rank := by
  let newer : DeletableRow C → Bool := fun r => r.marker.isLive && decide (v.timestamp < r.marker.timestamp)
  have iff : ∀ r, r ∈ rows.filter newer ↔ r ∈ rows ∧ r.marker.isLive = true ∧ v.timestamp < r.marker.timestamp := fun r => by
    simp [newer]
  obtain ⟨a, ha, live, lt⟩ := h
  obtain ⟨g, hg, top⟩ := exists_greatest (fun r => r.marker.rank) (ne_nil_of_mem ((iff a).2 ⟨ha, live, lt⟩))
  obtain ⟨hg, live, lt⟩ := (iff g).1 hg
  exact ⟨g, hg, live, lt, fun r hr live lt => top r ((iff r).2 ⟨hr, live, lt⟩)⟩

omit [CellOps C] in
/-- Unless a part can be shadowed, the greatest shadowable tombstone is protected somewhere, or the greatest marker is live
and newer. -/
theorem exists_protected (split : ¬ ShadowedInPart rows) (hb : b ∈ rows)
    (greatest : ∀ r ∈ rows, r.deletedAt.shadowable ≤ b.deletedAt.shadowable)
    (regular : ∀ r ∈ rows, r.deletedAt.regular < b.deletedAt.shadowable) (hd : d ∈ rows)
    (top : ∀ r ∈ rows, r.marker.rank ≤ d.marker.rank)
    (reset : ¬ (d.marker.isLive = true ∧ b.deletedAt.shadowable.timestamp < d.marker.timestamp)) :
    ∃ c rest, (c :: rest).Perm rows ∧ c.deletedAt.shadowable = b.deletedAt.shadowable ∧ Protected c rest := by
  have single : ∀ c ∈ rows, ∃ rest, (c :: rest).Perm rows := fun c hc => by
    obtain ⟨s, s', rfl⟩ := append_of_mem hc
    exact ⟨s ++ s', perm_middle.symm⟩
  by_cases newer : ∃ a ∈ rows, a.marker.isLive = true ∧ b.deletedAt.shadowable.timestamp < a.marker.timestamp
  · obtain ⟨a, ha, live, lt, topA⟩ := exists_greatest_newer newer
    by_cases above : ∃ c ∈ rows, c.deletedAt.shadowable = b.deletedAt.shadowable ∧ a.marker.rank < c.marker.rank
    · -- a row with the tombstone has a marker above the live ones
      obtain ⟨c, hc, same, gt⟩ := above
      obtain ⟨rest, perm⟩ := single c hc
      refine ⟨c, rest, perm, same, fun r hr live lt => ?_, fun live lt => ?_⟩
      · exact (topA r (perm.mem_iff.1 (mem_cons_of_mem _ hr)) live (same ▸ lt)).trans_lt gt
      · exact absurd (topA c hc live (same ▸ lt)) (not_le.2 gt)
    · -- otherwise they can all be merged below the live marker, unless there is only one such row
      let below : DeletableRow C → Bool := fun r => decide (r.marker.rank ≤ a.marker.rank)
      have perm : (rows.filter below ++ rows.filter fun r => !below r).Perm rows := filter_append_perm ..
      have inside : ∀ r ∈ rows.filter below, r ∈ rows ∧ r.marker.rank ≤ a.marker.rank := fun r hr => by
        simpa [below] using mem_filter.1 hr
      have outside : ∀ r ∈ rows.filter (fun r => !below r), r ∈ rows ∧ a.marker.rank < r.marker.rank := fun r hr => by
        simpa [below] using mem_filter.1 hr
      have memA : a ∈ rows.filter below := mem_filter.2 ⟨ha, by simp [below]⟩
      have memB : b ∈ rows.filter below := mem_filter.2 ⟨hb, by
        simpa [below] using not_lt.1 fun gt => above ⟨b, hb, rfl, gt⟩⟩
      by_cases two : 2 ≤ (rows.filter below).length
      · have gt : a.marker.rank < d.marker.rank := lt_of_le_of_ne (top a ha) fun eq =>
          reset ⟨(isLive_eq eq).symm.trans live, lt.trans_le (timestamp_le eq.le)⟩
        have dead : d.marker.isLive = false := by
          cases liveD : d.marker.isLive with
          | false => rfl
          | true => exact absurd ⟨liveD, lt.trans_le (timestamp_le gt.le)⟩ reset
        refine absurd ⟨_, _, a, b, d, perm, ?_⟩ split
        exact {
          two
          live := ⟨memA, live, fun r hr => (inside r hr).2⟩
          tombstone := ⟨memB, fun r hr => greatest r (inside r hr).1, fun r hr => lt_of_le_of_ne
            (greatest r (outside r hr).1) fun eq => above ⟨r, (outside r hr).1, eq, (outside r hr).2⟩⟩
          newer := lt
          regular := fun r hr => regular r (perm.mem_iff.1 hr)
          dead := ⟨mem_filter.2 ⟨hd, by simpa [below] using gt⟩, dead, fun r hr => top r (perm.mem_iff.1 hr)⟩ }
      · obtain ⟨c, hc⟩ : ∃ c, rows.filter below = [c] := by
          have pos := length_pos_of_mem memA
          exact length_eq_one_iff.1 (by omega)
        rw [hc] at memA memB perm
        obtain rfl := mem_singleton.1 memA
        obtain rfl := mem_singleton.1 memB
        refine ⟨b, _, perm, rfl, fun r hr live lt => ?_, fun _ _ r hr => (outside r hr).2⟩
        exact absurd (topA r (outside r hr).1 live lt) (not_le.2 (outside r hr).2)
  · obtain ⟨rest, perm⟩ := single b hb
    refine ⟨b, rest, perm, rfl, fun r hr live lt => ?_, fun live lt => ?_⟩
    · exact absurd ⟨r, perm.mem_iff.1 (mem_cons_of_mem _ hr), live, lt⟩ newer
    · exact absurd ⟨b, hb, live, lt⟩ newer

/-- Unless a part can be shadowed, the shadowable tombstone is the same in any order. -/
theorem shadowable_eval_eq (sound : ∀ r ∈ rows, r.Sound) (split : ¬ ShadowedInPart rows) (ft : t.Full) (fu : u.Full)
    (pt : t.leaves.Perm rows) (pu : u.leaves.Perm rows) :
    (t.eval {} applyRow).deletedAt.shadowable = (u.eval {} applyRow).deletedAt.shadowable := by
  have merged : ∀ {q : MergeTree (DeletableRow C)}, q.Full → q.leaves.Perm rows → Merged rows (q.eval {} applyRow) :=
    fun full perm => (eval (fun r hr => sound r (perm.mem_iff.1 hr)) full).perm perm
  have ne : rows ≠ [] := fun nil => ft.leaves_ne_nil (perm_nil.1 (nil ▸ pt))
  obtain ⟨b, hb, greatest⟩ := exists_greatest (fun r => r.deletedAt.shadowable) ne
  obtain ⟨d, hd, top⟩ := exists_greatest (fun r => r.marker.rank) ne
  -- what is at least the greatest of the shadowable tombstones is that
  have ends : (∀ {q : MergeTree (DeletableRow C)}, q.Full → q.leaves.Perm rows →
      b.deletedAt.shadowable ≤ (q.eval {} applyRow).deletedAt.shadowable) →
      (t.eval {} applyRow).deletedAt.shadowable = (u.eval {} applyRow).deletedAt.shadowable := fun above =>
    (le_antisymm ((merged ft pt).shadowable _ greatest) (above ft pt)).trans
      (le_antisymm ((merged fu pu).shadowable _ greatest) (above fu pu)).symm
  by_cases covered : ∃ r ∈ rows, b.deletedAt.shadowable ≤ r.deletedAt.regular
  · obtain ⟨r, hr, le⟩ := covered
    exact ends fun full perm => (le.trans (((merged full perm).regular _).1 le_rfl r hr)).trans (merged full perm).sound.le
  have regular : ∀ r ∈ rows, r.deletedAt.regular < b.deletedAt.shadowable := fun r hr =>
    not_le.1 fun le => covered ⟨r, hr, le⟩
  by_cases reset : d.marker.isLive = true ∧ b.deletedAt.shadowable.timestamp < d.marker.timestamp
  · by_cases two : 2 ≤ rows.length
    · -- the last merge leaves the regular tombstone only
      have last : ∀ {q : MergeTree (DeletableRow C)}, q.Full → q.leaves.Perm rows →
          (q.eval {} applyRow).deletedAt.shadowable = (q.eval {} applyRow).deletedAt.regular := fun full perm =>
        shadowable_eval_of_newer (fun r hr => sound r (perm.mem_iff.1 hr)) full (perm.length_eq ▸ two) (perm.mem_iff.2 hd)
          reset.1 (fun r hr => top r (perm.mem_iff.1 hr))
          fun r hr => (Tombstone.timestamp_le (greatest r (perm.mem_iff.1 hr))).trans_lt reset.2
      rw [last ft pt, last fu pu, regular_eval_eq sound ft fu pt pu]
    · obtain ⟨x, rfl⟩ : ∃ x, rows = [x] := by
        have pos := length_pos_iff.2 ne
        exact length_eq_one_iff.1 (by omega)
      rw [eval_of_leaves_eq ft (perm_singleton.1 pt), eval_of_leaves_eq fu (perm_singleton.1 pu)]
  · obtain ⟨c, rest, perm, same, safe⟩ := exists_protected split hb greatest regular hd top reset
    exact ends fun full leaves => same ▸ safe.le_eval (fun r hr => sound r (leaves.mem_iff.1 hr)) full (perm.trans leaves.symm)

variable {part : List (DeletableRow C)} {rest : List (DeletableRow C)}

/-- Merging the part first loses the tombstone. -/
theorem Shadows.exists_lt (h : Shadows part rest a b d)
    (sound : ∀ r ∈ part ++ rest, r.Sound) : ∃ t : MergeTree (DeletableRow C), t.Full ∧ t.leaves.Perm (part ++ rest) ∧
      (t.eval {} applyRow).deletedAt.shadowable < b.deletedAt.shadowable := by
  obtain ⟨soundP, soundR⟩ := forall_mem_append.1 sound
  obtain ⟨p, ps, rfl⟩ := exists_cons_of_ne_nil (ne_nil_of_mem h.live.1)
  obtain ⟨q, qs, rfl⟩ := exists_cons_of_ne_nil (ne_nil_of_mem h.dead.1)
  have leavesP := leaves_chain p ps
  have leavesQ := leaves_chain q qs
  refine ⟨.node (.chain p ps) (.chain q qs), ⟨full_chain .., full_chain ..⟩, ?_, ?_⟩
  · rw [leaves, leavesP, leavesQ]
  have mergedP := eval (leavesP ▸ soundP) (full_chain p ps)
  have mergedQ := eval (leavesQ ▸ soundR) (full_chain q qs)
  have reset := shadowable_eval_of_newer (leavesP ▸ soundP) (full_chain p ps) (leavesP ▸ h.two)
    (leavesP ▸ h.live.1) h.live.2.1 (leavesP ▸ h.live.2.2)
    fun r hr => (Tombstone.timestamp_le (h.tombstone.2.1 r (leavesP ▸ hr))).trans_lt h.newer
  refine (shadowable_applyRow_le mergedP.sound mergedQ.sound).trans_lt (max_lt ?_ ?_)
  · rw [reset]
    exact mergedP.regular_lt fun r hr => h.regular r (mem_append_left _ (leavesP ▸ hr))
  · exact mergedQ.shadowable_lt fun r hr => h.tombstone.2.2 r (leavesQ ▸ hr)

/-- Merging the tombstone with the dead marker first keeps it. -/
theorem Shadows.exists_le (h : Shadows part rest a b d)
    (sound : ∀ r ∈ part ++ rest, r.Sound) : ∃ t : MergeTree (DeletableRow C), t.Full ∧ t.leaves.Perm (part ++ rest) ∧
      b.deletedAt.shadowable ≤ (t.eval {} applyRow).deletedAt.shadowable := by
  obtain ⟨memD, dead, top⟩ := h.dead
  obtain ⟨s, s', splitP⟩ := append_of_mem h.tombstone.1
  obtain ⟨u, u', splitR⟩ := append_of_mem memD
  obtain ⟨o, os, others⟩ : ∃ o os, (s ++ s') ++ (u ++ u') = o :: os := by
    refine exists_cons_of_ne_nil fun nil => ?_
    have two := h.two
    rw [(append_eq_nil_iff.1 (append_eq_nil_iff.1 nil).1).1] at splitP
    rw [splitP, (append_eq_nil_iff.1 (append_eq_nil_iff.1 nil).1).2] at two
    exact absurd two (by simp)
  have perm : ([b] ++ [d] ++ (o :: os)).Perm (part ++ rest) := by
    rw [← others, splitP, splitR]
    have apart : ((s ++ b :: s') ++ (u ++ d :: u')).Perm ((b :: (s ++ s')) ++ (d :: (u ++ u'))) :=
      perm_middle.append perm_middle
    exact (apart.trans (List.Perm.cons b perm_middle)).symm
  have leaves := leaves_chain o os
  let t : MergeTree (DeletableRow C) := .node (.node (.leaf b) (.leaf d)) (.chain o os)
  have full : t.Full := ⟨⟨trivial, trivial⟩, full_chain o os⟩
  have perm : t.leaves.Perm (part ++ rest) := by
    change ([b] ++ [d] ++ (chain o os).leaves).Perm _
    rwa [leaves]
  have merged := (eval (fun r hr => sound r (perm.mem_iff.1 hr)) full).perm perm
  have soundB := sound b (mem_append_left _ h.tombstone.1)
  have soundD := sound d (mem_append_right _ memD)
  -- with the greatest marker of all, which is dead, nothing is reset
  have pair : b.deletedAt.shadowable ≤ (b.applyRow d).deletedAt.shadowable :=
    le_shadowable_applyRow (le_max_left _ _) fun live => by
      have merged := (leaf soundB).node (leaf soundD)
      refine (merged.not_live (mem_append_right _ (mem_singleton.2 rfl)) (fun r hr => ?_) dead live).elim
      rcases mem_pair.1 hr with rfl | rfl
      · exact top r (mem_append_left _ h.tombstone.1)
      · exact le_rfl
  refine ⟨t, full, perm, le_shadowable_applyRow (pair.trans (le_max_left _ _)) fun live => ?_⟩
  exact (merged.not_live (mem_append_right _ memD) top dead live).elim

theorem marker_foldl {as : List (DeletableRow C)} (sound : ∀ s ∈ r :: as, s.Sound)
    (top : ∀ s ∈ as, s.marker.rank ≤ r.marker.rank) : (as.foldl applyRow r).marker = r.marker := by
  induction as generalizing r with
  | nil => rfl
  | cons s as ih =>
    obtain ⟨hr, hs, has⟩ : r.Sound ∧ s.Sound ∧ ∀ s ∈ as, s.Sound := by simpa using sound
    obtain ⟨le, top⟩ := forall_mem_cons.1 top
    have kept : (r.applyRow s).marker = r.marker := apply_of_le hr.fits hs.fits le
    rw [foldl_cons, ih (forall_mem_cons.2 ⟨sound_applyRow hr hs, has⟩) (kept ▸ top), kept]

/-- Rows converge in every order and grouping exactly if a greater marker decides wherever the TTL would, and no part of
them can be shadowed by a live marker below a dead one. -/
theorem rows_converge_iff (sound : ∀ r ∈ rows, r.Sound) :
    (∀ t u : MergeTree (DeletableRow C), t.Full → u.Full → t.leaves.Perm rows → u.leaves.Perm rows →
      (t.eval {} applyRow).Agree (u.eval {} applyRow)) ↔ MarkersDecided rows ∧ ¬ ShadowedInPart rows := by
  constructor
  · refine fun agree => ⟨fun r hr s hs differ => ?_, fun ⟨part, rest, a, b, d, perm, shadows⟩ => ?_⟩
    · by_contra undecided
      have top : ∀ q ∈ rows, q.marker.rank ≤ r.marker.rank := fun q hq => not_lt.1 fun lt => undecided ⟨q, hq, lt⟩
      -- either marker stays where it comes first
      have first : ∀ x ∈ rows, x.marker.rank = r.marker.rank → ∃ t : MergeTree (DeletableRow C),
          t.Full ∧ t.leaves.Perm rows ∧ (t.eval {} applyRow).marker = x.marker := by
        intro x hx same
        obtain ⟨l, l', rfl⟩ := append_of_mem hx
        have perm : (x :: (l ++ l')).Perm (l ++ x :: l') := perm_middle.symm
        refine ⟨.chain x (l ++ l'), full_chain .., (leaves_chain ..).symm ▸ perm, ?_⟩
        rw [eval_chain]
        exact marker_foldl (fun q hq => sound q (perm.mem_iff.1 hq))
          fun q hq => same ▸ top q (perm.mem_iff.1 (mem_cons_of_mem _ hq))
      obtain ⟨t, ft, pt, markerT⟩ := first r hr rfl
      obtain ⟨u, fu, pu, markerU⟩ := first s hs differ.rank_eq.symm
      have equal := (agree t u ft fu pt pu).marker
      rw [markerT, markerU, differ.not_equal] at equal
      cases equal
    · have sound : ∀ r ∈ part ++ rest, r.Sound := fun r hr => sound r (perm.mem_iff.1 hr)
      obtain ⟨t, ft, pt, lt⟩ := shadows.exists_lt sound
      obtain ⟨u, fu, pu, le⟩ := shadows.exists_le sound
      have same := (agree t u ft fu (pt.trans perm) (pu.trans perm)).shadowable
      exact absurd same (lt.trans_le le).ne
  · rintro ⟨decided, split⟩ t u ft fu pt pu
    refine ⟨?_, regular_eval_eq sound ft fu pt pu, shadowable_eval_eq sound split ft fu pt pu⟩
    have mt := (eval (fun r hr => sound r (pt.mem_iff.1 hr)) ft).perm pt
    have mu := (eval (fun r hr => sound r (pu.mem_iff.1 hr)) fu).perm pu
    obtain ⟨r, hr, markerT⟩ := mt.marker
    obtain ⟨s, hs, markerU⟩ := mu.marker
    have same : r.marker.rank = s.marker.rank := le_antisymm (markerU ▸ mu.top r hr) (markerT ▸ mt.top s hs)
    rw [markerT, markerU]
    refine (equal_or_differInTtl (sound r hr).fits (sound s hs).fits same).resolve_right fun differ => ?_
    obtain ⟨q, hq, lt⟩ := decided r hr s hs differ
    exact absurd lt (not_lt.2 (markerT ▸ mt.top q hq))

variable (timestamp : Int)

/-- A row that was inserted. -/
def inserted : DeletableRow Cell := { marker := { timestamp } }

/-- A row with a shadowable tombstone. -/
def hidden : DeletableRow Cell := { deletedAt := { shadowable := { timestamp } } }

/-- A row whose marker has expired. -/
def expired : DeletableRow Cell := { marker := { timestamp, ttl := -1 } }

/-- A row that expires at 100. -/
def expiring (timestamp ttl : Int) : DeletableRow Cell := { marker := { timestamp, ttl, expiry := 100 } }

theorem rows_converge_inserted : (∀ r ∈ [inserted 10, hidden 5], r.Sound) ∧
    ∀ t u : MergeTree (DeletableRow Cell), t.Full → u.Full →
      t.leaves.Perm [inserted 10, hidden 5] → u.leaves.Perm [inserted 10, hidden 5] →
        (t.eval {} applyRow).Agree (u.eval {} applyRow) := by
  have sound : ∀ r ∈ [inserted 10, hidden 5], r.Sound := by
    refine forall_mem_cons.2 ⟨⟨by decide, nofun⟩, forall_mem_singleton.2 ⟨by decide, fun _ => ⟨by decide, by decide⟩⟩⟩
  refine ⟨sound, (rows_converge_iff sound).2 ⟨by unfold MarkersDecided; decide, ?_⟩⟩
  rintro ⟨part, rest, a, b, d, perm, h⟩
  obtain ⟨memD, dead, top⟩ := h.dead
  rcases mem_pair.1 (perm.mem_iff.1 (mem_append_right _ memD)) with rfl | rfl
  · cases dead
  · exact absurd (top (inserted 10) (perm.mem_iff.2 mem_cons_self)) (by decide)

/-- An insert resets the older shadowable tombstone, unless the tombstone meets the newer marker that has expired first; and
of two markers that differ in the TTL the first is kept. -/
theorem rows_diverge : (((inserted 10).applyRow (hidden 5)).applyRow (expired 20)).deletedAt.shadowable ≠
        ((inserted 10).applyRow ((hidden 5).applyRow (expired 20))).deletedAt.shadowable ∧
      ((expiring 1 10).applyRow (expiring 1 20)).marker.equal ((expiring 1 20).applyRow (expiring 1 10)).marker = false := by
  decide

end DeletableRow

end ScyllaMoon.Mutation
