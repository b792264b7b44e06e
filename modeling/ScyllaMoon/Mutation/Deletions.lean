import ScyllaMoon.Mutation.RangeTombstoneList

/-!
# What a range tombstone list deletes

A well-formed list holds non-empty, disjoint ranges in position order. `tombstoneAt` is the tombstone
that covers a position. Applying a non-empty range keeps the list well formed, and at every position
leaves the greater of the tombstone it brings and the one that was there.
-/

namespace ScyllaMoon.Mutation

open Lib List

namespace Tombstone

theorem eq_of_compare_eq {t u : Tombstone} (h : t.compare u = .eq) : t = u := by
  obtain ⟨ht, hd⟩ := Ordering.then_eq_eq.1 h
  cases t
  simp_all

/-- The greater tombstone, where one list may have none. -/
def overlay : (new old : Option Tombstone) → Option Tombstone
  | none, old => old
  | some t, none => some t
  | some t, some u => some (if t.compare u = .lt then u else t)

@[simp] theorem overlay_none_left (o : Option Tombstone) : overlay none o = o := rfl

@[simp] theorem overlay_none_right (o : Option Tombstone) : overlay o none = o := by cases o <;> rfl

end Tombstone

namespace RangeTombstone

variable {Pos : Type} [LinearOrder Pos]

def Covers (rt : RangeTombstone Pos) (x : Pos) : Prop := rt.start ≤ x ∧ x < rt.stop

instance (rt : RangeTombstone Pos) (x : Pos) : Decidable (rt.Covers x) := by unfold Covers; infer_instance

/-- The tombstone that `rt` brings to the position. -/
def tombstoneAt (rt : RangeTombstone Pos) (x : Pos) : Option Tombstone :=
  if rt.Covers x then some rt.tomb else none

end RangeTombstone

namespace RangeTombstoneList

variable {Pos : Type} [LinearOrder Pos] {l m : RangeTombstoneList Pos} {rt : RangeTombstone Pos} {x : Pos}

/-- The list holds non-empty and disjoint ranges, in order. -/
structure WellFormed (l : RangeTombstoneList Pos) : Prop where
  proper : ∀ rt ∈ l, rt.start < rt.stop
  disjoint : l.Pairwise fun a b => a.stop ≤ b.start

/-- The tombstone that covers a position. -/
def tombstoneAt (l : RangeTombstoneList Pos) (x : Pos) : Option Tombstone :=
  (l.find? fun rt => decide (rt.Covers x)).map RangeTombstone.tomb

@[simp] theorem tombstoneAt_nil : tombstoneAt ([] : RangeTombstoneList Pos) x = none := rfl

theorem tombstoneAt_cons : tombstoneAt (rt :: l) x = if rt.Covers x then some rt.tomb else l.tombstoneAt x := by
  unfold tombstoneAt
  by_cases h : rt.Covers x <;> simp [h]

theorem tombstoneAt_append : tombstoneAt (l ++ m) x = (l.tombstoneAt x).or (m.tombstoneAt x) := by
  simp [tombstoneAt, find?_append, Option.map_or]

theorem tombstoneAt_eq_none (h : ∀ rt ∈ l, ¬rt.Covers x) : l.tombstoneAt x = none := by
  simpa [tombstoneAt] using h

theorem wellFormed_nil : WellFormed ([] : RangeTombstoneList Pos) := ⟨by simp, .nil⟩

theorem wellFormed_cons : WellFormed (rt :: l) ↔
    rt.start < rt.stop ∧ (∀ b ∈ l, rt.stop ≤ b.start) ∧ WellFormed l := by
  constructor
  · rintro ⟨proper, disjoint⟩
    obtain ⟨first, disjoint⟩ := pairwise_cons.1 disjoint
    exact ⟨proper rt mem_cons_self, first, fun b hb => proper b (mem_cons_of_mem _ hb), disjoint⟩
  · rintro ⟨proper, first, h⟩
    exact ⟨forall_mem_cons.2 ⟨proper, h.proper⟩, pairwise_cons.2 ⟨first, h.disjoint⟩⟩

theorem wellFormed_append : WellFormed (l ++ m) ↔
    WellFormed l ∧ WellFormed m ∧ ∀ a ∈ l, ∀ b ∈ m, a.stop ≤ b.start := by
  constructor
  · rintro ⟨proper, disjoint⟩
    obtain ⟨hl, hm, between⟩ := pairwise_append.1 disjoint
    exact ⟨⟨fun a ha => proper a (mem_append_left _ ha), hl⟩,
      ⟨fun a ha => proper a (mem_append_right _ ha), hm⟩, between⟩
  · rintro ⟨hl, hm, between⟩
    exact ⟨forall_mem_append.2 ⟨hl.proper, hm.proper⟩, pairwise_append.2 ⟨hl.disjoint, hm.disjoint, between⟩⟩

theorem WellFormed.sublist (h : WellFormed m) (hl : l.Sublist m) : WellFormed l :=
  ⟨fun rt hrt => h.proper rt (hl.subset hrt), h.disjoint.sublist hl⟩

variable {tomb : Tombstone}

theorem insertFrom_ge {start stop b : Pos} (hb : b ≤ start) (h : ∀ rt ∈ l, b ≤ rt.start)
    (proper : ∀ rt ∈ l, rt.start < rt.stop) (lt : start < stop) :
    ∀ rt ∈ insertFrom start stop tomb l, b ≤ rt.start := by
  fun_induction insertFrom start stop tomb l <;> grind

theorem insertFrom_wellFormed {start stop : Pos} (h : WellFormed l) (proper : start < stop)
    (ends : ∀ rt ∈ l, start < rt.stop) : WellFormed (insertFrom start stop tomb l) := by
  fun_induction insertFrom start stop tomb l with
  | case7 start stop it rest _ _ _ left _ ih =>
    -- the survivor of `it` ends where the new range begins
    obtain ⟨hit, after, h⟩ := wellFormed_cons.1 h
    have ends' := fun rt hrt => ends rt (mem_cons_of_mem _ hrt)
    refine wellFormed_append.2 ⟨by grind [wellFormed_cons, wellFormed_nil], ih h proper ends', ?_⟩
    have ge : ∀ rt ∈ insertFrom start stop tomb rest, start ≤ rt.start :=
      insertFrom_ge le_rfl (fun rt hrt => (ends it mem_cons_self).le.trans (after rt hrt)) h.proper proper
    grind
  | case9 start stop it rest _ _ _ _ left more ih =>
    -- the rest of the new range goes on behind `it`
    obtain ⟨hit, after, h⟩ := wellFormed_cons.1 h
    have ends' : ∀ rt ∈ rest, it.stop < rt.stop := fun rt hrt => (after rt hrt).trans_lt (h.proper rt hrt)
    have ge : ∀ rt ∈ insertFrom it.stop stop tomb rest, it.stop ≤ rt.start :=
      insertFrom_ge le_rfl after h.proper more
    refine wellFormed_append.2 ⟨by grind [wellFormed_cons, wellFormed_nil], wellFormed_cons.2 ⟨hit, ge, ih h more ends'⟩, ?_⟩
    grind
  | _ => grind [wellFormed_cons, wellFormed_append, wellFormed_nil]

theorem tombstoneAt_of_lt (h : ∀ rt ∈ l, x < rt.start) : l.tombstoneAt x = none :=
  tombstoneAt_eq_none fun rt hrt hc => (hc.1.trans_lt (h rt hrt)).false

open Tombstone (overlay)

theorem tombstoneAt_insertFrom {start stop : Pos} (h : WellFormed l) (proper : start < stop)
    (ends : ∀ rt ∈ l, start < rt.stop) (x : Pos) :
    (insertFrom start stop tomb l).tombstoneAt x =
      overlay (RangeTombstone.tombstoneAt ⟨start, stop, tomb⟩ x) (l.tombstoneAt x) := by
  fun_induction insertFrom start stop tomb l with
  | case1 => grind [tombstoneAt_cons, tombstoneAt_nil, RangeTombstone.tombstoneAt, overlay]
  | case2 => order
  | case3 start stop it rest | case4 start stop it rest | case5 start stop it rest | case6 start stop it rest
  | case7 start stop it rest | case8 start stop it rest | case9 start stop it rest | case10 start stop it rest =>
    obtain ⟨hit, after, h⟩ := wellFormed_cons.1 h
    have beyond : x < it.stop → tombstoneAt rest x = none := fun hx =>
      tombstoneAt_of_lt fun rt hrt => hx.trans_le (after rt hrt)
    have past : ∀ rt ∈ rest, it.stop < rt.stop := fun rt hrt => (after rt hrt).trans_lt (h.proper rt hrt)
    grind [tombstoneAt_cons, tombstoneAt_nil, tombstoneAt_append, RangeTombstone.tombstoneAt,
      RangeTombstone.Covers, overlay, Tombstone.eq_of_compare_eq]

/-- The ranges of a well-formed list that end by `a` come first. -/
theorem WellFormed.cut (h : WellFormed l) (a : Pos) :
    l.Pairwise fun r t => decide (t.stop ≤ a) = true → decide (r.stop ≤ a) = true := by
  refine h.disjoint.imp_of_mem fun hr ht hrt ha => ?_
  have := h.proper _ ht
  simp only [decide_eq_true_eq] at *
  order

theorem tombstoneAt_of_ends (h : ∀ rt ∈ l, rt.stop ≤ x) : l.tombstoneAt x = none :=
  tombstoneAt_eq_none fun rt hrt hc => ((h rt hrt).trans_lt hc.2).false

/-- Ranges that end before the new one begins stay in front of it. -/
theorem append_insertFrom {b : RangeTombstoneList Pos} (start stop : Pos) (tomb : Tombstone) (h : WellFormed (b ++ l))
    (before : ∀ rt ∈ b, rt.stop ≤ start) (ends : ∀ rt ∈ l, start < rt.stop) (proper : start < stop) :
    WellFormed (b ++ insertFrom start stop tomb l) ∧ ∀ x, (b ++ insertFrom start stop tomb l).tombstoneAt x =
      overlay (RangeTombstone.tombstoneAt ⟨start, stop, tomb⟩ x) ((b ++ l).tombstoneAt x) := by
  obtain ⟨hb, hl, between⟩ := wellFormed_append.1 h
  refine ⟨wellFormed_append.2 ⟨hb, insertFrom_wellFormed hl proper ends, fun a ha =>
    insertFrom_ge (before a ha) (between a ha) hl.proper proper⟩, fun x => ?_⟩
  rw [tombstoneAt_append, tombstoneAt_append, tombstoneAt_insertFrom hl proper ends]
  by_cases hx : x < start
  · have new : RangeTombstone.tombstoneAt ⟨start, stop, tomb⟩ x = none := if_neg fun hc => (hc.1.trans_lt hx).false
    rw [new, Tombstone.overlay_none_left, Tombstone.overlay_none_left]
  · rw [tombstoneAt_of_ends fun rt hrt => (before rt hrt).trans (not_lt.1 hx), Option.none_or, Option.none_or]

/-- A well-formed list is cut where its ranges begin to end after the position. -/
theorem WellFormed.split (h : WellFormed l) (a : Pos) : ∃ before rest, l = before ++ rest ∧
    (∀ rt ∈ before, rt.stop ≤ a) ∧ ∀ rt ∈ rest, a < rt.stop := by
  refine ⟨l.takeWhile fun it => decide (it.stop ≤ a), l.dropWhile fun it => decide (it.stop ≤ a),
    takeWhile_append_dropWhile.symm, ?_, ?_⟩
  · rw [takeWhile_eq_filter (h.cut _)]
    simp
  · rw [dropWhile_eq_filter (h.cut _)]
    simp

section Apply

variable {before rest : RangeTombstoneList Pos} {prev : RangeTombstone Pos}

section

variable (hb : ∀ a ∈ before, a.stop ≤ rt.start)
include hb

variable (hr : ∀ a ∈ rest, rt.start < a.stop)
include hr

theorem cut_eq :
    (before ++ rest).takeWhile (fun it => decide (it.stop ≤ rt.start)) = before ∧
      (before ++ rest).dropWhile (fun it => decide (it.stop ≤ rt.start)) = rest := by
  have ends : ∀ a ∈ before, decide (a.stop ≤ rt.start) = true := fun a ha => decide_eq_true (hb a ha)
  have later : ∀ a ∈ rest, decide (a.stop ≤ rt.start) = false := fun a ha => decide_eq_false (hr a ha).not_ge
  exact ⟨takeWhile_append_eq ends later, dropWhile_append_eq ends later⟩

theorem apply_apart (apart : ∀ prev ∈ before.getLast?, ¬(prev.tomb = rt.tomb ∧ prev.stop = rt.start)) :
    apply (before ++ rest) rt = before ++ insertFrom rt.start rt.stop rt.tomb rest := by
  obtain ⟨first, second⟩ := cut_eq hb hr
  unfold apply
  rw [first, second]
  rcases eq_nil_or_concat' before with rfl | ⟨init, prev, rfl⟩
  · simp only [getLast?_nil, nil_append]
  · simp only [getLast?_concat]
    exact if_neg (apart prev (by simp))

theorem apply_touching (tomb : prev.tomb = rt.tomb) (stop : prev.stop = rt.start) :
    apply (before ++ prev :: rest) rt = before ++ insertFrom prev.start rt.stop rt.tomb rest := by
  have hb' : ∀ a ∈ before ++ [prev], a.stop ≤ rt.start :=
    forall_mem_append.2 ⟨hb, forall_mem_singleton.2 stop.le⟩
  obtain ⟨first, second⟩ := cut_eq hb' hr
  rw [append_cons]
  unfold apply
  rw [first, second]
  simp only [getLast?_concat, dropLast_concat]
  exact if_pos ⟨tomb, stop⟩

end

/-- A range that is moved to a later end brings its tombstone to what is between. -/
theorem extend_spec {stop : Pos} (h : WellFormed (before ++ prev :: rest)) (le : prev.stop ≤ stop) :
    WellFormed (before ++ insertFrom prev.start stop prev.tomb rest) ∧
    ∀ x, (before ++ insertFrom prev.start stop prev.tomb rest).tombstoneAt x =
      overlay (RangeTombstone.tombstoneAt ⟨prev.stop, stop, prev.tomb⟩ x) ((before ++ prev :: rest).tombstoneAt x) := by
  obtain ⟨hinit, hprev, between⟩ := wellFormed_append.1 h
  obtain ⟨proper, after, hrest⟩ := wellFormed_cons.1 hprev
  have joined := append_insertFrom prev.start stop prev.tomb (h.sublist (by simp) : WellFormed (before ++ rest))
    (fun a ha => between a ha prev mem_cons_self)
    (fun a ha => by have := after a ha; have := hrest.proper a ha; order) (by order)
  refine ⟨joined.1, fun x => ?_⟩
  rw [joined.2 x, tombstoneAt_append, tombstoneAt_append, tombstoneAt_cons]
  by_cases hc : prev.Covers x
  · have new : ¬RangeTombstone.Covers ⟨prev.stop, stop, prev.tomb⟩ x := fun h => (hc.2.trans_le h.1).false
    have before_none : tombstoneAt before x = none :=
      tombstoneAt_of_ends fun a ha => (between a ha prev mem_cons_self).trans hc.1
    have rest_none : tombstoneAt rest x = none := tombstoneAt_of_lt fun a ha => hc.2.trans_le (after a ha)
    have wide : RangeTombstone.Covers ⟨prev.start, stop, prev.tomb⟩ x := ⟨hc.1, hc.2.trans_le le⟩
    simp [RangeTombstone.tombstoneAt, hc, new, before_none, rest_none, wide]
  · have same : RangeTombstone.Covers ⟨prev.start, stop, prev.tomb⟩ x ↔
        RangeTombstone.Covers ⟨prev.stop, stop, prev.tomb⟩ x := by
      simp only [RangeTombstone.Covers] at hc ⊢
      grind
    simp [RangeTombstone.tombstoneAt, hc, same]

/-- A new range is put into the list, or the range before it that it continues takes its end. -/
theorem WellFormed.apply_cases (h : WellFormed l) (rt : RangeTombstone Pos) :
    ∃ before rest, (∀ a ∈ before, a.stop ≤ rt.start) ∧ (∀ a ∈ rest, rt.start < a.stop) ∧
      ((l = before ++ rest ∧ (∀ prev ∈ l, prev.tomb = rt.tomb → prev.stop ≠ rt.start) ∧
          apply l rt = before ++ insertFrom rt.start rt.stop rt.tomb rest) ∨
        ∃ prev, l = before ++ prev :: rest ∧ prev.tomb = rt.tomb ∧ prev.stop = rt.start ∧
          apply l rt = before ++ insertFrom prev.start rt.stop rt.tomb rest) := by
  obtain ⟨before, rest, rfl, hb, hr⟩ := h.split rt.start
  by_cases touch : ∃ prev ∈ before, prev.tomb = rt.tomb ∧ prev.stop = rt.start
  · obtain ⟨prev, mem, tomb, stop⟩ := touch
    -- nothing comes between the end of `prev` and the start
    obtain ⟨init, tail, rfl⟩ := append_of_mem mem
    have last : tail = [] := by
      refine eq_nil_iff_forall_not_mem.2 fun a ha => ?_
      have inside : a ∈ init ++ prev :: tail := mem_append_right _ (mem_cons_of_mem _ ha)
      have after := (wellFormed_cons.1 (wellFormed_append.1 (wellFormed_append.1 h).1).2.1).2.1 a ha
      have proper := h.proper a (mem_append_left _ inside)
      have := hb a inside
      order
    subst last
    rw [append_assoc, singleton_append]
    have hi : ∀ a ∈ init, a.stop ≤ rt.start := fun a ha => hb a (mem_append_left _ ha)
    exact ⟨init, rest, hi, hr, .inr ⟨prev, rfl, tomb, stop, apply_touching hi hr tomb stop⟩⟩
  · have apart : ∀ prev ∈ before, prev.tomb = rt.tomb → prev.stop ≠ rt.start :=
      fun prev mem tomb stop => touch ⟨prev, mem, tomb, stop⟩
    have last : ∀ prev ∈ before.getLast?, ¬(prev.tomb = rt.tomb ∧ prev.stop = rt.start) :=
      fun prev mem h => apart prev (mem_of_getLast? mem) h.1 h.2
    refine ⟨before, rest, hb, hr, .inl ⟨rfl, ?_, apply_apart hb hr last⟩⟩
    exact forall_mem_append.2 ⟨apart, fun a ha _ stop => (hr a ha).ne' stop⟩

end Apply

/-- `range_tombstone_list::apply` is exact. -/
theorem apply_spec (h : WellFormed l) (proper : rt.start < rt.stop) :
    WellFormed (apply l rt) ∧ ∀ x, (apply l rt).tombstoneAt x = overlay (rt.tombstoneAt x) (l.tombstoneAt x) := by
  obtain ⟨before, rest, hb, hr, ⟨rfl, _, e⟩ | ⟨prev, rfl, tomb, stop, e⟩⟩ := h.apply_cases rt
  · rw [e]
    exact append_insertFrom _ _ _ h hb hr proper
  · rw [e, ← tomb]
    have spec := extend_spec h (stop.trans_le proper.le)
    rw [stop, tomb] at spec
    rw [tomb]
    exact spec

theorem applyAll_cons : applyAll l (rt :: m) = applyAll (apply l rt) m := rfl

theorem applyAll_append {n : RangeTombstoneList Pos} : applyAll l (m ++ n) = applyAll (applyAll l m) n :=
  foldl_append ..

theorem WellFormed.applyAll (h : WellFormed l) (proper : ∀ rt ∈ m, rt.start < rt.stop) :
    WellFormed (applyAll l m) := by
  induction m generalizing l with
  | nil => exact h
  | cons rt m ih =>
    obtain ⟨hrt, hm⟩ := forall_mem_cons.1 proper
    exact ih (apply_spec h hrt).1 hm

/-- A well-formed list covers a position at most once, so applying all of it overlays that tombstone. -/
theorem tombstoneAt_applyAll (h : WellFormed l) (hm : WellFormed m) (x : Pos) :
    (applyAll l m).tombstoneAt x = overlay (m.tombstoneAt x) (l.tombstoneAt x) := by
  induction m generalizing l with
  | nil => rfl
  | cons rt m ih =>
    obtain ⟨proper, after, hm⟩ := wellFormed_cons.1 hm
    obtain ⟨happ, tomb⟩ := apply_spec h proper
    rw [applyAll_cons, ih happ hm, tomb, tombstoneAt_cons]
    by_cases hc : rt.Covers x
    · have none : tombstoneAt m x = none := tombstoneAt_of_lt fun a ha => hc.2.trans_le (after a ha)
      simp [RangeTombstone.tombstoneAt, hc, none]
    · simp [RangeTombstone.tombstoneAt, hc]

/-- A range behind all others is added at the end, or joined to the last one. -/
theorem apply_of_before (before : ∀ a ∈ l, a.stop ≤ rt.start) : apply l rt = l ++ [rt] ∨
    ∃ init prev, l = init ++ [prev] ∧ apply l rt = init ++ [{ start := prev.start, stop := rt.stop, tomb := rt.tomb }] := by
  have all : l.takeWhile (fun it => decide (it.stop ≤ rt.start)) = l :=
    takeWhile_eq_self_iff.2 fun a ha => decide_eq_true (before a ha)
  have none : l.dropWhile (fun it => decide (it.stop ≤ rt.start)) = [] :=
    dropWhile_eq_nil_iff.2 fun a ha => decide_eq_true (before a ha)
  unfold apply
  rw [all, none]
  rcases eq_nil_or_concat' l with rfl | ⟨init, prev, rfl⟩
  · exact .inl rfl
  · simp only [getLast?_concat, dropLast_concat]
    split
    · exact .inr ⟨init, prev, rfl, rfl⟩
    · exact .inl rfl

/-- Applying ranges in order makes no new start. -/
theorem forall_start_applyAll {p : Pos → Prop} (h : WellFormed (l ++ m)) (hl : ∀ a ∈ l, p a.start)
    (hm : ∀ a ∈ m, p a.start) : ∀ a ∈ applyAll l m, p a.start := by
  induction m generalizing l with
  | nil => exact hl
  | cons rt m ih =>
    obtain ⟨hwl, hwm, between⟩ := wellFormed_append.1 h
    obtain ⟨proper, after, hwm⟩ := wellFormed_cons.1 hwm
    obtain ⟨hrt, hm⟩ := forall_mem_cons.1 hm
    have wf := (apply_spec hwl proper).1
    rw [applyAll_cons]
    rcases apply_of_before fun a ha => between a ha rt mem_cons_self with e | ⟨init, prev, rfl, e⟩ <;> rw [e] at wf ⊢
    · refine ih (wellFormed_append.2 ⟨wf, hwm, ?_⟩) (forall_mem_append.2 ⟨hl, forall_mem_singleton.2 hrt⟩) hm
      exact forall_mem_append.2 ⟨fun a ha b hb => between a ha b (mem_cons_of_mem _ hb), forall_mem_singleton.2 after⟩
    · obtain ⟨hinit, hprev⟩ := forall_mem_append.1 hl
      refine ih (wellFormed_append.2 ⟨wf, hwm, ?_⟩) (forall_mem_append.2 ⟨hinit, forall_mem_singleton.2
        (hprev prev mem_cons_self)⟩) hm
      exact forall_mem_append.2 ⟨fun a ha b hb =>
        between a (mem_append_left _ ha) b (mem_cons_of_mem _ hb), forall_mem_singleton.2 after⟩

variable (h : WellFormed l)
include h

variable {r : ClusteringRange Pos}

theorem WellFormed.mem_slice :
    rt ∈ l.slice r ↔ rt ∈ l ∧ r.start < rt.stop ∧ rt.start < r.stop := by
  have cut : (l.filter fun rt => !decide (rt.stop ≤ r.start)).Pairwise fun a b =>
      decide (b.start < r.stop) = true → decide (a.start < r.stop) = true := by
    have hf : WellFormed (l.filter fun rt => !decide (rt.stop ≤ r.start)) := h.sublist filter_sublist
    refine hf.disjoint.imp_of_mem fun ha hb hab hlt => ?_
    have := hf.proper _ ha
    simp only [decide_eq_true_eq] at *
    order
  rw [RangeTombstoneList.slice, dropWhile_eq_filter (h.cut _), takeWhile_eq_filter cut]
  simp [and_comm]

theorem WellFormed.slice (r : ClusteringRange Pos) : WellFormed (l.slice r) :=
  h.sublist ((takeWhile_sublist _).trans (dropWhile_sublist _))

/-- In a well-formed list the range that covers a position is the only one. -/
theorem WellFormed.tombstoneAt_eq_some {t : Tombstone} :
    l.tombstoneAt x = some t ↔ ∃ rt ∈ l, rt.Covers x ∧ rt.tomb = t := by
  induction l with
  | nil => simp
  | cons a l ih =>
    obtain ⟨proper, after, h⟩ := wellFormed_cons.1 h
    rw [tombstoneAt_cons]
    by_cases hc : a.Covers x
    · have other : ∀ b ∈ l, ¬b.Covers x := fun b hb hcb => ((hc.2.trans_le (after b hb)).trans_le hcb.1).false
      simp only [hc, if_true, Option.some.injEq, mem_cons, exists_eq_or_imp, true_and]
      exact ⟨.inl, fun h => h.elim id fun ⟨b, hb, hcb, _⟩ => (other b hb hcb).elim⟩
    · simp [hc, ih h]

theorem WellFormed.tombstoneAt_slice (hx : r.start ≤ x ∧ x < r.stop) :
    (l.slice r).tombstoneAt x = l.tombstoneAt x := by
  refine Option.ext fun t => ?_
  rw [h.tombstoneAt_eq_some, (h.slice r).tombstoneAt_eq_some]
  constructor
  · rintro ⟨rt, hrt, hc⟩
    exact ⟨rt, (h.mem_slice.1 hrt).1, hc⟩
  · rintro ⟨rt, hrt, hc, ht⟩
    exact ⟨rt, h.mem_slice.2 ⟨hrt, hx.1.trans_lt hc.2, hc.1.trans_lt hx.2⟩, hc, ht⟩

/-- Outside of it a slice deletes what the list does, or nothing. -/
theorem WellFormed.tombstoneAt_slice_or (r : ClusteringRange Pos) (x : Pos) :
    (l.slice r).tombstoneAt x = none ∨ (l.slice r).tombstoneAt x = l.tombstoneAt x := by
  cases hs : (l.slice r).tombstoneAt x with
  | none => exact .inl rfl
  | some t =>
    obtain ⟨rt, hrt, hc⟩ := (h.slice r).tombstoneAt_eq_some.1 hs
    exact .inr (h.tombstoneAt_eq_some.2 ⟨rt, (h.mem_slice.1 hrt).1, hc⟩).symm

end RangeTombstoneList

end ScyllaMoon.Mutation
