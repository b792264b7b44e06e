import Mathlib

/-!
# Interval maps

A map from the points of a linear order to sets of values, kept as disjoint half-open segments in order.
`add` gives a value to all points of an interval: the segments are cut at both ends of it, those inside
take the value and the gaps between them are filled.
-/

namespace ScyllaMoon.Lib

open List

variable {α β : Type}

/-- The values of the points from `lower` up to `upper`, which is left out. -/
structure Segment (α β : Type) where
  lower : α
  upper : α
  values : List β
  deriving Repr

abbrev IntervalMap (α β : Type) := List (Segment α β)

variable [LinearOrder α]

/-- The point lies in the segment. -/
def Segment.Contains (s : Segment α β) (x : α) : Prop := s.lower ≤ x ∧ x < s.upper

instance (s : Segment α β) (x : α) : Decidable (s.Contains x) := inferInstanceAs (Decidable (_ ∧ _))

namespace IntervalMap

/-- The segments are not empty, disjoint and in order. -/
structure WellFormed (l : IntervalMap α β) : Prop where
  proper : ∀ s ∈ l, s.lower < s.upper
  disjoint : l.Pairwise fun s t => s.upper ≤ t.lower

/-- The values of a point. -/
def lookup (l : IntervalMap α β) (x : α) : List β := ((l.find? fun s => decide (s.Contains x)).map Segment.values).getD []

/-- The segments before a point and those from it on. -/
def cut (x : α) : IntervalMap α β → IntervalMap α β × IntervalMap α β
  | [] => ([], [])
  | s :: l =>
    if s.upper ≤ x then (s :: (cut x l).1, (cut x l).2)
    else if x ≤ s.lower then ([], s :: l)
    else ([⟨s.lower, x, s.values⟩], ⟨x, s.upper, s.values⟩ :: l)

/-- A segment with one value, unless it has no point. -/
def single (v : β) (a b : α) : IntervalMap α β := if a < b then [⟨a, b, [v]⟩] else []

/-- Gives `v` to the segments, which lie between `a` and `b`, and to the gaps between them. -/
def fill (v : β) : (a b : α) → IntervalMap α β → IntervalMap α β
  | a, b, [] => single v a b
  | a, b, s :: l => single v a s.lower ++ ⟨s.lower, s.upper, v :: s.values⟩ :: fill v s.upper b l

/-- Gives `v` to the points from `a` up to `b`. -/
def add (v : β) (a b : α) (l : IntervalMap α β) : IntervalMap α β :=
  (cut a l).1 ++ (fill v a b (cut b (cut a l).2).1 ++ (cut b (cut a l).2).2)

/-- All segments lie between `a` and `b`. -/
structure Within (a b : α) (l : IntervalMap α β) : Prop where
  lower : ∀ s ∈ l, a ≤ s.lower
  upper : ∀ s ∈ l, s.upper ≤ b

variable {l m : IntervalMap α β} {s : Segment α β} {a b c x y : α} {v w : β}

theorem wellFormed_nil : WellFormed ([] : IntervalMap α β) := ⟨nofun, .nil⟩

theorem wellFormed_cons : WellFormed (s :: l) ↔ s.lower < s.upper ∧ (∀ t ∈ l, s.upper ≤ t.lower) ∧ WellFormed l := by
  constructor
  · intro h
    obtain ⟨before, disjoint⟩ := pairwise_cons.1 h.disjoint
    exact ⟨h.proper s mem_cons_self, before, fun t ht => h.proper t (mem_cons_of_mem _ ht), disjoint⟩
  · rintro ⟨proper, before, h⟩
    exact ⟨forall_mem_cons.2 ⟨proper, h.proper⟩, pairwise_cons.2 ⟨before, h.disjoint⟩⟩

/-- Two maps on both sides of a point make one. -/
theorem WellFormed.append (hl : WellFormed l) (hm : WellFormed m) (before : ∀ s ∈ l, s.upper ≤ x) (after : ∀ s ∈ m, x ≤ s.lower) :
    WellFormed (l ++ m) :=
  ⟨forall_mem_append.2 ⟨hl.proper, hm.proper⟩,
    pairwise_append.2 ⟨hl.disjoint, hm.disjoint, fun s hs t ht => (before s hs).trans (after t ht)⟩⟩

@[simp] theorem lookup_nil : lookup ([] : IntervalMap α β) x = [] := rfl

theorem lookup_cons : lookup (s :: l) x = if s.Contains x then s.values else lookup l x := by
  unfold lookup
  by_cases h : s.Contains x <;> simp [h]

/-- Segments that end before a point do not matter there. -/
theorem lookup_append_of_le (h : ∀ s ∈ l, s.upper ≤ x) : lookup (l ++ m) x = lookup m x := by
  have none : l.find? (fun s => decide (s.Contains x)) = none :=
    find?_eq_none.2 fun s hs => by simp [Segment.Contains, not_lt.2 (h s hs)]
  unfold lookup
  rw [find?_append, none, Option.none_or]

theorem lookup_append (before : ∀ s ∈ l, s.upper ≤ x) (after : ∀ s ∈ m, x ≤ s.lower) (y : α) :
    lookup (l ++ m) y = if y < x then lookup l y else lookup m y := by
  split
  next lt =>
    have none : m.find? (fun s => decide (s.Contains y)) = none :=
      find?_eq_none.2 fun s hs => by simp [Segment.Contains, not_le.2 (lt.trans_le (after s hs))]
    unfold lookup
    rw [find?_append, none, Option.or_none]
  next ge =>
    exact lookup_append_of_le fun s hs => (before s hs).trans (not_lt.1 ge)

theorem lookup_of_lt (h : ∀ s ∈ l, x < s.lower) : lookup l x = [] := by
  have none : l.find? (fun s => decide (s.Contains x)) = none :=
    find?_eq_none.2 fun s hs => by simp [Segment.Contains, not_le.2 (h s hs)]
  simp [lookup, none]

/-- The point is between the two parts, which stay as the map had them. -/
structure IsCut (x : α) (l p q : IntervalMap α β) : Prop where
  before : ∀ s ∈ p, s.upper ≤ x
  after : ∀ s ∈ q, x ≤ s.lower
  left : WellFormed p
  right : WellFormed q
  lookup : ∀ y, l.lookup y = if y < x then p.lookup y else q.lookup y

theorem le_lower_cut (x : α) (h : ∀ s ∈ l, a ≤ s.lower) : ∀ s ∈ (cut x l).1, a ≤ s.lower := by
  induction l with
  | nil => exact h
  | cons s l ih =>
    obtain ⟨hs, h⟩ := forall_mem_cons.1 h
    unfold cut
    split
    · exact forall_mem_cons.2 ⟨hs, ih h⟩
    · split
      · exact nofun
      · exact forall_mem_singleton.2 hs

theorem isCut_cut (x : α) (h : WellFormed l) : IsCut x l (cut x l).1 (cut x l).2 := by
  induction l with
  | nil => exact ⟨by simp [cut], by simp [cut], wellFormed_nil, wellFormed_nil, fun y => by simp [cut]⟩
  | cons s l ih =>
    obtain ⟨proper, first, h⟩ := wellFormed_cons.1 h
    have ih := ih h
    unfold cut
    split
    next le =>
      refine ⟨forall_mem_cons.2 ⟨le, ih.before⟩, ih.after, ?_, ih.right, fun y => ?_⟩
      · exact wellFormed_cons.2 ⟨proper, le_lower_cut x first, ih.left⟩
      · simp only [lookup_cons, ih.lookup y]
        by_cases lt : y < x
        · simp only [if_pos lt]
        · simp only [if_neg lt, Segment.Contains, not_lt.2 (le.trans (not_lt.1 lt)), and_false, if_false]
    next reaches =>
      split
      next le =>
        have after : ∀ t ∈ s :: l, x ≤ t.lower := forall_mem_cons.2 ⟨le, fun t ht => le.trans (proper.le.trans (first t ht))⟩
        refine ⟨nofun, after, wellFormed_nil, wellFormed_cons.2 ⟨proper, first, h⟩, fun y => ?_⟩
        split
        next lt =>
          exact lookup_of_lt fun t ht => lt.trans_le (after t ht)
        · rfl
      next starts =>
        have lt := not_le.1 starts
        have gt := not_le.1 reaches
        refine ⟨forall_mem_singleton.2 le_rfl, ?_, ⟨forall_mem_singleton.2 lt, pairwise_singleton _ _⟩,
          wellFormed_cons.2 ⟨gt, first, h⟩, fun y => ?_⟩
        · exact forall_mem_cons.2 ⟨le_rfl, fun t ht => gt.le.trans (first t ht)⟩
        · simp only [lookup_cons, Segment.Contains, lookup_nil]
          by_cases hy : y < x
          · have beyond : lookup l y = [] := lookup_of_lt fun t ht => (hy.trans gt).trans_le (first t ht)
            simp only [hy, hy.trans gt, and_true, if_true, beyond]
          · have ge := not_lt.1 hy
            simp only [hy, ge, lt.le.trans ge, true_and, if_false]

theorem mem_lookup_single : w ∈ lookup (single v a b) x ↔ w = v ∧ a ≤ x ∧ x < b := by
  unfold single
  split
  · rw [lookup_cons]
    by_cases h : a ≤ x ∧ x < b
    · simp [Segment.Contains, h]
    · simp [Segment.Contains, h]
  next ge =>
    refine iff_of_false (by simp) fun ⟨_, le, lt⟩ => ge (le.trans_lt lt)

theorem wellFormed_single : WellFormed (single v a b) := by
  unfold single
  split
  next lt =>
    exact ⟨forall_mem_singleton.2 lt, pairwise_singleton _ _⟩
  · exact wellFormed_nil

theorem within_single : Within a b (single v a b) := by
  unfold single
  split
  · exact ⟨forall_mem_singleton.2 le_rfl, forall_mem_singleton.2 le_rfl⟩
  · exact ⟨nofun, nofun⟩

/-- What filling an interval makes of the segments in it. -/
structure IsFill (v : β) (a b : α) (l m : IntervalMap α β) : Prop where
  within : Within a b m
  wellFormed : WellFormed m
  lookup : ∀ w x, a ≤ x → x < b → (w ∈ m.lookup x ↔ w = v ∨ w ∈ l.lookup x)

theorem isFill_fill (h : WellFormed l) (le : a ≤ b) (within : Within a b l) : IsFill v a b l (fill v a b l) := by
  induction l generalizing a with
  | nil =>
    refine ⟨within_single, wellFormed_single, fun w x ge lt => ?_⟩
    rw [fill, mem_lookup_single]
    simp [ge, lt]
  | cons s l ih =>
    obtain ⟨proper, first, h⟩ := wellFormed_cons.1 h
    obtain ⟨hs, lower⟩ := forall_mem_cons.1 within.lower
    obtain ⟨hs', upper⟩ := forall_mem_cons.1 within.upper
    have ih := ih h hs' ⟨first, upper⟩
    have after : ∀ t ∈ ⟨s.lower, s.upper, v :: s.values⟩ :: fill v s.upper b l, s.lower ≤ t.lower :=
      forall_mem_cons.2 ⟨le_rfl, fun t ht => proper.le.trans (ih.within.lower t ht)⟩
    have before : ∀ t ∈ single v a s.lower, t.upper ≤ s.lower := within_single.upper
    refine ⟨⟨?_, ?_⟩, ?_, fun w x ge lt => ?_⟩
    · exact forall_mem_append.2 ⟨within_single.lower, fun t ht => hs.trans (after t ht)⟩
    · refine forall_mem_append.2 ⟨fun t ht => (before t ht).trans (proper.le.trans hs'), ?_⟩
      exact forall_mem_cons.2 ⟨hs', ih.within.upper⟩
    · exact wellFormed_single.append (wellFormed_cons.2 ⟨proper, ih.within.lower, ih.wellFormed⟩) before after
    · rw [fill, lookup_append before after, lookup_cons, lookup_cons]
      by_cases gap : x < s.lower
      · have none : lookup l x = [] := lookup_of_lt fun t ht => (gap.trans proper).trans_le (first t ht)
        simp [gap, mem_lookup_single, ge, Segment.Contains, not_le.2 gap, none]
      · rw [if_neg gap]
        by_cases inside : x < s.upper
        · simp [Segment.Contains, not_lt.1 gap, inside]
        · simp only [Segment.Contains, inside, and_false, if_false]
          exact ih.lookup w x (not_lt.1 inside) lt

/-- The parts of a map to which a value was added: before, inside and after the interval. -/
theorem add_parts (v : β) (h : WellFormed l) (le : a ≤ b) : ∃ p i j q, add v a b l = p ++ (j ++ q) ∧
    IsCut a l p (i ++ q) ∧ IsCut b (i ++ q) i q ∧ IsFill v a b i j := by
  have first := isCut_cut a h
  have second := isCut_cut b first.right
  have whole : IsCut a l (cut a l).1 ((cut b (cut a l).2).1 ++ (cut b (cut a l).2).2) := by
    refine ⟨first.before, ?_, first.left, second.left.append second.right second.before second.after, fun y => ?_⟩
    · exact forall_mem_append.2 ⟨le_lower_cut b first.after, fun t ht => le.trans (second.after t ht)⟩
    · rw [first.lookup y, second.lookup y, lookup_append second.before second.after]
  refine ⟨_, _, _, _, rfl, whole, ⟨second.before, second.after, second.left, second.right, fun y => ?_⟩,
    isFill_fill second.left le ⟨le_lower_cut b first.after, second.before⟩⟩
  exact lookup_append second.before second.after y

theorem WellFormed.add (h : WellFormed l) (le : a ≤ b) (v : β) : WellFormed (add v a b l) := by
  obtain ⟨p, i, j, q, eq, first, second, filled⟩ := add_parts v h le
  rw [eq]
  have inner := filled.wellFormed.append second.right filled.within.upper second.after
  refine first.left.append inner first.before ?_
  exact forall_mem_append.2 ⟨filled.within.lower, fun t ht => le.trans (second.after t ht)⟩

/-- Exactly the points of the interval get the value. -/
theorem mem_lookup_add (h : WellFormed l) (le : a ≤ b) :
    w ∈ lookup (add v a b l) x ↔ (w = v ∧ a ≤ x ∧ x < b) ∨ w ∈ lookup l x := by
  obtain ⟨p, i, j, q, eq, first, second, filled⟩ := add_parts v h le
  have after : ∀ t ∈ j ++ q, a ≤ t.lower :=
    forall_mem_append.2 ⟨filled.within.lower, fun t ht => le.trans (second.after t ht)⟩
  rw [eq, lookup_append first.before after, lookup_append filled.within.upper second.after, first.lookup, second.lookup]
  by_cases lt : x < a
  · simp [lt, not_le.2 lt]
  · simp only [if_neg lt]
    by_cases lt' : x < b
    · simp only [not_lt.1 lt, lt', and_true, if_true]
      exact filled.lookup w x (not_lt.1 lt) lt'
    · simp [lt']

end IntervalMap

end ScyllaMoon.Lib
