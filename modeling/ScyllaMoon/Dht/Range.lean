import Mathlib

/-!
# Ranges

A `nonwrapping_range` has an optional bound at each end, which may be part of it or not. Between any two values
there is a place to cut, and one right before and one right behind each value. A range reaches from one cut to
another, and what `range.hh` asks of bounds is asked of cuts.
-/

namespace ScyllaMoon.Dht

variable {α : Type}

/-- `range_bound` -/
structure RangeBound (α : Type) where
  value : α
  isInclusive : Bool := true
  deriving DecidableEq, Repr

/-- `nonwrapping_range`. A singular range ends where it starts; `last` is `_end`. -/
structure NonwrappingRange (α : Type) where
  start : Option (RangeBound α) := none
  last : Option (RangeBound α) := none
  singular : Bool := false
  deriving DecidableEq, Repr

/-- A place between values. -/
abbrev Cut (α : Type) := WithBot (WithTop (α ×ₗ Bool))

namespace Cut

/-- Right before the value -/
def before (x : α) : Cut α := (((toLex (x, false) : α ×ₗ Bool) : WithTop (α ×ₗ Bool)) : Cut α)

/-- Right behind the value -/
def after (x : α) : Cut α := (((toLex (x, true) : α ×ₗ Bool) : WithTop (α ×ₗ Bool)) : Cut α)

variable [LinearOrder α] {x y : α} {c : Cut α}

@[simp] theorem before_lt_before : before x < before y ↔ x < y := by
  simp [before, Prod.Lex.toLex_lt_toLex]

@[simp] theorem before_lt_after : before x < after y ↔ x ≤ y := by
  simp [before, after, Prod.Lex.toLex_lt_toLex, le_iff_lt_or_eq]

@[simp] theorem after_lt_before : after x < before y ↔ x < y := by
  simp [before, after, Prod.Lex.toLex_lt_toLex]

@[simp] theorem after_lt_after : after x < after y ↔ x < y := by
  simp [after, Prod.Lex.toLex_lt_toLex]

@[simp] theorem before_le_before : before x ≤ before y ↔ x ≤ y := by
  rw [← not_lt, before_lt_before, not_lt]

@[simp] theorem before_le_after : before x ≤ after y ↔ x ≤ y := by
  rw [← not_lt, after_lt_before, not_lt]

@[simp] theorem after_le_before : after x ≤ before y ↔ x < y := by
  rw [← not_lt, before_lt_after, not_le]

@[simp] theorem after_le_after : after x ≤ after y ↔ x ≤ y := by
  rw [← not_lt, after_lt_after, not_lt]

@[simp] theorem bot_lt_before : ⊥ < before x := WithBot.bot_lt_coe _

@[simp] theorem bot_lt_after : ⊥ < after x := WithBot.bot_lt_coe _

@[simp] theorem before_lt_top : before x < ⊤ := WithBot.coe_lt_coe.2 (WithTop.coe_lt_top _)

@[simp] theorem after_lt_top : after x < ⊤ := WithBot.coe_lt_coe.2 (WithTop.coe_lt_top _)

@[simp] theorem before_ne_top : before x ≠ ⊤ := before_lt_top.ne

@[simp] theorem after_ne_top : after x ≠ ⊤ := after_lt_top.ne

end Cut

namespace RangeBound

/-- Where a range with this start starts. -/
def lower (start : Option (RangeBound α)) : Cut α :=
  start.elim ⊥ fun b => if b.isInclusive then Cut.before b.value else Cut.after b.value

/-- Where a range with this end ends. -/
def upper (last : Option (RangeBound α)) : Cut α :=
  last.elim ⊤ fun b => if b.isInclusive then Cut.after b.value else Cut.before b.value

variable [LinearOrder α]

/-- `greater_than_or_equal(end_bound_ref, start_bound_ref)` -/
def endReaches (last start : Option (RangeBound α)) : Bool :=
  match last, start with
  | some e, some s => if !e.isInclusive || !s.isInclusive then decide (s.value < e.value) else decide (s.value ≤ e.value)
  | _, _ => true

variable (first second : Option (RangeBound α))

/-- `less_than(start_bound_ref, start_bound_ref)` -/
def startsBefore : Bool :=
  match first, second with
  | _, none => false
  | none, some _ => true
  | some f, some s => if f.isInclusive && !s.isInclusive then decide (f.value ≤ s.value) else decide (f.value < s.value)

/-- `greater_than_or_equal(end_bound_ref, end_bound_ref)` -/
def endsNotBefore : Bool :=
  match first, second with
  | none, _ => true
  | some _, none => false
  | some f, some s => if !f.isInclusive && s.isInclusive then decide (s.value < f.value) else decide (s.value ≤ f.value)

theorem endReaches_iff {last start : Option (RangeBound α)} : endReaches last start = true ↔ lower start < upper last := by
  rcases last with _ | ⟨e, _ | _⟩ <;> rcases start with _ | ⟨s, _ | _⟩ <;> simp [endReaches, lower, upper]

variable {first second : Option (RangeBound α)}

theorem startsBefore_iff : startsBefore first second = true ↔ lower first < lower second := by
  rcases first with _ | ⟨f, _ | _⟩ <;> rcases second with _ | ⟨s, _ | _⟩ <;> simp [startsBefore, lower]

theorem endsNotBefore_iff : endsNotBefore first second = true ↔ upper second ≤ upper first := by
  rcases first with _ | ⟨f, _ | _⟩ <;> rcases second with _ | ⟨s, _ | _⟩ <;> simp [endsNotBefore, upper]

end RangeBound

namespace NonwrappingRange

variable (r : NonwrappingRange α)

/-- `end()` -/
def stop : Option (RangeBound α) := if r.singular then r.start else r.last

variable [LinearOrder α] (r : NonwrappingRange α)

/-- `before(point)` -/
def before (point : α) : Bool :=
  r.start.any fun b => decide (point < b.value) || !b.isInclusive && decide (point = b.value)

/-- `after(point)` -/
def after (point : α) : Bool :=
  r.stop.any fun b => decide (b.value < point) || !b.isInclusive && decide (b.value = point)

/-- `contains(point)` -/
def contains (point : α) : Bool := !r.before point && !r.after point

/-- `overlaps(other)` -/
def overlaps (r other : NonwrappingRange α) : Bool :=
  if r.start.isNone && other.start.isNone then true
  else RangeBound.endReaches r.stop other.start && RangeBound.endReaches other.stop r.start

/-- `intersection(other)` -/
def intersection (r other : NonwrappingRange α) : Option (NonwrappingRange α) :=
  let (first, second) := if RangeBound.startsBefore other.start r.start then (other, r) else (r, other)
  if RangeBound.endReaches first.stop second.start then
    some { start := second.start, last := if !RangeBound.endsNotBefore second.stop first.stop then second.stop else first.stop }
  else none

/-- The range does not wrap around: `is_wrap_around()` is false. -/
def isProper : Bool := RangeBound.endReaches r.stop r.start

def lower : Cut α := RangeBound.lower r.start

def upper : Cut α := RangeBound.upper r.stop

variable {r other : NonwrappingRange α} {x : α}

theorem before_eq_false : r.before x = false ↔ r.lower ≤ Cut.before x := by
  rcases r with ⟨_ | ⟨b, _ | _⟩, last, singular⟩
  · simp [before, lower, RangeBound.lower]
  · rw [← Bool.not_eq_true]
    simp [before, lower, RangeBound.lower, ← le_iff_lt_or_eq, -not_or]
  · simp [before, lower, RangeBound.lower]

theorem after_eq_false : r.after x = false ↔ Cut.before x < r.upper := by
  unfold after upper
  rcases r.stop with _ | ⟨b, _ | _⟩
  · simp [RangeBound.upper]
  · rw [← Bool.not_eq_true]
    simp [RangeBound.upper, ← le_iff_lt_or_eq, -not_or]
  · simp [RangeBound.upper]

theorem contains_iff : r.contains x = true ↔ r.lower ≤ Cut.before x ∧ Cut.before x < r.upper := by
  rw [contains, Bool.and_eq_true, Bool.not_eq_true', Bool.not_eq_true', before_eq_false, after_eq_false]

theorem isProper_iff : r.isProper = true ↔ r.lower < r.upper := RangeBound.endReaches_iff

theorem overlaps_iff_lower_lt {start : Option (RangeBound α)} :
    r.overlaps { start := start } = true ↔ RangeBound.lower start < r.upper := by
  have reaches : RangeBound.endReaches r.stop start = true ↔ RangeBound.lower start < r.upper := RangeBound.endReaches_iff
  unfold overlaps
  split
  next both =>
    rw [Bool.and_eq_true, Option.isNone_iff_eq_none, Option.isNone_iff_eq_none] at both
    rw [← reaches, show start = none from both.2]
    cases r.stop <;> simp [RangeBound.endReaches]
  · rw [Bool.and_eq_true, reaches]
    exact and_iff_left (by cases r.start <;> rfl)

variable (le : r.lower ≤ other.lower)
include le

theorem intersection_of_le : r.intersection other =
    if RangeBound.endReaches r.stop other.start then
      some { start := other.start, last := if !RangeBound.endsNotBefore other.stop r.stop then other.stop else r.stop }
    else none := by
  have starts : RangeBound.startsBefore other.start r.start = true ↔ other.lower < r.lower := RangeBound.startsBefore_iff
  rw [intersection, if_neg (mt starts.1 (not_lt.2 le))]

/-- A range that starts in this one has what comes before both ends in common with it. -/
theorem intersection_eq_some (reach : other.lower < r.upper) :
    ∃ both, r.intersection other = some both ∧ both.lower = other.lower ∧ both.upper = min r.upper other.upper := by
  rw [intersection_of_le le, if_pos (RangeBound.endReaches_iff.2 reach)]
  refine ⟨_, rfl, rfl, ?_⟩
  have ends : RangeBound.endsNotBefore other.stop r.stop = true ↔ r.upper ≤ other.upper := RangeBound.endsNotBefore_iff
  split
  next ends' =>
    rw [Bool.not_eq_true', ← Bool.not_eq_true, ends, not_le] at ends'
    exact (min_eq_right ends'.le).symm
  next ends' =>
    rw [Bool.not_eq_true', Bool.not_eq_false, ends] at ends'
    exact (min_eq_left ends').symm

/-- A range that starts behind this one has nothing in common with it. -/
theorem intersection_eq_none (far : r.upper ≤ other.lower) : r.intersection other = none := by
  rw [intersection_of_le le, if_neg fun reaches => absurd (RangeBound.endReaches_iff.1 reaches) (not_lt.2 far)]

end NonwrappingRange

end ScyllaMoon.Dht
