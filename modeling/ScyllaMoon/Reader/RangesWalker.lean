import Mathlib

/-!
# The walker over clustering ranges

`clustering_ranges_walker` is asked for positions in order and says which of them are in the ranges of a slice. Its front
can be trimmed, which is meant to outlast a reset. What a reset trims to, however, is only the last position that lay
in a range, at or after the one the walker stood in.

The position of the static row is below those of the rows; `⊥ : P` is before all of these and `⊤ : P` after.
-/

namespace ScyllaMoon.Reader

/-- `clustering_ranges_walker`, the ranges by the positions where they start and where they end -/
structure RangesWalker (P : Type) where
  ranges : List (P × P)
  withStaticRow : Bool
  /-- From `_current` on -/
  ahead : List (P × P)
  inCurrent : Bool
  currentStart : WithBot P
  currentEnd : WithBot P
  trim : Option (WithBot P) := none

namespace RangesWalker

variable {P : Type} [LinearOrder P] [BoundedOrder P] (w : RangesWalker P)

/-- The walker enters the first of the ranges ahead, if there is any. -/
def enter : List (P × P) → RangesWalker P × Bool
  | [] => ({ w with ahead := [], inCurrent := false, currentStart := ⊤, currentEnd := ⊤ }, false)
  | r :: rest =>
    ({ w with ahead := r :: rest, inCurrent := false, currentStart := r.1, currentEnd := r.2 }, true)

/-- The ranges after the one that the walker stands in -/
def later : List (P × P) := if w.currentStart = ⊥ then w.ahead else w.ahead.tail

/-- `advance_to_next_range` -/
def advanceToNextRange : RangesWalker P × Bool :=
  if w.currentStart ≠ ⊥ ∧ w.ahead.isEmpty then ({ w with inCurrent := false }, false) else w.enter w.later

/-- The constructor -/
def make (ranges : List (P × P)) (withStaticRow : Bool) : RangesWalker P :=
  if withStaticRow then
    { ranges, withStaticRow, ahead := ranges, inCurrent := true, currentStart := ⊥, currentEnd := (⊥ : P) }
  else match ranges with
    | [] => { ranges, withStaticRow, ahead := ranges, inCurrent := false, currentStart := ⊤, currentEnd := ⊤ }
    | r :: _ => { ranges, withStaticRow, ahead := ranges, inCurrent := false, currentStart := r.1, currentEnd := r.2 }

/-- The loop of `trim_front`; the fuel is for the ranges that are left -/
def trimLoop (pos : WithBot P) : Nat → RangesWalker P → RangesWalker P
  | 0, w => w
  | fuel + 1, w =>
    if ¬ w.currentStart < pos then w
    else if pos < w.currentEnd then
      { w with trim := some pos, currentStart := pos, inCurrent := false }
    else if w.advanceToNextRange.2 then trimLoop pos fuel w.advanceToNextRange.1 else w.advanceToNextRange.1

/-- `trim_front(pos)` -/
def trimFront (pos : WithBot P) : RangesWalker P := trimLoop pos (w.ahead.length + 1) w

/-- The loop of `advance_to` -/
def advanceLoop (pos : WithBot P) : Nat → RangesWalker P → RangesWalker P × Bool
  | 0, w => (w, false)
  | fuel + 1, w =>
    if w.inCurrent = false ∧ pos < w.currentStart then (w, false)
    else if pos < w.currentEnd then ({ w with inCurrent := true }, true)
    else if w.advanceToNextRange.2 then advanceLoop pos fuel w.advanceToNextRange.1 else (w.advanceToNextRange.1, false)

/-- `advance_to(pos)` -/
def advanceTo (pos : WithBot P) : RangesWalker P × Bool := advanceLoop pos (w.ahead.length + 1) w

/-- `reset()` -/
def reset : RangesWalker P :=
  let fresh := make w.ranges w.withStaticRow
  w.trim.elim fresh fresh.trimFront

section Contained

variable (ranges : List (P × P)) (withStaticRow : Bool)

/-- The position is in one of the ranges, or is the static row. -/
def Contained (x : WithBot P) : Prop := (withStaticRow = true ∧ x = ⊥) ∨ ∃ r ∈ ranges, (r.1 : WithBot P) ≤ x ∧ x < r.2

instance (x : WithBot P) : Decidable (Contained ranges withStaticRow x) := inferInstanceAs (Decidable (_ ∨ _))

end Contained

/-- The walker stands in such a range, by its start and its end, or has one ahead. -/
def Has (Q : WithBot P → WithBot P → Prop) : Prop := Q w.currentStart w.currentEnd ∨ ∃ r ∈ w.later, Q r.1 r.2

/-- The position is still ahead. -/
def Ahead (x : WithBot P) : Prop := w.Has fun s e => s ≤ x ∧ x < e

/-- The position is inside of a range that ends behind `b`, and not at its start. -/
def Inner (b x s e : WithBot P) : Prop := s < x ∧ x < e ∧ b < e

/-- How a walker stands that was asked for a position last -/
structure Standing (last : WithBot P) : Prop where
  /-- Only where the static row is next, the walker stands before all rows. -/
  static : w.currentStart = ⊥ → w.currentEnd = (⊥ : P)
  ended : w.currentStart ≠ ⊥ → w.ahead = [] → w.currentStart = ⊤
  inside : w.inCurrent = true → w.currentStart ≤ last
  reached : last < w.currentEnd ∨ w.currentStart = ⊤
  start_le : w.currentStart ≤ w.currentEnd
  end_le : ∀ r ∈ w.later, w.currentEnd ≤ r.1
  proper : ∀ r ∈ w.later, r.1 ≤ r.2
  sorted : w.later.Pairwise fun r q => r.2 ≤ q.1

variable {w : RangesWalker P} {last pos x b : WithBot P} {fuel : Nat} {Q : WithBot P → WithBot P → Prop}

theorem Standing.start_le_of_later (standing : Standing w last) {r : P × P} (mem : r ∈ w.later) : w.currentStart ≤ r.1 :=
  standing.start_le.trans (standing.end_le r mem)

theorem Standing.start_le_of_ahead (standing : Standing w last) (ahead : w.Ahead x) : w.currentStart ≤ x := by
  obtain ⟨le, -⟩ | ⟨r, mem, le, -⟩ := ahead
  · exact le
  · exact (standing.start_le_of_later mem).trans le

/-- Of a range that begins before `x` the walker has not been asked for the end. -/
theorem Standing.has_inner (standing : Standing w last) (h : w.Has fun s e => s < x ∧ x < e) : w.Has (Inner last x) := by
  have reached (lt : w.currentStart < x) : last < w.currentEnd :=
    standing.reached.resolve_right fun top => not_top_lt (top ▸ lt)
  obtain ⟨lt, lt'⟩ | ⟨r, mem, lt, lt'⟩ := h
  · exact .inl ⟨lt, lt', reached lt⟩
  · have := reached ((standing.start_le_of_later mem).trans_lt lt)
    exact .inr ⟨r, mem, lt, lt', (this.trans_le (standing.end_le r mem)).trans (lt.trans lt')⟩

open WithBot (coe_ne_bot coe_le_coe)

/-- Entering the next range leaves the current one behind. -/
theorem Standing.enter (standing : Standing w last) : Standing (w.enter w.later).1 last ∧
    ∀ Q, ¬ Q w.currentStart w.currentEnd → ¬ Q ⊤ ⊤ → ((w.enter w.later).1.Has Q ↔ w.Has Q) := by
  obtain ⟨-, -, -, reached, start_le, end_le, proper, sorted⟩ := standing
  unfold Has
  cases rest : w.later with
  | nil =>
    exact ⟨⟨nofun, fun _ _ => rfl, nofun, .inr rfl, le_rfl, nofun, nofun, .nil⟩,
      fun Q behind top => by simp [RangesWalker.enter, later, behind, top]⟩
  | cons r rest' =>
    rw [rest] at end_le proper sorted
    rw [List.pairwise_cons] at sorted
    have first := proper r List.mem_cons_self
    have behind := end_le r List.mem_cons_self
    have later_eq : (w.enter (r :: rest')).1.later = rest' := if_neg (coe_ne_bot)
    refine ⟨⟨nofun, nofun, nofun, ?_, ?_, ?_, ?_, ?_⟩, fun Q out _ => ?_⟩
    · exact reached.imp (fun lt => lt.trans_le (behind.trans (coe_le_coe.2 first)))
        fun (top : w.currentStart = ⊤) => top_le_iff.1 (top ▸ start_le.trans behind)
    · exact coe_le_coe.2 first
    · exact fun q mem => coe_le_coe.2 (sorted.1 q mem)
    · exact fun q mem => proper q (List.mem_cons_of_mem _ mem)
    · exact sorted.2
    · rw [later_eq, or_iff_right out]
      simp [RangesWalker.enter]

/-- `advance_to_next_range` leaves the current range behind, and ends if that is all. -/
theorem Standing.next (standing : Standing w last) : Standing w.advanceToNextRange.1 last ∧
    (∀ Q, ¬ Q w.currentStart w.currentEnd → ¬ Q ⊤ ⊤ → (w.advanceToNextRange.1.Has Q ↔ w.Has Q)) ∧
    (w.advanceToNextRange.2 = false → w.advanceToNextRange.1.currentStart = ⊤ ∧
      ∀ Q, ¬ Q ⊤ ⊤ → ¬ w.advanceToNextRange.1.Has Q) := by
  unfold advanceToNextRange
  split
  next done =>
    have none : w.later = [] := by simp [later, done.1, List.isEmpty_iff.1 done.2]
    have top : w.currentStart = ⊤ := standing.ended done.1 (List.isEmpty_iff.1 done.2)
    have top' : w.currentEnd = ⊤ := top_le_iff.1 (top ▸ standing.start_le)
    refine ⟨{ standing with inside := nofun }, fun _ _ _ => .rfl, fun _ => ⟨top, fun Q out has => ?_⟩⟩
    obtain has | ⟨r, mem, -⟩ := has
    · have has : Q w.currentStart w.currentEnd := has
      rw [top, top'] at has
      exact out has
    · have mem : r ∈ w.later := mem
      rw [none] at mem
      cases mem
  · obtain ⟨entered, same⟩ := standing.enter
    refine ⟨entered, same, fun ended => ?_⟩
    cases rest : w.later with
    | nil => exact ⟨rfl, fun Q out => by simp [RangesWalker.enter, Has, later, out]⟩
    | cons r rest' =>
      rw [rest] at ended
      cases ended

/-- What comes later gets shorter, so that the fuel is enough. -/
theorem next_length (more : w.advanceToNextRange.2 = true) : w.advanceToNextRange.1.later.length < w.later.length := by
  unfold advanceToNextRange at more ⊢
  split at more
  · cases more
  next going =>
    rw [if_neg going]
    cases rest : w.later with
    | nil =>
      rw [rest] at more
      cases more
    | cons r rest' =>
      have later_eq : (w.enter (r :: rest')).1.later = rest' := if_neg (coe_ne_bot)
      exact Nat.lt_succ_self _

omit [BoundedOrder P] in
theorem later_length : w.later.length ≤ w.ahead.length := by
  unfold later
  split
  · exact le_rfl
  · rw [List.length_tail]
    omega

variable {ranges : List (P × P)} {withStaticRow : Bool}

theorem next_same : w.advanceToNextRange.1.ranges = w.ranges ∧ w.advanceToNextRange.1.withStaticRow = w.withStaticRow ∧
    w.advanceToNextRange.1.trim = w.trim := by
  unfold advanceToNextRange
  split
  · exact ⟨rfl, rfl, rfl⟩
  · cases w.later <;> exact ⟨rfl, rfl, rfl⟩

/-- The walker is one for these ranges. -/
def IsFor (w : RangesWalker P) (ranges : List (P × P)) (withStaticRow : Bool) : Prop :=
  w.ranges = ranges ∧ w.withStaticRow = withStaticRow

open RangesWalker (trimLoop advanceLoop)

/-- Where a range starts before `pos` makes no difference. -/
def Blind (pos : WithBot P) (Q : WithBot P → WithBot P → Prop) : Prop :=
  ∀ s e, (e ≤ pos → ¬ Q s e) ∧ (s < pos → pos < e → (Q s e ↔ Q pos e))

/-- A walker after it was trimmed to `pos` -/
structure Trimmed (pos last : WithBot P) (w w' : RangesWalker P) : Prop where
  isFor : w'.IsFor w.ranges w.withStaticRow
  standing : Standing w' last
  start : pos ≤ w'.currentStart
  has : ∀ Q, Blind pos Q → ¬ Q ⊤ ⊤ → (w'.Has Q ↔ w.Has Q)
  stored : w.Has (Inner last pos) → w'.trim = some pos
  unstored : ¬ w.Has (Inner last pos) → w'.trim = w.trim

omit [BoundedOrder P] in
theorem inner_mono {c : WithBot P} (le : c ≤ b) {s e : WithBot P} (h : Inner b x s e) : Inner c x s e :=
  ⟨h.1, h.2.1, le.trans_lt h.2.2⟩

theorem not_inner_top : ¬ Inner b x (⊤ : WithBot P) ⊤ := fun h => not_top_lt h.1

/-- Nothing that begins before the start of the walker is left. -/
theorem Standing.not_inner (standing : Standing w last) (le : x ≤ w.currentStart) : ¬ w.Has (Inner b x) := by
  rintro (⟨lt, -⟩ | ⟨r, mem, lt, -⟩)
  · exact lt.not_ge le
  · exact lt.not_ge (le.trans (standing.start_le_of_later mem))

theorem Standing.trimLoop (standing : Standing w last) (enough : w.later.length ≤ fuel) (pos : WithBot P) :
    Trimmed pos last w (trimLoop pos (fuel + 1) w) := by
  induction fuel using Nat.strongRecOn generalizing w with
  | ind fuel ih =>
    obtain ⟨next, same, ended⟩ := standing.next
    rw [trimLoop]
    split_ifs with begun inside more
    · have top' : w.currentStart ≠ ⊤ := fun top => not_top_lt (top ▸ begun)
      have has : w.Has (Inner last pos) := standing.has_inner (.inl ⟨begun, inside⟩)
      obtain ⟨static, top, -, reached, -, end_le, proper, sorted⟩ := standing
      -- the walker stands in a range, as nothing lies between the static row and the rows
      have start : w.currentStart ≠ ⊥ := fun eq => by
        rw [static eq] at inside
        rw [eq] at begun
        exact absurd (WithBot.lt_coe_bot.1 inside) begun.ne'
      have rows : pos ≠ ⊥ := (bot_le.trans_lt begun).ne'
      have later_eq : ({ w with
          trim := some pos, currentStart := pos, inCurrent := false } :
          RangesWalker P).later = w.later := by
        simp only [later, start, rows, if_false]
      refine ⟨⟨rfl, rfl⟩, ⟨fun eq => absurd eq rows, fun _ none => absurd (top start none) top', nofun,
        .inl (reached.resolve_right top'), inside.le, ?_, ?_, ?_⟩, le_rfl, fun Q blind _ => ?_, fun _ => rfl, absurd has⟩
      · rw [later_eq]
        exact end_le
      · rw [later_eq]
        exact proper
      · rw [later_eq]
        exact sorted
      · rw [Has, later_eq, Has]
        exact or_congr_left ((blind _ _).2 begun inside).symm
    · have shorter := next_length more
      obtain ⟨n, rfl⟩ : ∃ n, fuel = n + 1 := ⟨fuel - 1, by omega⟩
      have trimmed := ih n (by omega) next (by omega)
      have inner := same (Inner last pos) (fun h => inside h.2.1) not_inner_top
      exact ⟨⟨trimmed.isFor.1.trans next_same.1, trimmed.isFor.2.trans next_same.2.1⟩, trimmed.standing, trimmed.start,
        fun Q blind top => (trimmed.has Q blind top).trans (same Q ((blind _ _).1 (not_lt.1 inside)) top),
        fun has => trimmed.stored (inner.2 has), fun none => (trimmed.unstored (mt inner.1 none)).trans next_same.2.2⟩
    · obtain ⟨top, none⟩ := ended (Bool.eq_false_iff.2 more)
      have inner := same (Inner last pos) (fun h => inside h.2.1) not_inner_top
      exact ⟨⟨next_same.1, next_same.2.1⟩, next, top ▸ le_top,
        fun Q blind => same Q ((blind _ _).1 (not_lt.1 inside)),
        fun has => absurd (inner.2 has) (none _ not_inner_top), fun _ => next_same.2.2⟩
    · exact ⟨⟨rfl, rfl⟩, standing, not_lt.1 begun, fun _ _ _ => .rfl,
        fun has => absurd has (standing.not_inner (not_lt.1 begun)), fun _ => rfl⟩

/-- The loop of `advance_to` leaves the ranges that end before the position, and says whether that one is ahead. -/
theorem Standing.advanceLoop (standing : Standing w last) (monotone : last ≤ pos) (enough : w.later.length ≤ fuel) :
    (IsFor (advanceLoop pos (fuel + 1) w).1 w.ranges w.withStaticRow ∧ (advanceLoop pos (fuel + 1) w).1.trim = w.trim) ∧
      Standing (advanceLoop pos (fuel + 1) w).1 pos ∧
      (∀ Q, (∀ s e, e ≤ pos → ¬ Q s e) → ¬ Q ⊤ ⊤ → ((advanceLoop pos (fuel + 1) w).1.Has Q ↔ w.Has Q)) ∧
      ((advanceLoop pos (fuel + 1) w).2 = true ↔ w.Ahead pos) := by
  induction fuel using Nat.strongRecOn generalizing w with
  | ind fuel ih =>
    obtain ⟨next, same, ended⟩ := standing.next
    rw [advanceLoop]
    split_ifs with before inside more
    · refine ⟨⟨⟨rfl, rfl⟩, rfl⟩, { standing with inside := fun h => ?_, reached := .inl (before.2.trans_le standing.start_le) },
        fun _ _ _ => .rfl, iff_of_false nofun fun ahead => ?_⟩
      · exact absurd (before.1.symm.trans h) nofun
      · exact absurd (standing.start_le_of_ahead ahead) (not_le.2 before.2)
    · have begun : w.currentStart ≤ pos := by
        by_contra not_yet
        have inCurrent : w.inCurrent = true := Bool.eq_true_of_not_eq_false fun h => before ⟨h, not_le.1 not_yet⟩
        exact not_yet ((standing.inside inCurrent).trans monotone)
      exact ⟨⟨⟨rfl, rfl⟩, rfl⟩, { standing with inside := fun _ => begun, reached := .inl inside }, fun _ _ _ => .rfl,
        iff_of_true rfl (.inl ⟨begun, inside⟩)⟩
    · have shorter := next_length more
      obtain ⟨n, rfl⟩ : ∃ n, fuel = n + 1 := ⟨fuel - 1, by omega⟩
      obtain ⟨⟨isFor, trim⟩, advanced, has, answer⟩ := ih n (by omega) next (by omega)
      exact ⟨⟨⟨isFor.1.trans next_same.1, isFor.2.trans next_same.2.1⟩, trim.trans next_same.2.2⟩, advanced,
        fun Q out top => (has Q out top).trans (same Q (out _ _ (not_lt.1 inside)) top),
        answer.trans (same _ (fun h => inside h.2) fun h => h.2.not_ge h.1)⟩
    · obtain ⟨top, none⟩ := ended (Bool.eq_false_iff.2 more)
      refine ⟨⟨⟨next_same.1, next_same.2.1⟩, next_same.2.2⟩, { next with
        inside := fun h => (next.inside h).trans monotone, reached := .inr top },
        fun Q out => same Q (out _ _ (not_lt.1 inside)), iff_of_false nofun fun ahead => ?_⟩
      exact none _ (fun h => h.2.not_ge h.1) ((same _ (fun h => inside h.2) fun h => h.2.not_ge h.1).2 ahead)

/-- The ranges are proper ones, sorted and disjoint. -/
def SortedRanges (ranges : List (P × P)) : Prop := (∀ r ∈ ranges, r.1 ≤ r.2) ∧ ranges.Pairwise fun r q => r.2 ≤ q.1

/-- The position is inside of a range that ends behind `b`, and not at its start. -/
def Inside (ranges : List (P × P)) (b x : WithBot P) : Prop := ∃ r ∈ ranges, (r.1 : WithBot P) < x ∧ x < r.2 ∧ b < r.2

instance (ranges : List (P × P)) (b x : WithBot P) : Decidable (Inside ranges b x) :=
  inferInstanceAs (Decidable (∃ r ∈ ranges, _))

omit [BoundedOrder P] in
theorem Inside.mono {c : WithBot P} (le : c ≤ b) (h : Inside ranges b x) : Inside ranges c x := by
  obtain ⟨r, mem, inner⟩ := h
  exact ⟨r, mem, inner_mono le inner⟩

/-- The walker has ahead exactly what is contained and was not trimmed, and remembers the position `kept`. -/
structure Walks (ranges : List (P × P)) (withStaticRow : Bool) (w : RangesWalker P) (kept trimmed last : WithBot P) :
    Prop where
  isFor : w.IsFor ranges withStaticRow
  standing : Standing w last
  ahead_iff : ∀ x, last ≤ x → (w.Ahead x ↔ Contained ranges withStaticRow x ∧ trimmed ≤ x)
  trim : w.trim = none ∧ kept = ⊥ ∨ w.trim = some kept ∧ Inside ranges ⊥ kept
  kept_le : kept ≤ trimmed
  inner_iff : ∀ b x, last ≤ b → trimmed ≤ x → kept < x → (w.Has (Inner b x) ↔ Inside ranges b x)

variable {kept trimmed : WithBot P}

theorem Walks.make (sorted : SortedRanges ranges) : Walks ranges withStaticRow (make ranges withStaticRow) ⊥ ⊥ ⊥ := by
  obtain ⟨proper, disjoint⟩ := sorted
  unfold RangesWalker.make
  cases withStaticRow with
  | true =>
    refine ⟨⟨rfl, rfl⟩, ⟨fun _ => rfl, absurd rfl, fun _ => le_rfl, .inl (WithBot.bot_lt_coe _), bot_le, ?_, proper, disjoint⟩,
      fun x _ => ?_, .inl ⟨rfl, rfl⟩, le_rfl, fun b x _ _ rows => ?_⟩
    · exact fun r _ => coe_le_coe.2 bot_le
    · simp [Ahead, Has, later, Contained]
    · exact or_iff_right fun inner => rows.ne' (WithBot.lt_coe_bot.1 inner.2.1)
  | false =>
    cases ranges with
    | nil =>
      refine ⟨⟨rfl, rfl⟩, ⟨nofun, fun _ _ => rfl, nofun, .inr rfl, le_rfl, nofun, nofun, .nil⟩, fun x _ => ?_, .inl ⟨rfl, rfl⟩,
        le_rfl, fun b x _ _ _ => ?_⟩
      · simp [Ahead, Has, later, Contained]
      · simp [Has, later, Inside, not_inner_top]
    | cons r rest =>
      have first := List.pairwise_cons.1 disjoint
      refine ⟨⟨rfl, rfl⟩, ⟨nofun, nofun, nofun, .inl (WithBot.bot_lt_coe _), ?_, ?_, ?_, first.2⟩, fun x _ => ?_,
        .inl ⟨rfl, rfl⟩, le_rfl, fun b x _ _ _ => ?_⟩
      · exact coe_le_coe.2 (proper r List.mem_cons_self)
      · exact fun q mem => coe_le_coe.2 (first.1 q mem)
      · exact fun q mem => proper q (List.mem_cons_of_mem _ mem)
      · simp [Ahead, Has, later, Contained]
      · simp [Has, later, Inside, Inner]

/-- A position is remembered if it is inside of a range whose end the walker was not asked for. -/
theorem Walks.trimFront (walks : Walks ranges withStaticRow w kept trimmed last) (monotone : trimmed ≤ pos) :
    Walks ranges withStaticRow (w.trimFront pos) (if Inside ranges last pos then pos else kept) pos last := by
  have h : Trimmed pos last w (w.trimFront pos) := walks.standing.trimLoop later_length pos
  have inner : kept < pos → (w.Has (Inner last pos) ↔ Inside ranges last pos) := walks.inner_iff last pos le_rfl monotone
  have again : ¬ kept < pos → kept = pos := fun old => le_antisymm (walks.kept_le.trans monotone) (not_lt.1 old)
  refine ⟨⟨h.isFor.1.trans walks.isFor.1, h.isFor.2.trans walks.isFor.2⟩, h.standing, fun x le => ?_, ?_, ?_,
    fun b x le le' lt => ?_⟩
  · by_cases ahead : pos ≤ x
    · refine (h.has _ (fun s e => ⟨?_, ?_⟩) fun top => top.2.not_ge top.1).trans ?_
      · exact fun before => fun inside => inside.2.not_ge (before.trans ahead)
      · exact fun before _ => and_congr_left fun _ => iff_of_true (before.le.trans ahead) ahead
      · exact (walks.ahead_iff x le).trans (and_congr_right fun _ => iff_of_true (monotone.trans ahead) ahead)
    · exact iff_of_false (fun has => ahead (h.start.trans (h.standing.start_le_of_ahead has))) fun trim => ahead trim.2
  · by_cases new : kept < pos
    · split
      next inside =>
        exact .inr ⟨h.stored ((inner new).2 inside), inside.mono bot_le⟩
      next outside =>
        rw [h.unstored (mt (inner new).1 outside)]
        exact walks.trim
    · obtain rfl := again new
      rw [ite_self]
      by_cases has : w.Has (Inner last kept)
      · rw [h.stored has]
        rcases walks.trim with ⟨-, rfl⟩ | ⟨-, inside⟩
        · exact absurd has (walks.standing.not_inner bot_le)
        · exact .inr ⟨rfl, inside⟩
      · rw [h.unstored has]
        exact walks.trim
  · split
    · exact le_rfl
    · exact walks.kept_le.trans monotone
  · rcases le'.lt_or_eq with behind | rfl
    · refine (h.has _ (fun s e => ⟨?_, ?_⟩) not_inner_top).trans
        (walks.inner_iff b x le (monotone.trans le') ((walks.kept_le.trans monotone).trans_lt behind))
      · exact fun before => fun inner => inner.2.1.not_ge (before.trans le')
      · exact fun before _ => and_congr_left fun _ => iff_of_true (before.trans behind) behind
    · refine iff_of_false (h.standing.not_inner h.start) fun inside => ?_
      rw [if_pos (inside.mono le)] at lt
      exact lt.false

theorem Walks.advanceTo (walks : Walks ranges withStaticRow w kept trimmed last) (monotone : last ≤ pos) :
    Walks ranges withStaticRow (w.advanceTo pos).1 kept trimmed pos ∧
      ((w.advanceTo pos).2 = true ↔ Contained ranges withStaticRow pos ∧ trimmed ≤ pos) := by
  obtain ⟨⟨isFor, trim⟩, standing, has, answer⟩ := walks.standing.advanceLoop monotone later_length
  refine ⟨⟨⟨isFor.1.trans walks.isFor.1, isFor.2.trans walks.isFor.2⟩, standing, fun x le => ?_, trim ▸ walks.trim,
    walks.kept_le, fun b x le => ?_⟩, answer.trans (walks.ahead_iff pos monotone)⟩
  · exact (has _ (fun s e before inside => inside.2.not_ge (before.trans le)) fun top => top.2.not_ge top.1).trans
      (walks.ahead_iff x (monotone.trans le))
  · intro le' lt
    exact (has _ (fun s e before inner => inner.2.2.not_ge (before.trans le)) not_inner_top).trans
      (walks.inner_iff b x (monotone.trans le) le' lt)

theorem Walks.reset (sorted : SortedRanges ranges) (walks : Walks ranges withStaticRow w kept trimmed last)
    (remembered : ∀ x, Contained ranges withStaticRow x → (kept ≤ x ↔ trimmed ≤ x)) :
    Walks ranges withStaticRow w.reset kept trimmed ⊥ := by
  -- whether something is remembered or not, the new walker is trimmed to that
  have again : Walks ranges withStaticRow w.reset kept kept ⊥ := by
    unfold RangesWalker.reset
    rw [walks.isFor.1, walks.isFor.2]
    rcases walks.trim with ⟨none, rfl⟩ | ⟨some, inside⟩
    · rw [none]
      exact Walks.make sorted
    · rw [some]
      have trimmed : Walks ranges withStaticRow (RangesWalker.trimFront _ kept) _ kept ⊥ := (Walks.make sorted).trimFront bot_le
      rwa [if_pos inside] at trimmed
  exact ⟨again.isFor, again.standing, fun x le => (again.ahead_iff x le).trans (and_congr_right (remembered x)), again.trim,
    walks.kept_le, fun b x le le' lt => again.inner_iff b x le (walks.kept_le.trans le') lt⟩

/-- A call of the walker -/
inductive Call (P : Type) where
  | trimFront (pos : WithBot P)
  | advanceTo (pos : WithBot P)
  | reset

/-- What `advance_to` returns in a run. -/
def answers (w : RangesWalker P) : List (Call P) → List Bool
  | [] => []
  | .trimFront pos :: calls => answers (w.trimFront pos) calls
  | .advanceTo pos :: calls => (w.advanceTo pos).2 :: answers (w.advanceTo pos).1 calls
  | .reset :: calls => answers w.reset calls

/-- The positions to trim to are in order, and so are those to advance to between resets. -/
def InOrder : (trimmed last : WithBot P) → List (Call P) → Prop
  | _, _, [] => True
  | trimmed, last, .trimFront pos :: calls => trimmed ≤ pos ∧ InOrder pos last calls
  | trimmed, last, .advanceTo pos :: calls => last ≤ pos ∧ InOrder trimmed pos calls
  | trimmed, _, .reset :: calls => InOrder trimmed ⊥ calls

/-- Whether the positions are contained and were not trimmed. -/
def membership (ranges : List (P × P)) (withStaticRow : Bool) : (trimmed : WithBot P) → List (Call P) → List Bool
  | _, [] => []
  | _, .trimFront pos :: calls => membership ranges withStaticRow pos calls
  | trimmed, .advanceTo pos :: calls =>
    decide (Contained ranges withStaticRow pos ∧ trimmed ≤ pos) :: membership ranges withStaticRow trimmed calls
  | trimmed, .reset :: calls => membership ranges withStaticRow trimmed calls

/-- At every reset, the last position that was remembered excludes the same positions as the last one of all. A position
to trim to is remembered if it is inside of a range, not at its start, and the walker was not yet asked for the end of
that range or for a position behind it. -/
def Remembers (ranges : List (P × P)) (withStaticRow : Bool) : (kept trimmed last : WithBot P) → List (Call P) → Prop
  | _, _, _, [] => True
  | kept, _, last, .trimFront pos :: calls =>
    Remembers ranges withStaticRow (if Inside ranges last pos then pos else kept) pos last calls
  | kept, trimmed, _, .advanceTo pos :: calls => Remembers ranges withStaticRow kept trimmed pos calls
  | kept, trimmed, _, .reset :: calls => (∀ x, Contained ranges withStaticRow x → (kept ≤ x ↔ trimmed ≤ x)) ∧
    Remembers ranges withStaticRow kept trimmed ⊥ calls

theorem Walks.answers {calls : List (Call P)} (sorted : SortedRanges ranges)
    (walks : Walks ranges withStaticRow w kept trimmed last) (inOrder : InOrder trimmed last calls)
    (remembers : Remembers ranges withStaticRow kept trimmed last calls) :
    w.answers calls = membership ranges withStaticRow trimmed calls := by
  induction calls generalizing w kept trimmed last with
  | nil => rfl
  | cons call calls ih =>
    cases call with
    | trimFront pos => exact ih (walks.trimFront inOrder.1) inOrder.2 remembers
    | advanceTo pos =>
      obtain ⟨walks', answer⟩ := walks.advanceTo inOrder.1
      have same : (w.advanceTo pos).2 = decide (Contained ranges withStaticRow pos ∧ trimmed ≤ pos) := by
        rw [Bool.eq_iff_iff, answer, decide_eq_true_iff]
      rw [RangesWalker.answers, membership, ih walks' inOrder.2 remembers, same]
    | reset => exact ih (walks.reset sorted remembers.1) inOrder remembers.2

/-- As long as at every reset the position that is remembered trims the ranges to the same positions, the walker says
exactly which positions are in the ranges and were not trimmed. -/
theorem ranges_walker_membership (ranges : List (P × P)) (sorted : SortedRanges ranges) (withStaticRow : Bool)
    (calls : List (Call P)) (inOrder : InOrder ⊥ ⊥ calls) (remembers : Remembers ranges withStaticRow ⊥ ⊥ ⊥ calls) :
    (make ranges withStaticRow).answers calls = membership ranges withStaticRow ⊥ calls :=
  (Walks.make sorted).answers sorted inOrder remembers

/-- A position in a range is remembered. -/
theorem ranges_walker_membership_inside : (make ([(1, 5), (10, 15)] : List (Fin 20 × Fin 20)) true).answers
    [.trimFront (3 : Fin 20), .advanceTo ⊥, .reset, .advanceTo (2 : Fin 20), .advanceTo (4 : Fin 20)] = [false, false, true] :=
  ranges_walker_membership [((1 : Fin 20), 5), (10, 15)] ⟨by decide +kernel, by decide +kernel⟩ true
    [.trimFront (3 : Fin 20), .advanceTo ⊥, .reset, .advanceTo (2 : Fin 20), .advanceTo (4 : Fin 20)]
    ⟨bot_le, bot_le, bot_le, coe_le_coe.2 (by decide), trivial⟩ ⟨fun _ _ => .rfl, trivial⟩

/-- A position between the ranges is forgotten, and so is one before the range that the walker stands in. -/
theorem ranges_walker_forgets : let w := make ([(1, 5), (10, 15)] : List (Fin 20 × Fin 20)) false
    w.answers [.trimFront (7 : Fin 20), .reset, .advanceTo (2 : Fin 20)] = [true] ∧
      w.answers [.advanceTo (11 : Fin 20), .trimFront (3 : Fin 20), .reset, .advanceTo (2 : Fin 20)] = [true, true] ∧
      membership w.ranges false ⊥ [.trimFront (7 : Fin 20), .reset, .advanceTo (2 : Fin 20)] = [false] ∧
      membership w.ranges false ⊥ [.advanceTo (11 : Fin 20), .trimFront (3 : Fin 20), .reset, .advanceTo (2 : Fin 20)] =
        [true, false] := by
  decide +kernel

end RangesWalker

end ScyllaMoon.Reader
