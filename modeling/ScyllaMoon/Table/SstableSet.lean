import ScyllaMoon.Lib.IntervalMap

/-!
# Sets of sstables

The set of the sstables of a table depends on the compaction strategy. The default one hands out all
sstables for every token. The one for leveled compaction has an interval map of the sstables above level 0;
`partitioned_sstable_set::incremental_selector` walks it forward, for tokens that do not decrease, and
`sstable_set::incremental_selector` remembers the last answer with the range of tokens it is good for.
-/

namespace ScyllaMoon.Table

open Lib List

variable {T Ptr : Type} [LinearOrder T]

/-- The bounds of intervals of ring positions: before all keys of a token or after them. -/
abbrev RingBound (T : Type) := T ×ₗ Bool

/-- `ring_position::starting_at`, as the closed lower or the open upper end of an interval -/
def startingAt (t : T) : RingBound T := toLex (t, false)

/-- `ring_position::ending_at`, as the closed upper or the open lower end of an interval -/
def endingAt (t : T) : RingBound T := toLex (t, true)

theorem startingAt_le_iff {t u : T} : startingAt t ≤ startingAt u ↔ t ≤ u := by
  rw [startingAt, startingAt, Prod.Lex.toLex_le_toLex, le_iff_lt_or_eq (a := t)]
  simp

theorem startingAt_lt_endingAt_iff {t u : T} : startingAt t < endingAt u ↔ t ≤ u := by
  simp [startingAt, endingAt, Prod.Lex.toLex_lt_toLex, le_iff_lt_or_eq]

/-- There is no bound between the two of a token. -/
theorem le_startingAt {b : RingBound T} {t : T} (h : ¬endingAt t ≤ b) : b ≤ startingAt t := by
  obtain ⟨u, c⟩ := b
  rcases Prod.Lex.toLex_lt_toLex.1 (not_le.1 h) with lt | ⟨rfl, lt⟩
  · exact Prod.Lex.toLex_le_toLex.2 (.inl lt)
  · cases c with
    | false => exact le_rfl
    | true => cases lt

/-- What sets of sstables ask of an sstable. -/
structure Extent (T : Type) [LinearOrder T] where
  /-- `get_sstable_level()` -/
  level : Nat
  /-- `get_first_decorated_key().token()` -/
  first : T
  /-- `get_last_decorated_key().token()` -/
  last : T
  le : first ≤ last

/-- The token is one that the sstable may have keys of. -/
def Extent.Covers (e : Extent T) (t : T) : Prop := e.first ≤ t ∧ t ≤ e.last

/-- `sstable_set_impl` -/
inductive SstableSetImpl (T Ptr : Type) where
  /-- `bag_sstable_set` -/
  | bag (sstables : List Ptr)
  /-- `partitioned_sstable_set` -/
  | partitioned (unleveled : List Ptr) (leveled : IntervalMap (RingBound T) Ptr)

namespace SstableSetImpl

/-- `insert` -/
def insert (sst : Ptr → Extent T) (p : Ptr) : SstableSetImpl T Ptr → SstableSetImpl T Ptr
  | bag l => bag (l ++ [p])
  | partitioned unleveled leveled =>
    if (sst p).level = 0 then partitioned (unleveled ++ [p]) leveled
    else partitioned unleveled (leveled.add p (startingAt (sst p).first) (endingAt (sst p).last))

/-- `select`, of the range that a key of the token makes. -/
def select : SstableSetImpl T Ptr → T → List Ptr
  | bag l, _ => l
  | partitioned unleveled leveled, t => unleveled ++ leveled.lookup (startingAt t)

def WellFormed : SstableSetImpl T Ptr → Prop
  | bag _ => True
  | partitioned _ leveled => leveled.WellFormed

variable {s : SstableSetImpl T Ptr}

theorem WellFormed.insert (h : s.WellFormed) (sst : Ptr → Extent T) (p : Ptr) :
    (s.insert sst p).WellFormed := by
  cases s with
  | bag l => trivial
  | partitioned u l =>
    simp only [SstableSetImpl.insert]
    split
    · exact h
    · exact IntervalMap.WellFormed.add h (startingAt_lt_endingAt_iff.2 (sst p).le).le p

/-- The tokens that an sstable of the set is selected for. -/
def Selects (s : SstableSetImpl T Ptr) (e : Extent T) (t : T) : Prop :=
  match s with
  | bag _ => True
  | partitioned _ _ => e.level = 0 ∨ e.Covers t

theorem mem_select_insert (h : s.WellFormed) {sst : Ptr → Extent T} {p q : Ptr} {t : T} :
    q ∈ (s.insert sst p).select t ↔ q = p ∧ s.Selects (sst p) t ∨ q ∈ s.select t := by
  cases s with
  | bag l => simp [SstableSetImpl.insert, select, Selects, or_comm]
  | partitioned u l =>
    unfold SstableSetImpl.insert Selects
    by_cases level : (sst p).level = 0
    · simp only [if_pos level]
      simp only [select, mem_append, mem_singleton, level, true_or, and_true]
      tauto
    · simp only [if_neg level]
      simp only [select, mem_append, level, false_or, startingAt_le_iff, startingAt_lt_endingAt_iff, Extent.Covers,
        IntervalMap.mem_lookup_add h (startingAt_lt_endingAt_iff.2 (sst p).le).le]
      tauto

end SstableSetImpl

/-- `sstable_set`: its implementation finds the sstables of the list by token. -/
structure SstableSet (sst : Ptr → Extent T) where
  impl : SstableSetImpl T Ptr
  all : List Ptr
  wellFormed : impl.WellFormed
  sound : ∀ {t p}, p ∈ impl.select t → p ∈ all
  complete : ∀ {t p}, p ∈ all → (sst p).Covers t → p ∈ impl.select t

namespace SstableSet

variable {sst : Ptr → Extent T}

/-- `compaction_strategy_impl::make_sstable_set`, and that of `leveled_compaction_strategy` -/
def make (leveled : Bool) : SstableSet sst where
  impl := if leveled then .partitioned [] [] else .bag []
  all := []
  wellFormed := by
    cases leveled with
    | false => trivial
    | true => exact IntervalMap.wellFormed_nil
  sound h := by cases leveled <;> cases h
  complete h := nomatch h

/-- `insert` -/
def insert (s : SstableSet sst) (p : Ptr) : SstableSet sst where
  impl := s.impl.insert sst p
  all := s.all ++ [p]
  wellFormed := s.wellFormed.insert sst p
  sound h := by
    rcases (SstableSetImpl.mem_select_insert s.wellFormed).1 h with ⟨rfl, -⟩ | h
    · exact mem_append_right _ (mem_singleton.2 rfl)
    · exact mem_append_left _ (s.sound h)
  complete h covers := by
    refine (SstableSetImpl.mem_select_insert s.wellFormed).2 ?_
    rcases mem_append.1 h with h | h
    · exact .inr (s.complete h covers)
    · obtain rfl := mem_singleton.1 h
      refine .inl ⟨rfl, ?_⟩
      unfold SstableSetImpl.Selects
      split
      · trivial
      · exact .inr covers

/-- `select`, of the range that a key of the token makes. -/
def select (s : SstableSet sst) (t : T) : List Ptr := s.impl.select t

end SstableSet

/-- `token_range`: each bound has a token and says whether the token belongs to the range. -/
structure TokenRange (T : Type) where
  start : Option (T × Bool) := none
  stop : Option (T × Bool) := none

/-- `contains` -/
def TokenRange.contains (r : TokenRange T) (t : T) : Bool :=
  (r.start.all fun (u, inclusive) => if inclusive then decide (u ≤ t) else decide (u < t)) &&
    r.stop.all fun (u, inclusive) => if inclusive then decide (t ≤ u) else decide (t < u)

/-- `sstable_set::incremental_selector`, with the position of the implementation's in the interval map:
the segments from `_it` on. -/
structure IncrementalSelector (T Ptr : Type) where
  it : IntervalMap (RingBound T) Ptr
  current : Option (TokenRange T × List Ptr) := none

namespace IncrementalSelector

/-- `make_incremental_selector` -/
def make : SstableSetImpl T Ptr → IncrementalSelector T Ptr
  | .bag _ => { it := [] }
  | .partitioned _ leveled => { it := leveled }

/-- `to_token_range` -/
def toTokenRange (s : Segment (RingBound T) Ptr) : TokenRange T where
  start := some ((ofLex s.lower).1, !(ofLex s.lower).2)
  stop := some ((ofLex s.upper).1, (ofLex s.upper).2)

/-- `partitioned_sstable_set::incremental_selector::select`: the range that the answer is good for, the
answer and the new position. -/
def advance (unleveled : List Ptr) (t : T) :
    IntervalMap (RingBound T) Ptr → (TokenRange T × List Ptr) × IntervalMap (RingBound T) Ptr
  | [] => (({}, unleveled), [])
  | s :: it =>
    if s.lower ≤ startingAt t ∧ endingAt t ≤ s.upper then ((toTokenRange s, unleveled ++ s.values), s :: it)
    -- the current segment is not skipped if the token lies before it
    else if startingAt t < s.lower then
      (({ start := some (t, true), stop := some ((ofLex s.lower).1, false) }, unleveled), s :: it)
    else advance unleveled t it

/-- `select` -/
def select (impl : SstableSetImpl T Ptr) (sel : IncrementalSelector T Ptr) (t : T) : List Ptr × IncrementalSelector T Ptr :=
  match sel.current with
  | some (range, sstables) => if range.contains t then (sstables, sel) else renew
  | none => renew
where
  /-- Asks the implementation. -/
  renew : List Ptr × IncrementalSelector T Ptr :=
    match impl with
    | .bag l => (l, { sel with current := some ({}, l) })
    | .partitioned unleveled _ =>
      let (answer, it) := advance unleveled t sel.it
      (answer.2, { it, current := some answer })

/-- The selector is ready for tokens from `t` on: the segments that it passed end before it, and what it
remembers is right. -/
structure Ready (impl : SstableSetImpl T Ptr) (sel : IncrementalSelector T Ptr) (t : T) : Prop where
  it : ∀ unleveled leveled, impl = .partitioned unleveled leveled →
    ∃ passed, leveled = passed ++ sel.it ∧ ∀ s ∈ passed, s.upper ≤ startingAt t
  current : ∀ range sstables, sel.current = some (range, sstables) →
    ∀ u, t ≤ u → range.contains u = true → sstables = impl.select u

theorem ready_make (impl : SstableSetImpl T Ptr) (t : T) : Ready impl (make impl) t where
  it unleveled leveled h := by
    subst h
    exact ⟨[], rfl, nofun⟩
  current range sstables h := by cases impl <;> cases h

variable {sel : IncrementalSelector T Ptr} {impl : SstableSetImpl T Ptr}

theorem Ready.mono {t u : T} (h : Ready impl sel t) (le : t ≤ u) :
    Ready impl sel u where
  it unleveled leveled eq := by
    obtain ⟨passed, split, before⟩ := h.it unleveled leveled eq
    exact ⟨passed, split, fun s hs => (before s hs).trans (startingAt_le_iff.2 le)⟩
  current range sstables remembered v hv := h.current range sstables remembered v (le.trans hv)

/-- A segment is good for the tokens of its range. -/
theorem contains_toTokenRange {s : Segment (RingBound T) Ptr} {t : T} (h : (toTokenRange s).contains t = true) :
    s.Contains (startingAt t) := by
  obtain ⟨lower, upper, values⟩ := s
  obtain ⟨⟨a, c⟩, rfl⟩ := toLex.surjective lower
  obtain ⟨⟨b, d⟩, rfl⟩ := toLex.surjective upper
  simp only [toTokenRange, TokenRange.contains, Option.all_some, Bool.and_eq_true, ofLex_toLex] at h
  constructor
  · refine Prod.Lex.toLex_le_toLex.2 ?_
    cases c
    · exact (le_iff_lt_or_eq.1 (by simpa using h.1)).imp_right fun eq => ⟨eq, le_rfl⟩
    · exact .inl (by simpa using h.1)
  · refine Prod.Lex.toLex_lt_toLex.2 ?_
    cases d
    · exact .inl (by simpa using h.2)
    · exact (le_iff_lt_or_eq.1 (by simpa using h.2)).imp_right fun eq => ⟨eq, rfl⟩

section Advance

variable {unleveled : List Ptr} {it : IntervalMap (RingBound T) Ptr} {t : T}

/-- The selector advances past the segments that end before the token. What it answers is right, as it is
for all later tokens of the range that comes with it. -/
theorem advance_spec (h : it.WellFormed) (unleveled : List Ptr) (t : T) :
    ∃ passed, it = passed ++ (advance unleveled t it).2 ∧ (∀ s ∈ passed, s.upper ≤ startingAt t) ∧
      (advance unleveled t it).1.2 = unleveled ++ it.lookup (startingAt t) ∧
      ∀ u, t ≤ u → (advance unleveled t it).1.1.contains u = true →
        (advance unleveled t it).1.2 = unleveled ++ it.lookup (startingAt u) := by
  induction it with
  | nil => exact ⟨[], rfl, nofun, by simp [advance], fun u _ _ => by simp [advance]⟩
  | cons s it ih =>
    obtain ⟨proper, first, h⟩ := IntervalMap.wellFormed_cons.1 h
    unfold advance
    split
    next inside =>
      have contains : s.Contains (startingAt t) :=
        ⟨inside.1, (startingAt_lt_endingAt_iff.2 le_rfl).trans_le inside.2⟩
      refine ⟨[], rfl, nofun, ?_, fun u _ hu => ?_⟩
      · rw [IntervalMap.lookup_cons, if_pos contains]
      · rw [IntervalMap.lookup_cons, if_pos (contains_toTokenRange hu)]
    next outside =>
      split
      next lt =>
        have none : ∀ u, startingAt u < s.lower → IntervalMap.lookup (s :: it) (startingAt u) = [] := fun u lt =>
          IntervalMap.lookup_of_lt (forall_mem_cons.2 ⟨lt, fun r hr => lt.trans (proper.trans_le (first r hr))⟩)
        refine ⟨[], rfl, nofun, ?_, fun u _ hu => ?_⟩
        · rw [none t lt, append_nil]
        · have before : u < (ofLex s.lower).1 := by simpa [TokenRange.contains] using (Bool.and_eq_true_iff.1 hu).2
          have lt : startingAt u < s.lower := by
            obtain ⟨b, hb⟩ := toLex.surjective s.lower
            exact Prod.Lex.toLex_lt_toLex.2 (.inl before)
          rw [none u lt, append_nil]
      next ge =>
        have ends : s.upper ≤ startingAt t := le_startingAt fun le => outside ⟨not_lt.1 ge, le⟩
        have skip : ∀ u, t ≤ u → IntervalMap.lookup (s :: it) (startingAt u) = IntervalMap.lookup it (startingAt u) :=
          fun u le => IntervalMap.lookup_append_of_le (forall_mem_singleton.2 (ends.trans (startingAt_le_iff.2 le)))
        obtain ⟨passed, split, before, answer, good⟩ := ih h
        refine ⟨s :: passed, congrArg (s :: ·) split, forall_mem_cons.2 ⟨ends, before⟩, ?_, fun u le hu => ?_⟩
        · rw [skip t le_rfl, answer]
        · rw [skip u le, good u le hu]

/-- For a token that is not before the last one, the selector selects what the set does. -/
theorem Ready.select (wf : impl.WellFormed)
    (h : Ready impl sel t) : (select impl sel t).1 = impl.select t ∧ Ready impl (select impl sel t).2 t := by
  have renewed : (select.renew impl sel t).1 = impl.select t ∧ Ready impl (select.renew impl sel t).2 t := by
    cases impl with
    | bag l =>
      refine ⟨rfl, ⟨fun _ _ no => (nomatch no), fun range sstables remembered u _ _ => ?_⟩⟩
      cases remembered
      rfl
    | partitioned unleveled leveled =>
      obtain ⟨passed, split, before⟩ := h.it unleveled leveled rfl
      have rest : sel.it.WellFormed := by
        have wf : IntervalMap.WellFormed (passed ++ sel.it) := split ▸ wf
        exact ⟨fun s hs => wf.proper s (mem_append_right _ hs), (pairwise_append.1 wf.disjoint).2.1⟩
      have lookup : ∀ u, t ≤ u → leveled.lookup (startingAt u) = sel.it.lookup (startingAt u) := fun u le => by
        rw [split]
        exact IntervalMap.lookup_append_of_le fun s hs => (before s hs).trans (startingAt_le_iff.2 le)
      obtain ⟨more, split', before', answer, good⟩ := advance_spec rest unleveled t
      refine ⟨?_, ⟨fun _ _ eq => ?_, fun range sstables remembered u le hu => ?_⟩⟩
      · exact answer.trans (congrArg (unleveled ++ ·) (lookup t le_rfl).symm)
      · cases eq
        refine ⟨passed ++ more, ?_, forall_mem_append.2 ⟨before, before'⟩⟩
        rw [append_assoc]
        exact split.trans (congrArg (passed ++ ·) split')
      · obtain ⟨rfl, rfl⟩ := Prod.mk.injEq .. ▸ Option.some.inj remembered
        exact (good u le hu).trans (congrArg (unleveled ++ ·) (lookup u le).symm)
  unfold IncrementalSelector.select
  split
  next range sstables remembered =>
    split
    next inside =>
      exact ⟨h.current range sstables remembered t le_rfl inside, h⟩
    · exact renewed
  · exact renewed

end Advance

/-- The answers to some tokens, one after the other. -/
def selectAll (impl : SstableSetImpl T Ptr) : IncrementalSelector T Ptr → List T → List (List Ptr)
  | _, [] => []
  | sel, t :: ts => (select impl sel t).1 :: selectAll impl (select impl sel t).2 ts

/-- For tokens that do not decrease, a selector answers what the set selects for each. -/
theorem incremental_selection_exact {sst : Ptr → Extent T} (s : SstableSet sst) {ts : List T} (sorted : ts.Pairwise (· ≤ ·)) :
    selectAll s.impl (make s.impl) ts = ts.map s.select := by
  suffices h : ∀ sel, (∀ t ∈ ts, Ready s.impl sel t) → selectAll s.impl sel ts = ts.map s.select from
    h _ fun t _ => ready_make s.impl t
  induction ts with
  | nil => exact fun _ _ => rfl
  | cons t ts ih =>
    intro sel h
    obtain ⟨first, sorted⟩ := pairwise_cons.1 sorted
    obtain ⟨answer, ready⟩ := (h t mem_cons_self).select s.wellFormed
    exact congrArg₂ cons answer (ih sorted _ fun u hu => ready.mono (first u hu))

theorem incremental_selection_leveled :
    let s : SstableSet fun p : Nat => ⟨1, p, p + 2, p.le_add_right 2⟩ := ((SstableSet.make true).insert 1).insert 4
    selectAll s.impl (make s.impl) [0, 2, 3, 5] = [[], [1], [1], [4]] :=
  (incremental_selection_exact _ (by decide)).trans rfl

end IncrementalSelector

end ScyllaMoon.Table
