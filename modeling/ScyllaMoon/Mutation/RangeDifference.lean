import ScyllaMoon.Mutation.Reconcile

/-!
# The difference of two range tombstone lists

`range_tombstone_list::difference` sweeps over two lists at once and cuts what is deleted by the first
one into pieces: those that the second one does not delete, and those where its tombstone is older. It
is exact: a position has a tombstone in the difference just where the first list has one that is
greater than what the second has there.
-/

namespace ScyllaMoon.Mutation

namespace RangeTombstoneList

variable {Pos : Type} [LinearOrder Pos]

/-- The rounds of the sweep until `this_rt` is advanced, with `start` and `stop` for `cur_start` and
`cur_end`: the pieces that are applied to the difference, and what is left of `other`. -/
def differenceOne (start stop : Pos) (tomb : Tombstone) :
    RangeTombstoneList Pos → RangeTombstoneList Pos × RangeTombstoneList Pos
  | [] => ([{ start, stop, tomb }], [])
  | other :: rest =>
    if stop ≤ other.start then ([{ start, stop, tomb }], other :: rest)
    else if other.stop ≤ start then differenceOne start stop tomb rest
    else
      let before := if start < other.start then [{ start, stop := other.start, tomb }] else []
      let start := if start < other.start then other.start else start
      if stop < other.stop then
        (before ++ if tomb > other.tomb then [{ start, stop, tomb }] else [], other :: rest)
      else
        let covered := before ++ if tomb > other.tomb then [{ start, stop := other.stop, tomb }] else []
        if stop ≤ other.stop then (covered, rest)
        else
          let more := differenceOne other.stop stop tomb rest
          (covered ++ more.1, more.2)

/-- The ranges that `range_tombstone_list::difference` applies. -/
def differencePieces : (l other : RangeTombstoneList Pos) → RangeTombstoneList Pos
  | [], _ => []
  | it :: l, other =>
    let one := differenceOne it.start it.stop it.tomb other
    one.1 ++ differencePieces l one.2

/-- `range_tombstone_list::difference` -/
def difference (l other : RangeTombstoneList Pos) : RangeTombstoneList Pos :=
  applyAll [] (differencePieces l other)

/-- What is left of a tombstone where another list may have one. -/
def beyond (tomb : Tombstone) : (other : Option Tombstone) → Option Tombstone
  | none => some tomb
  | some u => if tomb > u then some tomb else none

variable {l other : RangeTombstoneList Pos} {start stop x : Pos} (tomb : Tombstone)

/-- The pieces lie within the range, in order. -/
theorem differenceOne_pieces (proper : start < stop) (h : WellFormed other) :
    WellFormed (differenceOne start stop tomb other).1 ∧
      ∀ rt ∈ (differenceOne start stop tomb other).1, start ≤ rt.start ∧ rt.stop ≤ stop := by
  fun_induction differenceOne start stop tomb other <;> grind [wellFormed_cons, wellFormed_append, wellFormed_nil]

theorem tombstoneAt_differenceOne (proper : start < stop) (h : WellFormed other) (hx : start ≤ x ∧ x < stop) :
    (differenceOne start stop tomb other).1.tombstoneAt x = beyond tomb (other.tombstoneAt x) := by
  fun_induction differenceOne start stop tomb other with
  | case1 => simp [tombstoneAt_cons, RangeTombstone.Covers, hx, beyond]
  | case2 | case3 | case4 | case5 =>
    grind [wellFormed_cons, tombstoneAt_cons, tombstoneAt_append, tombstoneAt_nil, RangeTombstone.Covers, beyond,
      tombstoneAt_of_lt]
  | case6 start other rest _ _ before start' _ covered more _ ih =>
    obtain ⟨hother, after, h⟩ := wellFormed_cons.1 h
    have more : other.stop < stop := by order
    have pieces := (differenceOne_pieces tomb more h).2
    rw [tombstoneAt_append, tombstoneAt_cons]
    by_cases hs : x < other.stop
    · -- in front of the end of `other` the rest says nothing
      have restNone : tombstoneAt rest x = none := tombstoneAt_of_lt fun rt hrt => hs.trans_le (after rt hrt)
      have moreNone : (differenceOne other.stop stop tomb rest).1.tombstoneAt x = none :=
        tombstoneAt_of_lt fun rt hrt => hs.trans_le (pieces rt hrt).1
      grind [tombstoneAt_cons, tombstoneAt_append, tombstoneAt_nil, RangeTombstone.Covers, beyond]
    · have coveredNone : covered.tombstoneAt x = none := tombstoneAt_of_ends (by grind)
      have notCovers : ¬other.Covers x := fun hc => hs hc.2
      rw [coveredNone, Option.none_or, if_neg notCovers]
      exact ih more h ⟨not_lt.1 hs, hx.2⟩

/-- The sweep goes past nothing that it still needs. -/
theorem differenceOne_rest (proper : start < stop) (h : WellFormed other) :
    WellFormed (differenceOne start stop tomb other).2 ∧
      ∀ x, stop ≤ x → (differenceOne start stop tomb other).2.tombstoneAt x = other.tombstoneAt x := by
  fun_induction differenceOne start stop tomb other <;>
    grind [wellFormed_cons, tombstoneAt_cons, RangeTombstone.Covers]

/-- The pieces of all ranges, and what they delete. -/
theorem differencePieces_spec (h : WellFormed l) (ho : WellFormed other) :
    WellFormed (differencePieces l other) ∧ (∀ rt ∈ differencePieces l other, ∃ it ∈ l, it.start ≤ rt.start) ∧
      ∀ x, (differencePieces l other).tombstoneAt x = (l.tombstoneAt x).bind fun t => beyond t (other.tombstoneAt x) := by
  induction l generalizing other with
  | nil => exact ⟨wellFormed_nil, by simp [differencePieces], fun _ => rfl⟩
  | cons it l ih =>
    obtain ⟨proper, after, h⟩ := wellFormed_cons.1 h
    obtain ⟨wf, within⟩ := differenceOne_pieces it.tomb proper ho
    obtain ⟨wfRest, restAt⟩ := differenceOne_rest it.tomb proper ho
    obtain ⟨wfMore, starts, moreAt⟩ := ih h wfRest
    have behind : ∀ rt ∈ differencePieces l (differenceOne it.start it.stop it.tomb other).2, it.stop ≤ rt.start := by
      intro rt hrt
      obtain ⟨i, hi, le⟩ := starts rt hrt
      exact (after i hi).trans le
    refine ⟨wellFormed_append.2 ⟨wf, wfMore, fun a ha b hb => (within a ha).2.trans (behind b hb)⟩, fun rt hrt => ?_, fun x => ?_⟩
    · rcases List.mem_append.1 hrt with hrt | hrt
      · exact ⟨it, List.mem_cons_self, (within rt hrt).1⟩
      · obtain ⟨i, hi, le⟩ := starts rt hrt
        exact ⟨i, List.mem_cons_of_mem _ hi, le⟩
    · rw [differencePieces, tombstoneAt_append, tombstoneAt_cons]
      by_cases hc : it.Covers x
      · have none : tombstoneAt (differencePieces l (differenceOne it.start it.stop it.tomb other).2) x = none :=
          tombstoneAt_of_lt fun rt hrt => hc.2.trans_le (behind rt hrt)
        rw [none, Option.or_none, if_pos hc, tombstoneAt_differenceOne it.tomb proper ho hc, Option.bind_some]
      · have none : (differenceOne it.start it.stop it.tomb other).1.tombstoneAt x = none :=
          tombstoneAt_eq_none fun rt hrt hrc => hc ⟨(within rt hrt).1.trans hrc.1, hrc.2.trans_le (within rt hrt).2⟩
        rw [none, Option.none_or, if_neg hc, moreAt]
        cases hl : tombstoneAt l x with
        | none => rfl
        | some t =>
          obtain ⟨i, hi, hic, -⟩ := h.tombstoneAt_eq_some.1 hl
          rw [Option.bind_some, Option.bind_some, restAt x ((after i hi).trans hic.1)]

theorem WellFormed.difference (h : WellFormed l) (ho : WellFormed other) : WellFormed (l.difference other) :=
  wellFormed_nil.applyAll (differencePieces_spec h ho).1.proper

/-- The difference deletes a position just where the first list deletes it more than the second. -/
theorem tombstoneAt_difference (h : WellFormed l) (ho : WellFormed other) (x : Pos) :
    (l.difference other).tombstoneAt x = (l.tombstoneAt x).bind fun t => beyond t (other.tombstoneAt x) := by
  obtain ⟨wf, -, pieces⟩ := differencePieces_spec h ho
  rw [RangeTombstoneList.difference, tombstoneAt_applyAll wellFormed_nil wf, tombstoneAt_nil,
    Tombstone.overlay_none_right, pieces]

/-- The difference is exact, and empty if the first list deletes nothing more than the second. -/
theorem range_difference_exact (h : WellFormed l) (ho : WellFormed other) :
    (∀ x t, (l.difference other).tombstoneAt x = some t ↔
      l.tombstoneAt x = some t ∧ ∀ u, other.tombstoneAt x = some u → t > u) ∧
    ((∀ x t, l.tombstoneAt x = some t → ∃ u, other.tombstoneAt x = some u ∧ ¬t > u) → l.difference other = []) := by
  have exact (x t) : (l.difference other).tombstoneAt x = some t ↔
      l.tombstoneAt x = some t ∧ ∀ u, other.tombstoneAt x = some u → t > u := by
    rw [tombstoneAt_difference h ho]
    cases l.tombstoneAt x with
    | none => simp
    | some a => cases other.tombstoneAt x <;> simp +contextual [beyond, and_comm]
  refine ⟨exact, fun nowhere => ?_⟩
  cases eq : l.difference other with
  | nil => rfl
  | cons rt rest =>
    -- its first range would delete a position
    have proper := (wellFormed_cons.1 (eq ▸ h.difference ho)).1
    obtain ⟨deletes, greater⟩ := (exact rt.start rt.tomb).1 (by rw [eq, tombstoneAt_cons, if_pos ⟨le_rfl, proper⟩])
    obtain ⟨u, hu, le⟩ := nowhere _ _ deletes
    exact absurd (greater u hu) le

theorem range_difference_exact_inside : (difference [{ start := 1, stop := 5, tomb := ⟨7, 0⟩ }]
    [{ start := 0, stop := 6, tomb := ⟨8, 0⟩ }] : RangeTombstoneList Nat) = [] :=
  (range_difference_exact (by simp [wellFormed_cons, wellFormed_nil]) (by simp [wellFormed_cons, wellFormed_nil])).2
    fun x t deletes => by
      simp only [tombstoneAt_cons, tombstoneAt_nil, RangeTombstone.Covers] at deletes ⊢
      obtain ⟨inside, ⟨⟩⟩ := Option.ite_none_right_eq_some.1 deletes
      exact ⟨_, if_pos (by omega), by decide⟩

/-- Where the difference is applied to the second list, it deletes what both do. -/
theorem merge_difference (h : WellFormed l) (ho : WellFormed other) (x : Pos) :
    Option.merge max (other.tombstoneAt x) ((l.difference other).tombstoneAt x) =
      Option.merge max (other.tombstoneAt x) (l.tombstoneAt x) := by
  rw [tombstoneAt_difference h ho]
  cases l.tombstoneAt x with
  | none => rfl
  | some t => cases other.tombstoneAt x with
    | none => rfl
    | some u =>
      simp only [Option.bind_some, beyond]
      split
      · rfl
      next le =>
        exact congrArg some (max_eq_left (not_lt.1 le)).symm

end RangeTombstoneList

end ScyllaMoon.Mutation
