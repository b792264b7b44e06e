import ScyllaMoon.Query.Slice

/-!
# Merging results

The results of several replicas or ranges are put one behind the other. `result_merger::get` stops at the limits of rows
and partitions and behind a short read, and cuts the partition that has too many rows. All counts are of 32 bits.
-/

namespace ScyllaMoon.Query

open List

variable {K Pos : Type}

/-- `qr_partition` with its key. The number of rows is written with 32 bits. -/
structure MergedPartition (K Pos : Type) extends ResultPartition Pos where
  key : Option K := none
  few : rows.length < 2 ^ 32

/-- `query::result` -/
structure PartialResult (K Pos : Type) where
  partitions : List (MergedPartition K Pos)
  shortRead : Bool := false
  rowCount : Option Nat := none
  partitionCount : Option Nat := none

namespace MergedPartition

variable (p : MergedPartition K Pos)

/-- `rows_in_partition`: without rows there is a static row, or there would not be a partition. -/
def rowsIn : Nat := if p.rows.length = 0 then 1 else p.rows.length

/-- `write_partial_partition` -/
def writePartial (rowsToInclude : Nat) : MergedPartition K Pos where
  staticRow := p.staticRow
  rows := p.rows.take (min p.rows.length rowsToInclude)
  key := p.key
  few := (length_take_le' _ _).trans_lt p.few

theorem rowsIn_pos : 0 < p.rowsIn := by
  unfold rowsIn
  split <;> omega

variable {p : MergedPartition K Pos}

theorem lt_length {n : Nat} (pos : 0 < n) (lt : n < p.rowsIn) : n < p.rows.length := by
  unfold rowsIn at lt
  split at lt <;> omega

/-- A partition that is cut has as many rows as it was cut to. -/
theorem rowsIn_writePartial {n : Nat} (pos : 0 < n) (lt : n < p.rows.length) : (p.writePartial n).rowsIn = n := by
  rw [rowsIn, writePartial, length_take]
  split <;> omega

/-- The partition with its first `n` rows -/
def leading (n : Nat) : MergedPartition K Pos :=
  { p with rows := p.rows.take n, few := (length_take_le' _ _).trans_lt p.few }

theorem writePartial_eq {n : Nat} (lt : n < p.rows.length) : p.writePartial n = p.leading n := by
  simp only [writePartial, leading, Nat.min_eq_right lt.le]

theorem leading_leading {n k : Nat} (le : n ≤ k) : (p.leading k).leading n = p.leading n := by
  simp only [leading, take_take, Nat.min_eq_left le]

end MergedPartition

/-- The rows of partitions -/
def rowsOf (ps : List (MergedPartition K Pos)) : Nat := (ps.map (·.rowsIn)).sum

@[simp] theorem rowsOf_nil : rowsOf ([] : List (MergedPartition K Pos)) = 0 := rfl

@[simp] theorem rowsOf_cons {p : MergedPartition K Pos} {ps : List (MergedPartition K Pos)} :
    rowsOf (p :: ps) = p.rowsIn + rowsOf ps := sum_cons

/-- `result_merger` -/
structure ResultMerger (K Pos : Type) where
  maxRows : Nat
  maxPartitions : Nat
  partials : List (PartialResult K Pos)
  rows : maxRows < 2 ^ 32
  partitions : maxPartitions < 2 ^ 32

/-- What `get` has written and counted. -/
structure Merging (K Pos : Type) where
  partitions : List (MergedPartition K Pos) := []
  rowCount : Nat := 0
  partitionCount : Nat := 0

namespace ResultMerger

/-- What `get` does with a result: its partitions one after the other -/
def addPartitions (m : ResultMerger K Pos) : Merging K Pos → List (MergedPartition K Pos) → Merging K Pos
  | s, [] => s
  | s, p :: ps =>
    let rowsToInclude := min ((m.maxRows + 2 ^ 32 - s.rowCount) % 2 ^ 32) p.rowsIn
    let rowCount := (s.rowCount + rowsToInclude) % 2 ^ 32
    let partitionCount := (s.partitionCount + 1) % 2 ^ 32
    if rowsToInclude ≥ p.rowsIn then
      if partitionCount ≥ m.maxPartitions then ⟨s.partitions ++ [p], rowCount, partitionCount⟩
      else m.addPartitions ⟨s.partitions ++ [p], rowCount, partitionCount⟩ ps
    else if rowsToInclude > 0 then ⟨s.partitions ++ [p.writePartial rowsToInclude], rowCount, partitionCount⟩
    else { s with rowCount }

/-- The loop of `get`, and whether it met a short read -/
def addResults (m : ResultMerger K Pos) : Merging K Pos → List (PartialResult K Pos) → Merging K Pos × Bool
  | s, [] => (s, false)
  | s, r :: rs =>
    let s := m.addPartitions s r.partitions
    if r.shortRead then (s, true)
    else if s.rowCount ≥ m.maxRows || s.partitionCount ≥ m.maxPartitions then (s, false)
    else m.addResults s rs

/-- `get()` -/
def get (m : ResultMerger K Pos) : PartialResult K Pos :=
  match m.partials with
  | [r] => r
  | rs =>
    let (s, shortRead) := m.addResults {} rs
    ⟨s.partitions, shortRead, some s.rowCount, some s.partitionCount⟩

end ResultMerger

/-- The partitions up to the first short read, which is the last -/
def untilShort : List (PartialResult K Pos) → List (MergedPartition K Pos)
  | [] => []
  | r :: rs => if r.shortRead then r.partitions else r.partitions ++ untilShort rs

/-- The first list is a leading part of the second one, whose last partition may be cut. -/
inductive Leading : List (MergedPartition K Pos) → List (MergedPartition K Pos) → Prop
  | none {ps} : Leading [] ps
  | whole {p qs ps} : Leading qs ps → Leading (p :: qs) (p :: ps)
  | cut {p n ps} : 0 < n → n < p.rows.length →
    Leading [{ p with rows := p.rows.take n, few := (length_take_le' _ _).trans_lt p.few }] (p :: ps)

/-- The longest leading part with so many rows and partitions at most -/
structure IsLongest (maxRows maxParts : Nat) (ps qs : List (MergedPartition K Pos)) : Prop where
  leading : Leading qs ps
  rows : rowsOf qs ≤ maxRows
  parts : qs.length ≤ maxParts
  longest : ∀ {q}, Leading q ps → rowsOf q ≤ maxRows → q.length ≤ maxParts → Leading q qs

/-- The longest leading part, as it can be computed -/
def clip : (rows parts : Nat) → List (MergedPartition K Pos) → List (MergedPartition K Pos)
  | _, _, [] => []
  | rows, parts, p :: ps =>
    if rows = 0 ∨ parts = 0 then []
    else if p.rowsIn ≤ rows then p :: clip (rows - p.rowsIn) (parts - 1) ps
    else [p.writePartial rows]

section Clip

variable {a b : Nat} {ps qs : List (MergedPartition K Pos)}

theorem clip_eq_nil (none : a = 0 ∨ b = 0) : clip a b ps = [] := by
  cases ps with
  | nil => rfl
  | cons p ps => rw [clip, if_pos none]

theorem isLongest_clip : IsLongest a b ps (clip a b ps) := by
  induction ps generalizing a b with
  | nil => exact ⟨.none, Nat.zero_le _, Nat.zero_le _, fun h _ _ => h⟩
  | cons p ps ih =>
    unfold clip
    split
    · refine ⟨.none, Nat.zero_le _, Nat.zero_le _, fun {q} _ rows parts => ?_⟩
      cases q with
      | nil => exact .none
      | cons p' q =>
        have := p'.rowsIn_pos
        simp only [rowsOf_cons, length_cons] at rows parts
        omega
    · split
      · have ih := @ih (a - p.rowsIn) (b - 1)
        have rows := ih.rows
        have parts := ih.parts
        refine ⟨.whole ih.leading, by simp only [rowsOf_cons]; omega, by simp only [length_cons]; omega, fun h rows parts => ?_⟩
        cases h with
        | none => exact .none
        | whole h =>
          simp only [rowsOf_cons, length_cons] at rows parts
          exact .whole (ih.longest h (by omega) (by omega))
        | cut pos lt => exact .cut pos lt
      · have lt : a < p.rows.length := p.lt_length (by omega) (by omega)
        have rowsIn := p.rowsIn_writePartial (by omega) lt
        have cut : Leading [p.writePartial a] (p :: ps) := p.writePartial_eq lt ▸ .cut (by omega) lt
        refine ⟨cut, by simp [rowsIn], by simp only [length_singleton]; omega, fun h rows parts => ?_⟩
        cases h with
        | none => exact .none
        | whole h =>
          simp only [rowsOf_cons] at rows
          omega
        | @cut _ n _ pos lt' =>
          change rowsOf [p.leading n] ≤ a at rows
          rw [← p.writePartial_eq lt', rowsOf_cons, p.rowsIn_writePartial pos lt'] at rows
          change Leading [p.leading n] [p.writePartial a]
          rw [p.writePartial_eq lt]
          rcases Nat.eq_or_lt_of_le (Nat.le_of_add_right_le rows) with rfl | less
          · exact .whole .none
          · rw [← p.leading_leading less.le]
            refine .cut pos ?_
            simp only [MergedPartition.leading, length_take]
            omega

/-- What is left of the limits is for what comes next. -/
theorem clip_append : clip a b (ps ++ qs) = clip a b ps ++ clip (a - rowsOf (clip a b ps)) (b - (clip a b ps).length) qs := by
  induction ps generalizing a b with
  | nil => rfl
  | cons p ps ih =>
    rw [cons_append, clip, clip]
    split
    next none =>
      exact (clip_eq_nil (by simpa using none)).symm
    · split
      · rw [ih, cons_append, rowsOf_cons, length_cons, Nat.sub_sub, Nat.sub_sub, Nat.add_comm 1]
      · have rowsIn := p.rowsIn_writePartial (n := a) (by omega) (p.lt_length (by omega) (by omega))
        rw [clip_eq_nil (.inl (by simp [rowsIn])), append_nil]

theorem clip_eq_self (rows : rowsOf (clip a b ps) < a) (parts : (clip a b ps).length < b) : clip a b ps = ps := by
  induction ps generalizing a b with
  | nil => rfl
  | cons p ps ih =>
    unfold clip at rows parts ⊢
    split at rows
    · omega
    next some =>
      rw [if_neg some] at parts ⊢
      split at rows
      next fits =>
        simp only [if_pos fits, rowsOf_cons, length_cons] at rows parts ⊢
        rw [ih (by omega) (by omega)]
      · rw [rowsOf_cons, p.rowsIn_writePartial (by omega) (p.lt_length (by omega) (by omega))] at rows
        omega

end Clip

/-- The partitions are written and counted. -/
def Merging.extend (s : Merging K Pos) (ps : List (MergedPartition K Pos)) : Merging K Pos :=
  ⟨s.partitions ++ ps, s.rowCount + rowsOf ps, s.partitionCount + ps.length⟩

namespace ResultMerger

variable {m : ResultMerger K Pos} {s : Merging K Pos} {ps : List (MergedPartition K Pos)} {rs : List (PartialResult K Pos)}

/-- What the limits leave of further partitions -/
def clipped (m : ResultMerger K Pos) (s : Merging K Pos) (ps : List (MergedPartition K Pos)) : List (MergedPartition K Pos) :=
  clip (m.maxRows - s.rowCount) (m.maxPartitions - s.partitionCount) ps

open Merging (extend)

theorem addPartitions_eq (rows : s.rowCount ≤ m.maxRows) (parts : s.partitionCount < m.maxPartitions) :
    m.addPartitions s ps = s.extend (m.clipped s ps) := by
  induction ps generalizing s with
  | nil => simp [addPartitions, clipped, clip, extend]
  | cons p ps ih =>
    have small := m.rows
    have few := m.partitions
    have room : (m.maxRows + 2 ^ 32 - s.rowCount) % 2 ^ 32 = m.maxRows - s.rowCount := by omega
    have next : (s.partitionCount + 1) % 2 ^ 32 = s.partitionCount + 1 := by omega
    unfold addPartitions
    rw [room, next]
    by_cases fits : p.rowsIn ≤ m.maxRows - s.rowCount
    · have pos := p.rowsIn_pos
      have count : (s.rowCount + p.rowsIn) % 2 ^ 32 = s.rowCount + p.rowsIn := by omega
      have cons : m.clipped s (p :: ps) = p :: m.clipped ⟨s.partitions ++ [p], s.rowCount + p.rowsIn, s.partitionCount + 1⟩ ps := by
        rw [clipped, clip, if_neg (by omega), if_pos fits, Nat.sub_sub, Nat.sub_sub, clipped]
      rw [Nat.min_eq_right fits, if_pos le_rfl, count, cons]
      split
      next full =>
        rw [clipped, clip_eq_nil (.inr (Nat.sub_eq_zero_of_le full))]
        rfl
      · rw [ih (by dsimp only; omega) (by dsimp only; omega)]
        simp [extend, Nat.add_assoc, Nat.add_comm 1]
    · rw [Nat.min_eq_left (by omega), if_neg fits, clipped, clip, if_neg fits]
      split
      next pos =>
        rw [if_neg (by omega), extend, rowsOf_cons, p.rowsIn_writePartial pos (p.lt_length pos (by omega)),
          Nat.mod_eq_of_lt (by omega)]
        rfl
      next none =>
        rw [if_pos (by omega), Nat.mod_eq_of_lt (by omega), Nat.eq_zero_of_not_pos none]
        simp [extend]

/-- What has been written when the loop ends. A short read was only met if the results before it left room. -/
theorem addResults_spec (rows : s.rowCount < m.maxRows) (parts : s.partitionCount < m.maxPartitions) :
    (m.addResults s rs).1 = s.extend (m.clipped s (untilShort rs)) ∧
      ((m.addResults s rs).2 = true → ∃ before r after, rs = before ++ r :: after ∧ r.shortRead = true ∧
        s.rowCount + rowsOf (before.flatMap (·.partitions)) < m.maxRows ∧
        s.partitionCount + (before.flatMap (·.partitions)).length < m.maxPartitions) := by
  induction rs generalizing s with
  | nil => exact ⟨by simp [addResults, untilShort, clipped, clip, extend], nofun⟩
  | cons r rs ih =>
    unfold addResults untilShort
    rw [addPartitions_eq rows.le parts]
    dsimp only
    split
    next short =>
      exact ⟨rfl, fun _ => ⟨[], r, rs, rfl, short, rows, parts⟩⟩
    · have append : m.clipped s (r.partitions ++ untilShort rs) =
          m.clipped s r.partitions ++ m.clipped (s.extend (m.clipped s r.partitions)) (untilShort rs) := by
        simp only [clipped, clip_append, extend, Nat.sub_sub]
      rw [append]
      split
      next reached =>
        have none : m.clipped (s.extend (m.clipped s r.partitions)) (untilShort rs) = [] :=
          clip_eq_nil (by simpa [Nat.sub_eq_zero_iff_le] using reached)
        exact ⟨by rw [none, append_nil], nofun⟩
      next room =>
        simp only [Bool.or_eq_true, decide_eq_true_eq, not_or, not_le, ge_iff_le] at room
        obtain ⟨written, short⟩ := ih room.1 room.2
        refine ⟨by rw [written]; simp [extend, Nat.add_assoc, rowsOf], fun met => ?_⟩
        obtain ⟨before, r', after, rfl, isShort, few⟩ := short met
        have all : m.clipped s r.partitions = r.partitions :=
          clip_eq_self (by have := room.1; simp only [extend, clipped] at this; omega)
            (by have := room.2; simp only [extend, clipped] at this; omega)
        rw [all] at few
        refine ⟨r :: before, r', after, rfl, isShort, ?_⟩
        simpa [extend, Nat.add_assoc, rowsOf] using few

/-- Two or more results are merged to the longest leading part of their partitions, up to the first short read, that has
no more rows and partitions than allowed. The counts are those of what is returned, and it is a short read only if one of
the results is that was reached within the limits. -/
theorem get_longest (m : ResultMerger K Pos) (two : 2 ≤ m.partials.length) (rows : 1 ≤ m.maxRows) (parts : 1 ≤ m.maxPartitions) :
    IsLongest m.maxRows m.maxPartitions (untilShort m.partials) m.get.partitions ∧
      m.get.rowCount = some (rowsOf m.get.partitions) ∧ m.get.partitionCount = some m.get.partitions.length ∧
      (m.get.shortRead = true → ∃ before r after, m.partials = before ++ r :: after ∧ r.shortRead = true ∧
        rowsOf (before.flatMap (·.partitions)) < m.maxRows ∧ (before.flatMap (·.partitions)).length < m.maxPartitions) := by
  have merged : m.get = ⟨(m.addResults {} m.partials).1.partitions, (m.addResults {} m.partials).2,
      some (m.addResults {} m.partials).1.rowCount, some (m.addResults {} m.partials).1.partitionCount⟩ := by
    unfold get
    split
    next one =>
      simp [one] at two
    · rfl
  obtain ⟨written, short⟩ := @addResults_spec K Pos m {} m.partials rows parts
  rw [merged, written]
  simp only [extend, nil_append, Nat.zero_add] at short ⊢
  exact ⟨isLongest_clip, trivial, trivial, short⟩

/-- A partition with a static row alone, and a short read that has one with three rows -/
def staticAndRows : ResultMerger Nat Nat where
  maxRows := 3
  maxPartitions := 5
  partials := [{ partitions := [{ staticRow := [], rows := [], few := by decide }] },
    { partitions := [{ staticRow := [], rows := [⟨some 4, []⟩, ⟨some 6, []⟩, ⟨some 9, []⟩], few := by decide }], shortRead := true }]
  rows := by decide
  partitions := by decide

theorem get_longest_cut : IsLongest 3 5 (untilShort staticAndRows.partials) staticAndRows.get.partitions ∧
    staticAndRows.get.partitions.map (·.rows.map (·.key)) = [[], [some 4, some 6]] :=
  ⟨(get_longest staticAndRows (by decide) (by decide) (by decide)).1, rfl⟩

end ResultMerger

end ScyllaMoon.Query
