import ScyllaMoon.Mutation.Compact

/-!
# The marker and the cells of one insert

An insert with a time to live gives its row a marker and cells that have the timestamp, the time to live and the expiry
in common. They are meant to share their fate, but it is decided twice: for the marker by `row_marker`, for the cells by
`atomic_cell` and `row::compact_and_expire`. The cell is gone at its expiry and the marker only after it. An expired cell
that only a shadowable tombstone covers is kept as a dead one, while the marker is erased.
-/

namespace ScyllaMoon.Mutation

open AtomicCell RowMarker

/-- What `compact_and_expire` does to a marker or to a cell -/
inductive Outcome where
  | keeps
  | turnsDead (deletion : Tombstone)
  | erases
  deriving DecidableEq

/-- What becomes of a cell -/
def AtomicCell.outcome (e : Expiry) (tomb : RowTombstone) (c : AtomicCell) : Outcome :=
  match (c.compactAndExpire e tomb).1 with
  | some left => if left.isLive then .keeps else .turnsDead left.deletion
  | none => .erases

/-- What becomes of a marker -/
def RowMarker.outcome (e : Expiry) (tomb : Tombstone) (m : RowMarker) : Outcome :=
  if (m.compactAndExpire e tomb).isMissing then .erases
  else if (m.compactAndExpire e tomb).ttl = -1 then
    .turnsDead { timestamp := (m.compactAndExpire e tomb).timestamp, deletionTime := (m.compactAndExpire e tomb).expiry }
  else .keeps

/-- What becomes of something that is dead since a deletion -/
def Expiry.outcomeOf (e : Expiry) (deletion : Tombstone) : Outcome :=
  if e.canPurge deletion then .erases else .turnsDead deletion

section Insert

variable {timestamp ttl expiry : Int} {value : List UInt8} {e : Expiry} {tomb : RowTombstone}

/-- A cell that the regular tombstones do not cover, by its expiry. -/
theorem AtomicCell.outcome_expiring (uncovered : tomb.regular.timestamp < timestamp) :
    (expiring timestamp value expiry ttl).outcome e tomb =
      if expiry ≤ e.queryTime then e.outcomeOf { timestamp, deletionTime := expiry - ttl }
      else if timestamp ≤ tomb.shadowable.timestamp then .erases else .keeps := by
  have regular : (expiring timestamp value expiry ttl).isCoveredBy tomb.regular = false := decide_eq_false (not_le.2 uncovered)
  have expired : (expiring timestamp value expiry ttl).hasExpired e.queryTime = decide (expiry ≤ e.queryTime) := rfl
  have covered : (expiring timestamp value expiry ttl).isCoveredBy tomb.shadowable =
    decide (timestamp ≤ tomb.shadowable.timestamp) := rfl
  unfold outcome compactAndExpire Expiry.outcomeOf
  rw [regular, expired, covered]
  by_cases gone : expiry ≤ e.queryTime
  · by_cases purged : e.canPurge { timestamp, deletionTime := expiry - ttl } = true
    · simp [gone, purged, AtomicCell.deletion, AtomicCell.timestamp, AtomicCell.deletionTime]
    · simp [gone, purged, AtomicCell.deletion, AtomicCell.timestamp, AtomicCell.deletionTime, AtomicCell.isLive]
  · by_cases shadowed : timestamp ≤ tomb.shadowable.timestamp
    · simp [gone, shadowed, isLive]
    · simp [gone, shadowed, isLive]

/-- A marker that no tombstone covers, by its expiry. -/
theorem RowMarker.outcome_expiring {t : Tombstone} (positive : 0 < ttl) (known : missingTimestamp ≤ t.timestamp)
    (uncovered : t.timestamp < timestamp) : outcome e t { timestamp, ttl, expiry } =
      if expiry < e.queryTime then e.outcomeOf { timestamp, deletionTime := expiry - ttl } else .keeps := by
  have there : (timestamp == missingTimestamp) = false := beq_false_of_ne (lt_of_le_of_lt known uncovered).ne'
  have alive : ttl ≠ -1 := by omega
  unfold outcome compactAndExpire Expiry.outcomeOf
  by_cases gone : expiry < e.queryTime
  · by_cases purged : e.canPurge { timestamp, deletionTime := expiry - ttl } = true
    · simp [isMissing, there, not_le.2 uncovered, positive, gone, purged]
    · simp [isMissing, there, not_le.2 uncovered, positive, gone, purged]
  · simp [isMissing, there, not_le.2 uncovered, gone, alive]

/-- Neither is left where the regular tombstones cover both. -/
theorem AtomicCell.outcome_covered {c : AtomicCell} (covered : c.timestamp ≤ tomb.regular.timestamp) :
    c.outcome e tomb = .erases := by
  simp [outcome, compactAndExpire, isCoveredBy, covered]

theorem RowMarker.outcome_covered {m : RowMarker} {t : Tombstone} (covered : m.timestamp ≤ t.timestamp) :
    m.outcome e t = .erases := by
  unfold outcome compactAndExpire
  by_cases missing : m.isMissing = true
  · rw [if_pos missing, if_pos missing]
  · rw [if_neg missing, if_pos covered]
    exact if_pos rfl

theorem Expiry.outcomeOf_eq_erases {deletion : Tombstone} : e.outcomeOf deletion = .erases ↔ e.canPurge deletion = true := by
  unfold Expiry.outcomeOf
  split <;> simp_all

/-- The marker and a cell of one insert are live together, and are kept, turned dead or erased alike, except at the very
time of their expiry and, once that has passed, under a tombstone that is only shadowable. -/
theorem insert_expires_alike_iff (timestamp ttl expiry : Int) (value : List UInt8) (e : Expiry) (tomb : RowTombstone)
    (positive : 0 < ttl) (known : missingTimestamp ≤ tomb.regular.timestamp)
    (regular_le : tomb.regular.timestamp ≤ tomb.shadowable.timestamp) :
    (isLiveAt { timestamp, ttl, expiry } tomb.shadowable e.queryTime =
        (expiring timestamp value expiry ttl).isLiveAt tomb.shadowable e.queryTime ∧
      outcome e tomb.shadowable { timestamp, ttl, expiry } = (expiring timestamp value expiry ttl).outcome e tomb) ↔
      ¬ (tomb.shadowable.timestamp < timestamp ∧ expiry = e.queryTime) ∧
      ¬ (tomb.regular.timestamp < timestamp ∧ timestamp ≤ tomb.shadowable.timestamp ∧ expiry ≤ e.queryTime ∧
        e.canPurge { timestamp, deletionTime := expiry - ttl } = false) := by
  rcases le_or_gt timestamp tomb.shadowable.timestamp with covered | uncovered
  · have cell := @isLiveAt_of_covered (.expiring timestamp value expiry ttl) _ covered e.queryTime
    rw [isLiveAt_of_covered covered, cell, outcome_covered covered]
    rcases le_or_gt timestamp tomb.regular.timestamp with regular | shadowed
    · have erased := @outcome_covered e tomb (.expiring timestamp value expiry ttl) regular
      rw [erased]
      exact iff_of_true ⟨rfl, rfl⟩ ⟨fun h => absurd h.1 (not_lt.2 covered), fun h => absurd h.1 (not_lt.2 regular)⟩
    · rw [outcome_expiring shadowed, if_pos covered]
      by_cases gone : expiry ≤ e.queryTime
      · rw [if_pos gone, eq_comm (a := Outcome.erases), Expiry.outcomeOf_eq_erases]
        simp [not_lt.2 covered, shadowed, covered, gone]
      · simp [gone, not_lt.2 covered]
  · have there : (timestamp == missingTimestamp) = false :=
      beq_false_of_ne (lt_of_le_of_lt (known.trans regular_le) uncovered).ne'
    have expiring : ttl ≠ 0 := by omega
    have alive : ttl ≠ -1 := by omega
    have apart : ¬ timestamp ≤ tomb.shadowable.timestamp := not_le.2 uncovered
    have marker : isLiveAt { timestamp, ttl, expiry } tomb.shadowable e.queryTime = !decide (expiry < e.queryTime) := by
      simp [RowMarker.isLiveAt, RowMarker.isMissing, there, beq_false_of_ne alive, bne_iff_ne.2 expiring, uncovered]
    have cell : (AtomicCell.expiring timestamp value expiry ttl).isLiveAt tomb.shadowable e.queryTime =
        !decide (expiry ≤ e.queryTime) := by
      simp [AtomicCell.isLiveAt, AtomicCell.isLive, AtomicCell.isCoveredBy, AtomicCell.timestamp, AtomicCell.hasExpired, apart]
    rw [marker, cell, outcome_expiring positive (known.trans regular_le) uncovered,
      outcome_expiring (lt_of_le_of_lt regular_le uncovered), if_neg apart]
    rcases lt_trichotomy expiry e.queryTime with before | now | after
    · simp [before, before.le, before.ne, apart]
    · simp [now, uncovered]
    · simp [after.ne', not_lt.2 after.le, not_le.2 after]

/-- After their expiry, the two are dead since the same time. -/
theorem insert_expires_alike_after : let e : Expiry := { queryTime := 11, gcBefore := 0, canGc := fun _ => true }
    isLiveAt { timestamp := 3, ttl := 5, expiry := 10 } {} 11 = (expiring 3 [] 10 5).isLiveAt {} 11 ∧
      outcome e {} { timestamp := 3, ttl := 5, expiry := 10 } = (expiring 3 [] 10 5).outcome e {} :=
  (insert_expires_alike_iff 3 5 10 [] { queryTime := 11, gcBefore := 0, canGc := fun _ => true } {} (by decide) (by decide)
    (by decide)).2 (by decide)

/-- At its expiry, the cell has turned dead and the marker is live. -/
theorem insert_expires_apart : let e : Expiry := { queryTime := 10, gcBefore := 0, canGc := fun _ => true }
    isLiveAt { timestamp := 3, ttl := 5, expiry := 10 } {} 10 = true ∧ (expiring 3 [] 10 5).isLiveAt {} 10 = false ∧
      outcome e {} { timestamp := 3, ttl := 5, expiry := 10 } = .keeps ∧
      (expiring 3 [] 10 5).outcome e {} = .turnsDead { timestamp := 3, deletionTime := 5 } := by
  decide

end Insert

end ScyllaMoon.Mutation
