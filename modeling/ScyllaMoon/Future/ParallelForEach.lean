import ScyllaMoon.Lib.Run

/-!
# `moon_parallel_for_each`

A function is called on every element of a range, and each call gives a future of a commit version. All of them share
one state: how many are waited for, the first exception, the highest version so far, and the promise of the future that
the caller gets. The loop holds a reference of its own, so that the promise cannot be resolved before all calls are
made. A future may be ready, so that its continuation runs at once, or be completed at any later time, and the call
itself may throw.
-/

namespace ScyllaMoon.Future

open Lib List

/-- What must not happen: a promise that is set twice, or a count that falls below zero -/
inductive Fault where
  | promiseSetTwice
  | notWaiting
  deriving DecidableEq, Repr

variable {E : Type}

/-- `moon_parallel_for_each_state` -/
structure ForEachState (E : Type) where
  ex : Option E := none
  waiting : Nat := 0
  pr : Option (Except E UInt32) := none
  maxCommitVersion : UInt32 := 0

namespace ForEachState

/-- `complete` -/
def complete (s : ForEachState E) (value : UInt32) : Except Fault (ForEachState E) :=
  let s := { s with maxCommitVersion := if s.maxCommitVersion < value then value else s.maxCommitVersion }
  if s.waiting = 0 then .error .notWaiting
  else
    let s := { s with waiting := s.waiting - 1 }
    if s.waiting = 0 then
      if s.pr.isSome then .error .promiseSetTwice
      else
        .ok { s with pr := some (match s.ex with
          | some e => .error e
          | none => .ok s.maxCommitVersion) }
    else .ok s

/-- The continuation of `then_wrapped`, and the handler of an exception of the call -/
def continuation (s : ForEachState E) : Except E UInt32 → Except Fault (ForEachState E)
  | .error e => { s with ex := s.ex.or (some e) }.complete 0
  | .ok v => s.complete v

end ForEachState

/-- How the call for an element goes: it throws, its future is ready and the continuation runs, or neither. -/
inductive Call where
  | throws
  | ready
  | pending
  deriving DecidableEq, Repr

/-- What happens next: the loop goes on, the future of a call is completed, or the loop is over. -/
inductive Action where
  | call (c : Call)
  | completed (i : Nat)
  | loopEnds
  deriving DecidableEq, Repr

/-- The loop, with the number of calls that were made and those whose continuation has not run yet -/
structure ForEach (E : Type) where
  state : ForEachState E := { waiting := 1 }
  called : Nat := 0
  pending : List Nat := []
  ended : Bool := false

section Step

-- the futures of the calls complete with these
variable (xs : List (Except E UInt32))

namespace ForEach

variable (s : ForEach E)

/-- What can happen next -/
def Enabled : Action → Prop
  | .call c => s.ended = false ∧ ∃ x, xs[s.called]? = some x ∧ (c = .throws → ∃ e, x = .error e)
  | .completed i => i ∈ s.pending
  | .loopEnds => s.ended = false ∧ s.called = xs.length ∧ xs ≠ []

/-- The next thing happens. -/
def step : Action → Except Fault (ForEach E × Unit)
  | .call c => match xs[s.called]? with
    | none => .ok (s, ())
    | some x =>
      let s' := { s with called := s.called + 1, state := { s.state with waiting := s.state.waiting + 1 } }
      if c = .pending then .ok ({ s' with pending := s.called :: s.pending }, ())
      else do
        let state ← s'.state.continuation x
        return ({ s' with state }, ())
  | .completed i => match xs[i]? with
    | none => .ok (s, ())
    | some x => do
      let state ← s.state.continuation x
      return ({ s with state, pending := s.pending.erase i }, ())
  | .loopEnds => do
    let state ← s.state.complete 0
    return ({ s with state, ended := true }, ())

/-- What the caller's future was resolved with; nothing is waited for in an empty range. -/
def returned : Option (Except E UInt32) := if xs = [] then some (.ok 0) else s.state.pr

/-- All calls were made and all their futures have completed, and the loop is over. -/
def Done : Prop := s.called = xs.length ∧ s.pending = [] ∧ (s.ended = true ∨ xs = [])

end ForEach

/-- The maximum of the versions, if none failed, and one of the exceptions otherwise. -/
def IsOutcome (r : Except E UInt32) : Prop :=
  (∃ e, r = .error e ∧ .error e ∈ xs) ∨
    (∀ x ∈ xs, ∃ v, x = .ok v) ∧ ∃ m, r = .ok m ∧ (∀ v, .ok v ∈ xs → v ≤ m) ∧ (if xs = [] then m = 0 else .ok m ∈ xs)

end Step

namespace ForEachState

variable (s : ForEachState E)

/-- The outcome, once nothing is waited for -/
def outcome : Except E UInt32 := match s.ex with
  | some e => .error e
  | none => .ok s.maxCommitVersion

/-- One thing less is waited for. -/
def released : ForEachState E :=
  { s with waiting := s.waiting - 1, pr := if s.waiting = 1 then some s.outcome else none }

/-- The result of a future is taken note of. -/
def noted : Except E UInt32 → ForEachState E
  | .error e => { s with ex := s.ex.or (some e) }
  | .ok v => { s with maxCommitVersion := if s.maxCommitVersion < v then v else s.maxCommitVersion }

variable {s : ForEachState E}

theorem complete_eq (waits : s.waiting ≠ 0) (unset : s.pr = none) (v : UInt32) :
    s.complete v = .ok (s.noted (.ok v)).released := by
  unfold complete released noted
  simp only [if_neg waits, unset, Option.isSome_none, Bool.false_eq_true, if_false]
  by_cases last : s.waiting = 1
  · rw [if_pos last, if_pos (by omega)]
    rfl
  · rw [if_neg last, if_neg (by omega), ← unset]

theorem noted_zero : s.noted (.ok 0) = s := by
  have least : ¬ s.maxCommitVersion < 0 := UInt32.not_lt_zero
  rw [noted, if_neg least]

theorem continuation_eq (waits : s.waiting ≠ 0) (unset : s.pr = none) (x : Except E UInt32) :
    s.continuation x = .ok (s.noted x).released := by
  cases x with
  | error e =>
    rw [continuation, complete_eq (s := { s with ex := s.ex.or (some e) }) waits unset, noted_zero]
    rfl
  | ok v => exact complete_eq waits unset v

/-- The state has taken note of the results of these futures. -/
structure Collects (xs : List (Except E UInt32)) (done : Nat → Prop) (s : ForEachState E) : Prop where
  ex : ∀ e, s.ex = some e → ∃ i, done i ∧ xs[i]? = some (.error e)
  failed : ∀ i e, done i → xs[i]? = some (.error e) → s.ex.isSome = true
  le : ∀ i v, done i → xs[i]? = some (.ok v) → v ≤ s.maxCommitVersion
  attained : s.maxCommitVersion = 0 ∨ ∃ i, done i ∧ xs[i]? = some (.ok s.maxCommitVersion)

variable {xs : List (Except E UInt32)}

theorem Collects.congr {done done' : Nat → Prop} {s' : ForEachState E} (h : s.Collects xs done)
    (same : ∀ i, done' i ↔ done i) (ex : s'.ex = s.ex) (version : s'.maxCommitVersion = s.maxCommitVersion) :
    s'.Collects xs done' := by
  obtain rfl : done' = done := funext fun i => propext (same i)
  exact ⟨ex ▸ h.ex, ex ▸ h.failed, version ▸ h.le, version ▸ h.attained⟩

theorem Collects.noted {done : Nat → Prop} (h : s.Collects xs done) {i : Nat} {x : Except E UInt32}
    (found : xs[i]? = some x) : (s.noted x).Collects xs fun j => done j ∨ j = i := by
  cases x with
  | error e =>
    refine ⟨fun e' eq => ?_, fun j e' mem other => ?_, fun j v mem other => ?_, ?_⟩
    · cases known : s.ex with
      | none =>
        obtain rfl : e = e' := by simpa [ForEachState.noted, known] using eq
        exact ⟨i, .inr rfl, found⟩
      | some e'' =>
        obtain rfl : e'' = e' := by simpa [ForEachState.noted, known] using eq
        obtain ⟨j, mem, at'⟩ := h.ex e'' known
        exact ⟨j, .inl mem, at'⟩
    · simp [ForEachState.noted]
    · rcases mem with mem | rfl
      · exact h.le j v mem other
      · rw [found] at other
        cases other
    · rcases h.attained with zero | ⟨j, mem, at'⟩
      · exact .inl zero
      · exact .inr ⟨j, .inl mem, at'⟩
  | ok v =>
    refine ⟨fun e eq => ?_, fun j e mem other => ?_, fun j w mem other => ?_, ?_⟩
    · obtain ⟨j, mem, at'⟩ := h.ex e eq
      exact ⟨j, .inl mem, at'⟩
    · rcases mem with mem | rfl
      · exact h.failed j e mem other
      · rw [found] at other
        cases other
    · have larger : s.maxCommitVersion ≤ (s.noted (.ok v)).maxCommitVersion ∧ v ≤ (s.noted (.ok v)).maxCommitVersion := by
        unfold ForEachState.noted
        dsimp only
        split
        next lt =>
          exact ⟨UInt32.le_of_lt lt, UInt32.le_refl v⟩
        next ge =>
          exact ⟨UInt32.le_refl _, UInt32.not_lt.1 ge⟩
      rcases mem with mem | rfl
      · exact UInt32.le_trans (h.le j w mem other) larger.1
      · rw [found] at other
        cases other
        exact larger.2
    · unfold ForEachState.noted
      dsimp only
      split
      · exact .inr ⟨i, .inr rfl, found⟩
      · rcases h.attained with zero | ⟨j, mem, at'⟩
        · exact .inl zero
        · exact .inr ⟨j, .inl mem, at'⟩

/-- The promise is resolved when nothing is waited for any more. -/
def Resolves : Prop := s.pr = if s.waiting = 0 then some s.outcome else none

theorem resolves_released (waits : s.waiting ≠ 0) : s.released.Resolves := by
  change (if s.waiting = 1 then some s.outcome else none) = if s.waiting - 1 = 0 then some s.outcome else none
  by_cases last : s.waiting = 1
  · rw [if_pos last, if_pos (by omega)]
  · rw [if_neg last, if_neg (by omega)]

theorem Resolves.unset (h : s.Resolves) (waits : s.waiting ≠ 0) : s.pr = none := by
  rw [h, if_neg waits]

theorem waiting_noted (x : Except E UInt32) : (s.noted x).waiting = s.waiting := by
  cases x <;> rfl

end ForEachState

namespace ForEach

variable {xs : List (Except E UInt32)} {s : ForEach E} {a : Action}

/-- The loop and the continuations agree on what is waited for, and on what there was. -/
structure Inv (xs : List (Except E UInt32)) (s : ForEach E) : Prop where
  called : s.called ≤ xs.length
  pending : ∀ i ∈ s.pending, i < s.called
  nodup : s.pending.Nodup
  ended : s.ended = true → s.called = xs.length ∧ xs ≠ []
  waiting : s.state.waiting = s.pending.length + if s.ended then 0 else 1
  resolves : s.state.Resolves
  collects : s.state.Collects xs fun i => i < s.called ∧ i ∉ s.pending

/-- How many things can still happen -/
def work (xs : List (Except E UInt32)) (s : ForEach E) : Nat :=
  2 * (xs.length - s.called) + s.pending.length + if s.ended then 0 else 1

theorem inv_start : Inv xs {} where
  called := Nat.zero_le _
  pending := nofun
  nodup := .nil
  ended := nofun
  waiting := rfl
  resolves := rfl
  collects := ⟨nofun, fun _ _ h => absurd h.1 (Nat.not_lt_zero _), fun _ _ h => absurd h.1 (Nat.not_lt_zero _), .inl rfl⟩

open ForEachState (continuation_eq noted waiting_noted resolves_released)

theorem Inv.call (h : Inv xs s) {c : Call} (enabled : s.Enabled xs (.call c)) :
    ∃ s', s.step xs (.call c) = .ok (s', ()) ∧ Inv xs s' ∧ s'.work xs < s.work xs := by
  obtain ⟨going, x, found, -⟩ := enabled
  have lt : s.called < xs.length := (List.getElem?_eq_some_iff.1 found).1
  have waiting := h.waiting
  rw [going, if_neg Bool.false_ne_true] at waiting
  have unset : s.state.pr = none := h.resolves.unset (by omega)
  have fresh : s.called ∉ s.pending := fun mem => Nat.lt_irrefl _ (h.pending _ mem)
  unfold step
  rw [found]
  dsimp only
  by_cases later : c = .pending
  · rw [if_pos later]
    refine ⟨_, rfl, ⟨lt, ?_, nodup_cons.2 ⟨fresh, h.nodup⟩, fun ended => ?_, ?_, ?_, ?_⟩, ?_⟩
    · exact forall_mem_cons.2 ⟨Nat.lt_succ_self _, fun i mem => Nat.lt_succ_of_lt (h.pending i mem)⟩
    · rw [going] at ended
      cases ended
    · simp only [waiting, going, length_cons, Bool.false_eq_true, if_false]
    · change s.state.pr = if s.state.waiting + 1 = 0 then _ else none
      rw [unset, if_neg (by omega)]
    · refine h.collects.congr (fun i => ?_) rfl rfl
      simp only [mem_cons, not_or]
      exact ⟨fun ⟨lt, ne, other⟩ => ⟨by omega, other⟩, fun ⟨lt, other⟩ => ⟨by omega, by omega, other⟩⟩
    · simp only [work, length_cons]
      omega
  · rw [if_neg later, continuation_eq (s := { s.state with waiting := s.state.waiting + 1 }) (Nat.succ_ne_zero _) unset,
      ok_bind]
    refine ⟨_, rfl, ⟨lt, fun i mem => Nat.lt_succ_of_lt (h.pending i mem), h.nodup, fun ended => ?_, ?_, ?_, ?_⟩, ?_⟩
    · rw [going] at ended
      cases ended
    · change (noted _ x).waiting - 1 = _
      rw [waiting_noted, waiting, going]
      rfl
    · refine resolves_released ?_
      rw [waiting_noted]
      exact Nat.succ_ne_zero _
    · have before : { s.state with waiting := s.state.waiting + 1 }.Collects xs
          fun i => i < s.called ∧ i ∉ s.pending := h.collects.congr (fun _ => .rfl) rfl rfl
      refine (before.noted found).congr (fun i => ?_) rfl rfl
      change i < s.called + 1 ∧ i ∉ s.pending ↔ _
      constructor
      · rintro ⟨lt, other⟩
        by_cases this : i = s.called
        · exact .inr this
        · exact .inl ⟨by omega, other⟩
      · rintro (⟨lt, other⟩ | rfl)
        · exact ⟨by omega, other⟩
        · exact ⟨Nat.lt_succ_self _, fresh⟩
    · simp only [work]
      omega

theorem Inv.completed (h : Inv xs s) {i : Nat} (mem : i ∈ s.pending) :
    ∃ s', s.step xs (.completed i) = .ok (s', ()) ∧ Inv xs s' ∧ s'.work xs < s.work xs := by
  have lt := h.pending i mem
  obtain ⟨x, found⟩ : ∃ x, xs[i]? = some x := ⟨_, getElem?_eq_getElem (Nat.lt_of_lt_of_le lt h.called)⟩
  have waiting := h.waiting
  have length := length_erase_of_mem mem
  have pos := length_pos_of_mem mem
  have waits : s.state.waiting ≠ 0 := by omega
  unfold step
  dsimp only
  rw [found]
  dsimp only
  rw [continuation_eq waits (h.resolves.unset waits), ok_bind]
  refine ⟨_, rfl, ⟨h.called, fun j mem' => h.pending j (mem_of_mem_erase mem'), h.nodup.erase i, h.ended, ?_, ?_, ?_⟩, ?_⟩
  · change (s.state.noted x).waiting - 1 = (s.pending.erase i).length + _
    rw [waiting_noted]
    dsimp only
    omega
  · refine resolves_released ?_
    rwa [waiting_noted]
  · refine (h.collects.noted found).congr (fun j => ?_) rfl rfl
    rw [h.nodup.mem_erase_iff]
    by_cases this : j = i
    · simp [this, lt]
    · simp [this]
  · simp only [work]
    omega

theorem Inv.loopEnds (h : Inv xs s) (enabled : s.Enabled xs .loopEnds) :
    ∃ s', s.step xs .loopEnds = .ok (s', ()) ∧ Inv xs s' ∧ s'.work xs < s.work xs := by
  obtain ⟨going, all, some⟩ := enabled
  have waiting := h.waiting
  rw [going, if_neg Bool.false_ne_true] at waiting
  have waits : s.state.waiting ≠ 0 := by omega
  unfold step
  rw [ForEachState.complete_eq waits (h.resolves.unset waits), ok_bind, ForEachState.noted_zero]
  refine ⟨_, rfl, ⟨h.called, h.pending, h.nodup, fun _ => ⟨all, some⟩, ?_, resolves_released waits, ?_⟩, ?_⟩
  · change s.state.waiting - 1 = _
    rw [waiting]
    rfl
  · exact h.collects.congr (fun _ => .rfl) rfl rfl
  · simp only [work, going, if_true, Bool.false_eq_true, if_false]
    omega

theorem Inv.next (h : Inv xs s) (enabled : s.Enabled xs a) :
    ∃ s', s.step xs a = .ok (s', ()) ∧ Inv xs s' ∧ s'.work xs < s.work xs := by
  cases a with
  | call c => exact h.call enabled
  | completed i => exact h.completed enabled
  | loopEnds => exact h.loopEnds enabled

/-- Every run keeps to it, and ends after at most two steps for each element and one for the loop. -/
theorem Inv.of_run {tr : List (Action × Unit)} (run : Run (step xs) (fun _ s a => s.Enabled xs a) {} tr s) :
    Inv xs s ∧ tr.length + s.work xs ≤ 2 * xs.length + 1 := by
  refine run.invariant (fun tr s => Inv xs s ∧ tr.length + s.work xs ≤ 2 * xs.length + 1) ⟨inv_start, ?_⟩
    fun tr s a s' o inv enabled next => ?_
  · simp [work]
  · obtain ⟨t, eq, inv', less⟩ := inv.1.next enabled
    obtain rfl : t = s' := by
      rw [next] at eq
      cases eq
      rfl
    refine ⟨inv', ?_⟩
    have := inv.2
    simp only [length_append, length_singleton]
    omega

/-- As long as there is something left, something can happen. -/
theorem Inv.enabled_of_not_done (h : Inv xs s) (left : ¬ s.Done xs) : ∃ a, s.Enabled xs a := by
  by_cases pending : s.pending = []
  · by_cases all : s.called = xs.length
    · have going : ¬ (s.ended = true ∨ xs = []) := fun ended => left ⟨all, pending, ended⟩
      rw [not_or, Bool.not_eq_true] at going
      exact ⟨.loopEnds, going.1, all, going.2⟩
    · have going : s.ended = false := Bool.eq_false_iff.2 fun ended => all (h.ended ended).1
      have lt : s.called < xs.length := by
        have := h.called
        omega
      exact ⟨.call .ready, going, _, getElem?_eq_getElem lt, nofun⟩
  · obtain ⟨i, mem⟩ := exists_mem_of_ne_nil _ pending
    exact ⟨.completed i, mem⟩

theorem Inv.isSome_returned (h : Inv xs s) : (s.returned xs).isSome = true ↔ s.Done xs := by
  by_cases empty : xs = []
  · have none : s.called = 0 := by
      have := h.called
      rw [empty, length_nil] at this
      omega
    have pending : s.pending = [] := eq_nil_iff_forall_not_mem.2 fun i mem => by
      have := h.pending i mem
      omega
    rw [returned, if_pos empty]
    exact iff_of_true rfl ⟨by rw [none, empty]; rfl, pending, .inr empty⟩
  · have waiting := h.waiting
    rw [returned, if_neg empty, h.resolves]
    constructor
    · intro resolved
      have zero : s.state.waiting = 0 := by
        by_contra waits
        rw [if_neg waits] at resolved
        cases resolved
      cases ended : s.ended with
      | false =>
        rw [ended, if_neg Bool.false_ne_true] at waiting
        omega
      | true => exact ⟨(h.ended ended).1, length_eq_zero_iff.1 (by omega), .inl ended⟩
    · rintro ⟨-, pending, ended | none⟩
      · rw [pending, ended] at waiting
        rw [if_pos (by simpa using waiting)]
        rfl
      · exact absurd none empty

theorem Inv.isOutcome (h : Inv xs s) {r : Except E UInt32} (resolved : s.returned xs = some r) : IsOutcome xs r := by
  obtain ⟨all, pending, -⟩ := h.isSome_returned.1 (by rw [resolved]; rfl)
  have collects : s.state.Collects xs fun i => i < xs.length := by
    refine h.collects.congr (fun i => ?_) rfl rfl
    rw [all, pending]
    simp
  by_cases empty : xs = []
  · rw [returned, if_pos empty] at resolved
    cases resolved
    exact .inr ⟨by rw [empty]; nofun, 0, rfl, by rw [empty]; nofun, by rw [if_pos empty]⟩
  · have outcome : s.state.outcome = r := by
      rw [returned, if_neg empty, h.resolves] at resolved
      split at resolved
      · exact Option.some.inj resolved
      · cases resolved
    rw [ForEachState.outcome] at outcome
    cases ex : s.state.ex with
    | some e =>
      obtain ⟨i, -, found⟩ := collects.ex e ex
      rw [ex] at outcome
      exact .inl ⟨e, outcome.symm, mem_of_getElem? found⟩
    | none =>
      rw [ex] at outcome
      have fine : ∀ x ∈ xs, ∃ v, x = .ok v := fun x mem => by
        obtain ⟨i, lt, rfl⟩ := mem_iff_getElem.1 mem
        cases failed : xs[i] with
        | ok v => exact ⟨v, rfl⟩
        | error e =>
          have := collects.failed i e lt (by rw [getElem?_eq_getElem lt, failed])
          rw [ex] at this
          cases this
      have le : ∀ v, .ok v ∈ xs → v ≤ s.state.maxCommitVersion := fun v mem => by
        obtain ⟨i, lt, eq⟩ := mem_iff_getElem.1 mem
        exact collects.le i v lt (by rw [getElem?_eq_getElem lt, eq])
      refine .inr ⟨fine, _, outcome.symm, le, ?_⟩
      rw [if_neg empty]
      rcases collects.attained with zero | ⟨i, -, found⟩
      · -- some element is there, and it is not larger than zero
        obtain ⟨x, mem⟩ := exists_mem_of_ne_nil _ empty
        obtain ⟨v, rfl⟩ := fine x mem
        have least : v = 0 := UInt32.le_zero_iff.1 (zero ▸ le v mem)
        rw [zero, ← least]
        exact mem
      · exact mem_of_getElem? found

end ForEach

open ForEach in
/-- Whatever the order in which the calls are made and the futures complete, nothing is resolved twice, the caller's future
is resolved exactly when all have completed, and with the maximum of their versions or one of their exceptions. Every
run comes to that. -/
theorem moon_parallel_for_each_resolves (xs : List (Except E UInt32)) (tr : List (Action × Unit)) (s : ForEach E)
    (run : Run (step xs) (fun _ s a => s.Enabled xs a) {} tr s) :
    (∀ a, s.Enabled xs a → ∃ s', s.step xs a = .ok (s', ())) ∧ ((s.returned xs).isSome = true ↔ s.Done xs) ∧
      (∀ r, s.returned xs = some r → IsOutcome xs r) ∧ (s.Done xs ↔ ∀ a, ¬ s.Enabled xs a) ∧
      tr.length ≤ 2 * xs.length + 1 := by
  obtain ⟨inv, length⟩ := Inv.of_run run
  refine ⟨fun a enabled => ?_, inv.isSome_returned, fun r resolved => inv.isOutcome resolved, ?_, by omega⟩
  · obtain ⟨s', next, -⟩ := inv.next enabled
    exact ⟨s', next⟩
  · constructor
    · rintro ⟨all, pending, ended⟩ a enabled
      cases a with
      | call c =>
        obtain ⟨-, x, found, -⟩ := enabled
        have := (List.getElem?_eq_some_iff.1 found).1
        omega
      | completed i =>
        have mem : i ∈ s.pending := enabled
        rw [pending] at mem
        cases mem
      | loopEnds =>
        obtain ⟨going, -, some⟩ := enabled
        rcases ended with ended | none
        · rw [going] at ended
          cases ended
        · exact some none
    · intro stuck
      by_contra left
      obtain ⟨a, enabled⟩ := inv.enabled_of_not_done left
      exact stuck a enabled

open ForEach in
/-- One future is ready, the other one completes after the loop. -/
theorem moon_parallel_for_each_two :
    ∃ tr s, Run (step [.ok 3, .ok 7]) (fun _ s a => s.Enabled [.ok 3, .ok 7] a) ({} : ForEach Unit) tr s ∧
      s.returned [.ok 3, .ok 7] = some (.ok 7) ∧ IsOutcome [.ok 3, .ok 7] (.ok 7 : Except Unit UInt32) := by
  let xs : List (Except Unit UInt32) := [.ok 3, .ok 7]
  have snoc tr (s s') a (run : Run (step xs) (fun _ s a => s.Enabled xs a) {} tr s) enabled next :
      Run (step xs) (fun _ s a => s.Enabled xs a) {} (tr ++ [(a, ())]) s' := run.snoc enabled next
  have first := snoc [] {} { state := { waiting := 1, maxCommitVersion := 3 }, called := 1 } (.call .ready) .init
    ⟨rfl, .ok 3, rfl, nofun⟩ rfl
  have second := snoc _ _ { state := { waiting := 2, maxCommitVersion := 3 }, called := 2, pending := [1] } (.call .pending) first
    ⟨rfl, .ok 7, rfl, nofun⟩ rfl
  have ends := snoc _ _ { state := { waiting := 1, maxCommitVersion := 3 }, called := 2, pending := [1], ended := true } .loopEnds
    second ⟨rfl, rfl, nofun⟩ rfl
  have third := snoc _ _ { state := { pr := some (.ok 7), maxCommitVersion := 7 }, called := 2, ended := true } (.completed 1) ends
    mem_cons_self rfl
  exact ⟨_, _, third, rfl, (moon_parallel_for_each_resolves xs _ _ third).2.2.1 _ rfl⟩

end ScyllaMoon.Future
