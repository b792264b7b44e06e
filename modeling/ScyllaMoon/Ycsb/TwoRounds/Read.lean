import ScyllaMoon.Mvcc.Register
import ScyllaMoon.Ycsb.Columns

/-!
# Two-round transactions

`ycsb-2rounds` reads its keys without a version, and if it finds versions that differ, it reads them again
at the greatest of them. The table is one `partition_entry` for each key; the requests of the other clients
and those of the reader come in any order.
-/

namespace ScyllaMoon.Ycsb.TwoRounds

open Lib Mutation Mvcc Function

variable {K S Pos : Type}

/-- Where `read` is: `turns` is the number of turns of the retry loop that are left. In a round, the columns
that were returned so far. -/
inductive Phase (K : Type) where
  | ready (turns : Nat)
  | first (turns : Nat) (fetched : List (K × List Column))
  | second (turns : Nat) (keysTs : Int) (fetched : List (K × List Column))
  | ok (result : List (K × List Column))
  | error

/-- The entries of the table and one call of `read`. -/
structure State (K S Pos : Type) where
  entries : K → Heap S (MutationPartition Pos Cell)
  phase : Phase K

/-- What can happen: a request of another client, a step of the reader, or an exception in it. -/
inductive Event (K : Type) where
  | write (k : K) (i : Insert) (version : UInt32)
  | read (k : K) (version : UInt32)
  | drop (k : K) (s : SnapshotId)
  | start
  | fetch (k : K)
  | endFirst
  | endSecond
  | exception
  | giveUp

/-- The loop that checks the first round: `keys_ts` and `inconsistent`. -/
def check (fetched : List (K × List Column)) : Int × Bool :=
  fetched.foldl (fun acc e =>
    let colsTs := columnsTs e.2
    (if colsTs > acc.1 then colsTs else acc.1, acc.2 || (colsTs != acc.1 && acc.1 != 0))) (0, false)

variable [DecidableEq K] [Position Pos] [SchemaOps S Cell]

namespace State

/-- A request to the entry of `k`. -/
def request (s : State K S Pos) (k : K) (op : Op S (MutationPartitionView Pos Cell) (MutationPartition Pos Cell)) :
    Except Fault (State K S Pos × Answer (MutationPartition Pos Cell)) := do
  let (w, o) ← (s.entries k).step op
  return ({ s with entries := update s.entries k w }, o)

/-- The reader gets the columns of `k` at a version. -/
def multiget (s : State K S Pos) (schema : S) (now : Int) (k : K) (version : UInt32) :
    Except Fault (State K S Pos × List Column) := do
  let (s, o) ← s.request k (.read schema defaultPhase version)
  match o with
  | .snapshot _ _ p => return (s, columns now p)
  | _ => .error .assertFailed

/-- One event of a `read` of `keys` in the table `schema`. The answer is that of a write. An event that is not
possible has no next state. -/
def step (schema : S) (now : Int) (keys : List K) (s : State K S Pos) :
    Event K → Except (Option Fault) (State K S Pos × Option WriteResult)
  | .write k i version => match s.request k (.applyView schema i.view schema version) with
    | .ok (s, .write r) => .ok (s, some r)
    | .ok _ => .error none
    | .error f => .error (some f)
  | .read k version => match s.request k (.read schema defaultPhase version) with
    | .ok (s, _) => .ok (s, none)
    | .error f => .error (some f)
  | .drop k snapshot => match s.request k (.drop snapshot) with
    | .ok (s, _) => .ok (s, none)
    | .error f => .error (some f)
  | .start => match s.phase with
    | .ready (turns + 1) => .ok ({ s with phase := .first turns [] }, none)
    | _ => .error none
  | .fetch k => match s.phase with
    | .first turns fetched =>
      if k ∈ keys ∧ k ∉ fetched.map Prod.fst then
        match s.multiget schema now k 0 with
        | .ok (s, cols) => .ok ({ s with phase := .first turns (fetched ++ [(k, cols)]) }, none)
        | .error f => .error (some f)
      else .error none
    | .second turns keysTs fetched =>
      if k ∈ keys ∧ k ∉ fetched.map Prod.fst then
        match s.multiget schema now k (UInt32.ofNat keysTs.toNat) with
        | .ok (s, cols) => .ok ({ s with phase := .second turns keysTs (fetched ++ [(k, cols)]) }, none)
        | .error f => .error (some f)
      else .error none
    | _ => .error none
  | .endFirst => match s.phase with
    | .first turns fetched =>
      if ∀ k ∈ keys, k ∈ fetched.map Prod.fst then
        match check fetched with
        | (keysTs, true) => .ok ({ s with phase := .second turns keysTs [] }, none)
        | (_, false) => .ok ({ s with phase := .ok fetched }, none)
      else .error none
    | _ => .error none
  | .endSecond => match s.phase with
    | .second _ _ fetched =>
      if ∀ k ∈ keys, k ∈ fetched.map Prod.fst then .ok ({ s with phase := .ok fetched }, none) else .error none
    | _ => .error none
  | .exception => match s.phase with
    | .first turns _ => .ok ({ s with phase := .ready turns }, none)
    | .second turns _ _ => .ok ({ s with phase := .ready turns }, none)
    | _ => .error none
  | .giveUp => match s.phase with
    | .ready 0 => .ok ({ s with phase := .error }, none)
    | _ => .error none

/-- What one event does. -/
inductive Transition (schema : S) (now : Int) (keys : List K) (s : State K S Pos) :
    Event K → State K S Pos → Option WriteResult → Prop where
  | write {k i version w r} : (s.entries k).step (.applyView schema i.view schema version) = .ok (w, .write r) →
      Transition schema now keys s (.write k i version) { s with entries := update s.entries k w } (some r)
  | read {k version w o} : (s.entries k).step (.read schema defaultPhase version) = .ok (w, o) →
      Transition schema now keys s (.read k version) { s with entries := update s.entries k w } none
  | drop {k snapshot w o} : (s.entries k).step (.drop snapshot) = .ok (w, o) →
      Transition schema now keys s (.drop k snapshot) { s with entries := update s.entries k w } none
  | start {turns} : s.phase = .ready (turns + 1) →
      Transition schema now keys s .start { s with phase := .first turns [] } none
  | fetchFirst {k turns fetched w snapshot n p} : s.phase = .first turns fetched → k ∈ keys →
      (s.entries k).step (.read schema defaultPhase 0) = .ok (w, .snapshot snapshot n p) →
      Transition schema now keys s (.fetch k)
        ⟨update s.entries k w, .first turns (fetched ++ [(k, columns now p)])⟩ none
  | fetchSecond {k turns keysTs fetched w snapshot n p} : s.phase = .second turns keysTs fetched → k ∈ keys →
      (s.entries k).step (.read schema defaultPhase (UInt32.ofNat keysTs.toNat)) = .ok (w, .snapshot snapshot n p) →
      Transition schema now keys s (.fetch k)
        ⟨update s.entries k w, .second turns keysTs (fetched ++ [(k, columns now p)])⟩ none
  | again {turns fetched keysTs} : s.phase = .first turns fetched → (∀ k ∈ keys, k ∈ fetched.map Prod.fst) →
      check fetched = (keysTs, true) → Transition schema now keys s .endFirst { s with phase := .second turns keysTs [] } none
  | accept {turns fetched keysTs} : s.phase = .first turns fetched → (∀ k ∈ keys, k ∈ fetched.map Prod.fst) →
      check fetched = (keysTs, false) → Transition schema now keys s .endFirst { s with phase := .ok fetched } none
  | done {turns keysTs fetched} : s.phase = .second turns keysTs fetched → (∀ k ∈ keys, k ∈ fetched.map Prod.fst) →
      Transition schema now keys s .endSecond { s with phase := .ok fetched } none
  | retry {turns} : Transition schema now keys s .exception { s with phase := .ready turns } none
  | giveUp : Transition schema now keys s .giveUp { s with phase := .error } none

variable {s s' : State K S Pos}

theorem request_ok {k : K}
    {op : Op S (MutationPartitionView Pos Cell) (MutationPartition Pos Cell)} {o : Answer (MutationPartition Pos Cell)}
    (h : s.request k op = .ok (s', o)) :
    ∃ w, (s.entries k).step op = .ok (w, o) ∧ s' = { s with entries := update s.entries k w } := by
  obtain ⟨⟨w, _⟩, served, h⟩ := bind_eq_ok.1 h
  cases h
  exact ⟨w, served, rfl⟩

theorem multiget_ok {schema : S} {now : Int} {k : K} {version : UInt32} {cols : List Column}
    (h : s.multiget schema now k version = .ok (s', cols)) :
    ∃ w snapshot n p, (s.entries k).step (.read schema defaultPhase version) = .ok (w, .snapshot snapshot n p) ∧
      s' = { s with entries := update s.entries k w } ∧ cols = columns now p := by
  obtain ⟨⟨_, o⟩, served, h⟩ := bind_eq_ok.1 h
  dsimp only at h
  split at h <;> cases h
  obtain ⟨w, hw, rfl⟩ := request_ok served
  exact ⟨w, _, _, _, hw, rfl, rfl⟩

theorem transition {schema : S} {now : Int} {keys : List K} {e : Event K}
    {o : Option WriteResult} (h : s.step schema now keys e = .ok (s', o)) : s.Transition schema now keys e s' o := by
  cases e with
  | write k i version =>
    simp only [step] at h
    split at h <;> cases h
    obtain ⟨w, hw, rfl⟩ := request_ok ‹_›
    exact .write hw
  | read k version =>
    simp only [step] at h
    split at h <;> cases h
    obtain ⟨w, hw, rfl⟩ := request_ok ‹_›
    exact .read hw
  | drop k snapshot =>
    simp only [step] at h
    split at h <;> cases h
    obtain ⟨w, hw, rfl⟩ := request_ok ‹_›
    exact .drop hw
  | start =>
    simp only [step] at h
    split at h <;> cases h
    exact .start ‹_›
  | fetch k =>
    simp only [step] at h
    repeat' split at h
    all_goals cases h
    all_goals obtain ⟨w, _, _, _, hw, rfl, rfl⟩ := multiget_ok ‹_›
    · exact .fetchFirst ‹_› ‹_ ∧ _›.1 hw
    · exact .fetchSecond ‹_› ‹_ ∧ _›.1 hw
  | endFirst =>
    simp only [step] at h
    repeat' split at h
    all_goals cases h
    · exact .again ‹_› ‹_› ‹_›
    · exact .accept ‹_› ‹_› ‹_›
  | endSecond =>
    simp only [step] at h
    repeat' split at h
    all_goals cases h
    exact .done ‹_› ‹_›
  | exception =>
    simp only [step] at h
    split at h <;> cases h
    all_goals exact .retry
  | giveUp =>
    simp only [step] at h
    split at h <;> cases h
    exact .giveUp

end State

end ScyllaMoon.Ycsb.TwoRounds
