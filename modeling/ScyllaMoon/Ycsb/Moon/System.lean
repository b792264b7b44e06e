import ScyllaMoon.Client.View
import ScyllaMoon.Ycsb.Table

/-!
# Clients of YCSB-moon

Any number of clients, each with its own `ClientView` and one operation at a time: a write of one key at the
version after the one it reads at, or a read of several keys at one version. The requests of an operation
arrive at the entries of their keys in any order, and an answer may arrive much later.
-/

namespace ScyllaMoon.Ycsb.Moon

open Lib Mutation Mvcc Client

variable {Cl K S Pos : Type}

/-- What a client is waiting for: a write that was sent, the answer to a write that arrived, or the columns
of a `multiget_slice`, some of which were read already. -/
inductive Pending (K : Type) where
  | idle
  | writing (k : K) (i : Insert) (version : Int)
  | written (commitVersion : UInt32)
  | reading (keys : List K) (version : Int) (fetched : List (K × List Column))

/-- The thread of a client. -/
structure Thread (K : Type) where
  view : ClientView := {}
  pending : Pending K := .idle

/-- The entries of the table and the clients. -/
structure State (Cl K S Pos : Type) where
  entries : K → Heap S (MutationPartition Pos Cell)
  clients : Cl → Thread K

inductive Event (Cl K : Type) where
  | startWrite (c : Cl) (k : K) (i : Insert)
  | arrive (c : Cl)
  | acknowledge (c : Cl)
  | startRead (c : Cl) (keys : List K)
  | fetch (c : Cl) (k : K)
  | finish (c : Cl)
  | drop (k : K) (s : SnapshotId)

/-- An operation that took effect: a write that arrived at its entry, or a transaction that is complete. -/
inductive Operation (Cl K : Type) where
  | write (c : Cl) (k : K) (i : Insert) (r : WriteResult)
  | read (c : Cl) (keys : List K) (version : Int) (result : List (K × List Column))

/-- The versions of the columns of one key, as `read` takes them over into the view. -/
def versions (e : K × List Column) : K × List Int :=
  (e.1, e.2.map fun c => javaInt c.mostRecentVersion)

variable [DecidableEq Cl] [DecidableEq K] [HashCode K] [Position Pos] [SchemaOps S Cell]

namespace State

/-- A client does its next step. -/
def update (s : State Cl K S Pos) (c : Cl) (t : Thread K) : State Cl K S Pos :=
  { s with clients := Function.update s.clients c t }

/-- One event, and the operation that took effect with it. An event that is not possible has no next state. -/
def step (schema : S) (now : Int) (s : State Cl K S Pos) :
    Event Cl K → Except (Option Fault) (State Cl K S Pos × Option (Operation Cl K))
  | .startWrite c k i => match (s.clients c).pending with
    | .idle => .ok (s.update c { s.clients c with
        pending := .writing k i ((s.clients c).view.getCurrentReadVersion false + 1) }, none)
    | _ => .error none
  | .arrive c => match (s.clients c).pending with
    | .writing k i version =>
      match (s.entries k).step (.applyView schema i.view schema (UInt32.ofNat version.toNat)) with
      | .ok (w, .write r) =>
        .ok ({ s with entries := Function.update s.entries k w }.update c { s.clients c with
          pending := .written r.commitVersion }, some (.write c k i r))
      | .ok _ => .error none
      | .error f => .error (some f)
    | _ => .error none
  | .acknowledge c => match (s.clients c).pending with
    | .written commitVersion => .ok (s.update c { s.clients c with
        view := (s.clients c).view.setCurrentVersionToRead (javaInt commitVersion)
        pending := .idle }, none)
    | _ => .error none
  | .startRead c keys => match (s.clients c).pending with
    | .idle =>
      let (view, version) := (s.clients c).view.getVersionToRead keys
      .ok (s.update c { view, pending := .reading keys version [] }, none)
    | _ => .error none
  | .fetch c k => match (s.clients c).pending with
    | .reading keys version fetched =>
      if k ∈ keys ∧ k ∉ fetched.map Prod.fst then
        match (s.entries k).step (.read schema defaultPhase (UInt32.ofNat version.toNat)) with
        | .ok (w, .snapshot _ _ p) =>
          .ok ({ s with entries := Function.update s.entries k w }.update c { s.clients c with
            pending := .reading keys version (fetched ++ [(k, columns now p)]) }, none)
        | .ok _ => .error none
        | .error f => .error (some f)
      else .error none
    | _ => .error none
  | .finish c => match (s.clients c).pending with
    | .reading keys version fetched =>
      if ∀ k ∈ keys, k ∈ fetched.map Prod.fst then
        .ok (s.update c { view := (fetched.map versions).foldl ClientView.seen (s.clients c).view },
          some (.read c keys version fetched))
      else .error none
    | _ => .error none
  | .drop k snapshot => match (s.entries k).step (.drop snapshot) with
    | .ok (w, _) => .ok ({ s with entries := Function.update s.entries k w }, none)
    | .error f => .error (some f)

/-- What one event does. -/
inductive Transition (schema : S) (now : Int) (s : State Cl K S Pos) :
    Event Cl K → State Cl K S Pos → Option (Operation Cl K) → Prop where
  | startWrite {c k i} : (s.clients c).pending = .idle → Transition schema now s (.startWrite c k i)
      (s.update c ⟨(s.clients c).view, .writing k i ((s.clients c).view.currentVersionToRead + 1)⟩) none
  | arrive {c k i version w r} : (s.clients c).pending = .writing k i version →
      (s.entries k).step (.applyView schema i.view schema (UInt32.ofNat version.toNat)) = .ok (w, .write r) →
      Transition schema now s (.arrive c)
        (update ⟨Function.update s.entries k w, s.clients⟩ c ⟨(s.clients c).view, .written r.commitVersion⟩)
        (some (.write c k i r))
  | acknowledge {c commitVersion} : (s.clients c).pending = .written commitVersion →
      Transition schema now s (.acknowledge c)
        (s.update c ⟨(s.clients c).view.setCurrentVersionToRead (javaInt commitVersion), .idle⟩) none
  | startRead {c keys} : (s.clients c).pending = .idle → Transition schema now s (.startRead c keys)
      (s.update c ⟨((s.clients c).view.getVersionToRead keys).1,
        .reading keys ((s.clients c).view.getVersionToRead keys).2 []⟩) none
  | fetch {c k keys version fetched w snapshot n p} : (s.clients c).pending = .reading keys version fetched →
      k ∈ keys →
      (s.entries k).step (.read schema defaultPhase (UInt32.ofNat version.toNat)) = .ok (w, .snapshot snapshot n p) →
      Transition schema now s (.fetch c k) (update ⟨Function.update s.entries k w, s.clients⟩ c
          ⟨(s.clients c).view, .reading keys version (fetched ++ [(k, columns now p)])⟩) none
  | finish {c keys version fetched} : (s.clients c).pending = .reading keys version fetched →
      (∀ k ∈ keys, k ∈ fetched.map Prod.fst) → Transition schema now s (.finish c)
        (s.update c ⟨(fetched.map versions).foldl ClientView.seen (s.clients c).view, .idle⟩)
        (some (.read c keys version fetched))
  | drop {k snapshot w o} : (s.entries k).step (.drop snapshot) = .ok (w, o) →
      Transition schema now s (.drop k snapshot) { s with entries := Function.update s.entries k w } none

theorem transition {schema : S} {now : Int} {s s' : State Cl K S Pos} {e : Event Cl K} {o : Option (Operation Cl K)}
    (h : s.step schema now e = .ok (s', o)) : s.Transition schema now e s' o := by
  cases e with
  | startWrite c k i =>
    simp only [step] at h
    split at h <;> cases h
    exact .startWrite ‹_›
  | arrive c =>
    simp only [step] at h
    repeat' split at h
    all_goals cases h
    exact .arrive ‹_› ‹_›
  | acknowledge c =>
    simp only [step] at h
    split at h <;> cases h
    exact .acknowledge ‹_›
  | startRead c keys =>
    simp only [step] at h
    split at h <;> cases h
    exact .startRead ‹_›
  | fetch c k =>
    simp only [step] at h
    repeat' split at h
    all_goals cases h
    exact .fetch ‹_› ‹_ ∧ _›.1 ‹_›
  | finish c =>
    simp only [step] at h
    repeat' split at h
    all_goals cases h
    exact .finish ‹_› ‹_›
  | drop k snapshot =>
    simp only [step] at h
    split at h <;> cases h
    exact .drop ‹_›

end State

end ScyllaMoon.Ycsb.Moon
