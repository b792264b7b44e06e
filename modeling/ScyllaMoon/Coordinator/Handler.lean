import ScyllaMoon.Lib.Run

/-!
# Write response handlers

The coordinator of a write keeps a handler that counts the acknowledgements of the replicas until the
consistency level is reached. The three handlers of `storage_proxy.cc` differ in the acknowledgements
they count: all of them, those of the local datacenter, or for each datacenter as many as it has to give.
-/

namespace ScyllaMoon.Coordinator

open Lib

/-- `db::consistency_level` -/
inductive ConsistencyLevel where
  | any | one | two | three | quorum | all | localQuorum | eachQuorum | serial | localSerial | localOne
  deriving DecidableEq, Repr

/-- Failed assertions and undefined behaviour of the coordinator. -/
inductive Fault where
  | unknownTarget
  | endIterator
  | promiseSetTwice
  deriving DecidableEq, Repr

/-- The computation ends in `P`, or in a fault other than a promise that is resolved twice. -/
def Safe {α : Type} (P : α → Prop) : Except Fault α → Prop
  | .ok a => P a
  | .error e => e ≠ .promiseSetTwice

theorem Safe.bind {α β : Type} {P : α → Prop} {Q : β → Prop} {x : Except Fault α} {f : α → Except Fault β}
    (h : Safe P x) (next : ∀ a, P a → Safe Q (f a)) : Safe Q (x >>= f) := by
  cases x with
  | ok a => exact next a h
  | error e => exact h

theorem Safe.of_ok {α : Type} {P : α → Prop} {x : Except Fault α} {a : α} (h : Safe P x) (eq : x = .ok a) : P a := by
  subst eq
  exact h

/-- What the snitch knows of the endpoints `E`. -/
class Snitch (E : Type) (DC : outParam Type) where
  getDatacenter : E → DC
  broadcastAddress : E

/-- `abstract_replication_strategy`: a `network_topology_strategy` has a factor for each datacenter of its
options, of any other one only the replication factor matters. -/
inductive ReplicationStrategy (DC : Type) where
  | networkTopology (factors : List (DC × Nat))
  | other (replicationFactor : Nat)

namespace ReplicationStrategy

variable {E DC : Type} [DecidableEq DC]

/-- `network_topology_strategy::get_replication_factor(dc)` -/
def dcFactor (factors : List (DC × Nat)) (dc : DC) : Nat :=
  match factors.find? fun p => decide (p.1 = dc) with
  | some p => p.2
  | none => 0

omit [DecidableEq DC] in
/-- `get_replication_factor()` -/
def replicationFactor : ReplicationStrategy DC → Nat
  | networkTopology factors => (factors.map Prod.snd).sum
  | other n => n

variable (rs : ReplicationStrategy DC)

omit [DecidableEq DC] in
/-- `quorum_for` -/
def quorumFor : Nat := rs.replicationFactor / 2 + 1

/-- `local_quorum_for` -/
def localQuorumFor (dc : DC) : Nat :=
  match rs with
  | networkTopology factors => dcFactor factors dc / 2 + 1
  | other _ => rs.quorumFor

/-- `block_for_each_quorum` -/
def blockForEachQuorum : Nat :=
  match rs with
  | networkTopology factors => ((factors.map Prod.fst).map rs.localQuorumFor).sum
  | other _ => rs.quorumFor

/-- `block_for` -/
def blockFor (E : Type) [Snitch E DC] (rs : ReplicationStrategy DC) : ConsistencyLevel → Nat
  | .one | .localOne | .any => 1
  | .two => 2
  | .three => 3
  | .quorum | .serial => rs.quorumFor
  | .all => rs.replicationFactor
  | .localQuorum | .localSerial => rs.localQuorumFor (Snitch.getDatacenter (Snitch.broadcastAddress : E))
  | .eachQuorum => rs.blockForEachQuorum

end ReplicationStrategy

/-- Which acknowledgements a handler counts. `datacenterSync` is the handler of EACH_QUORUM, with the number
of acknowledgements it still counts from each datacenter, `_dc_responses`. -/
inductive HandlerKind (DC : Type) where
  | plain
  | datacenter
  | datacenterSync (dcResponses : DC → Option Nat)

/-- `abstract_write_response_handler` -/
structure Handler (E DC : Type) where
  kind : HandlerKind DC
  cl : ConsistencyLevel
  totalBlockFor : Nat
  targets : List E
  pendingEndpoints : Nat
  clAcks : Nat := 0
  clAchieved : Bool := false
  timedout : Bool := false
  throttled : Bool := false
  commitVersion : UInt32 := 0

namespace Handler

variable {E DC : Type} [DecidableEq E] [DecidableEq DC] [Snitch E DC] (rs : ReplicationStrategy DC)
variable (cl : ConsistencyLevel)

/-- The constructor of `abstract_write_response_handler` -/
def make (targets : List E) (pendingEndpoints : Nat) (kind : HandlerKind DC) : Handler E DC where
  kind
  cl
  -- during bootstrap, include pending endpoints in the count
  totalBlockFor := rs.blockFor E cl + pendingEndpoints
  targets
  pendingEndpoints

section

omit [DecidableEq E]

/-- `is_local` -/
def isLocal (ep : E) : Bool :=
  decide (Snitch.getDatacenter (Snitch.broadcastAddress : E) = Snitch.getDatacenter ep)

/-- How many of the endpoints are in one datacenter. -/
def countIn (eps : List E) (dc : DC) : Nat :=
  eps.countP fun ep => decide (Snitch.getDatacenter ep = dc)

/-- The responses that the handler of EACH_QUORUM counts from one datacenter. -/
def required (pending : List E) (dc : DC) : Nat :=
  rs.localQuorumFor dc + countIn pending dc

end

variable (targets pending : List E)

/-- The constructor of `write_response_handler` -/
def makePlain : Handler E DC :=
  make rs cl targets pending.length .plain

/-- The constructor of `datacenter_write_response_handler` -/
def makeDatacenter : Handler E DC :=
  make rs cl targets (pending.countP isLocal) .datacenter

omit [DecidableEq E] in
/-- The loop of the constructor of `datacenter_sync_write_response_handler` over the targets: the responses
to count from each datacenter, and the pending endpoints found. -/
def dcResponsesFor (pending : List E) (targets : List E) : (DC → Option Nat) × Nat :=
  targets.foldl (fun (s : (DC → Option Nat) × Nat) target =>
    let dc := Snitch.getDatacenter target
    if (s.1 dc).isNone then
      (Function.update s.1 dc (some (required rs pending dc)), s.2 + countIn pending dc)
    else s) (fun _ => none, 0)

/-- The constructor of `datacenter_sync_write_response_handler`. The base constructor is given no pending
endpoints; those found afterwards do not change what it waits for. -/
def makeDatacenterSync : Handler E DC :=
  let r := dcResponsesFor rs pending targets
  let h : Handler E DC := make rs cl targets 0 (.datacenterSync r.1)
  { h with pendingEndpoints := h.pendingEndpoints + r.2 }

/-- `is_datacenter_local` -/
def isDatacenterLocal : Bool :=
  decide (cl = .localOne ∨ cl = .localQuorum)

/-- `storage_proxy::create_write_response_handler`: the handler for a write. -/
def create : Handler E DC :=
  if isDatacenterLocal cl then makeDatacenter rs cl targets pending
  else match cl, rs with
    | .eachQuorum, .networkTopology _ => makeDatacenterSync rs cl targets pending
    | _, _ => makePlain rs cl targets pending

omit [DecidableEq E] in
theorem commitVersion_create : (create rs cl targets pending).commitVersion = 0 := by
  unfold create
  split
  · rfl
  · split <;> rfl

omit [DecidableEq E] in
theorem clAchieved_create : (create rs cl targets pending).clAchieved = false := by
  unfold create
  split
  · rfl
  · split <;> rfl

variable (h : Handler E DC)

/-- `signal(from)` up to the call of `signal()`: whether the acknowledgement counts. -/
def account (ep : E) : Except Fault (Handler E DC × Bool) :=
  match h.kind with
  | .plain => .ok (h, true)
  | .datacenter => .ok (h, decide (ep = Snitch.broadcastAddress) || isLocal ep)
  | .datacenterSync dcResponses => match dcResponses (Snitch.getDatacenter ep) with
    | none => .error .endIterator
    | some 0 => .ok (h, false)
    | some (n + 1) =>
      .ok ({ h with kind := .datacenterSync (Function.update dcResponses (Snitch.getDatacenter ep) (some n)) }, true)

omit [DecidableEq E] [DecidableEq DC] [Snitch E DC] in
/-- `signal(nr)`, apart from what happens when the consistency level is reached. -/
def signal (nr : Nat) : Handler E DC :=
  { h with clAcks := h.clAcks + nr, clAchieved := h.clAchieved || decide (h.totalBlockFor ≤ h.clAcks + nr) }

/-- `response(from)`, with whether the acknowledgement counted. -/
def response (ep : E) : Except Fault (Handler E DC × Bool) := do
  let (h, counted) ← h.account ep
  let h := if counted then h.signal 1 else h
  if ep ∈ h.targets then return ({ h with targets := h.targets.erase ep }, counted)
  else .error .unknownTarget

theorem account_spec (ep : E) : Safe (fun r => ∃ kind, r.1 = { h with kind }) (h.account ep) := by
  unfold account
  split
  · exact ⟨_, rfl⟩
  · exact ⟨_, rfl⟩
  · split
    · exact nofun
    · exact ⟨_, rfl⟩
    · exact ⟨_, rfl⟩

section

omit [DecidableEq E] [DecidableEq DC] [Snitch E DC]

/-- Enough of the acknowledgements were signalled, one number for each call of `signal`. -/
def Reached (acks : List Nat) : Prop := acks ≠ [] ∧ h.totalBlockFor ≤ acks.sum

/-- What the handler has of the acknowledgements that were signalled to it, and of its timer -/
structure Tally (acks : List Nat) (late : Bool) : Prop where
  count : h.clAcks = acks.sum
  achieved : h.clAchieved = true ↔ h.Reached acks
  timedout : h.timedout = late

end

variable {h} {acks : List Nat} {late : Bool}

omit [DecidableEq E] [DecidableEq DC] [Snitch E DC] in
theorem Tally.signal (tally : h.Tally acks late) (nr : Nat) : (h.signal nr).Tally (acks ++ [nr]) late where
  count := by simp [Handler.signal, tally.count]
  achieved := by
    simp only [Handler.signal, Bool.or_eq_true, decide_eq_true_eq, tally.achieved, tally.count, Reached, List.sum_append,
      List.sum_singleton]
    refine ⟨fun reached => ⟨by simp, ?_⟩, fun reached => .inr reached.2⟩
    omega
  timedout := tally.timedout

omit [DecidableEq E] in
theorem tally_create : (create rs cl targets pending).Tally [] false := by
  have none : ¬ (false = true) := Bool.false_ne_true
  unfold create
  split
  · exact ⟨rfl, iff_of_false none fun reached => reached.1 rfl, rfl⟩
  · split <;> exact ⟨rfl, iff_of_false none fun reached => reached.1 rfl, rfl⟩

variable (h)

/-- A response keeps the commit version, never takes success back and is tallied if it counts. -/
theorem response_spec (ep : E) : Safe (fun r => r.1.commitVersion = h.commitVersion ∧ r.1.throttled = h.throttled ∧
      (h.clAchieved = true → r.1.clAchieved = true) ∧
      ∀ acks late, h.Tally acks late → r.1.Tally (acks ++ if r.2 then [1] else []) late) (h.response ep) := by
  refine (h.account_spec ep).bind ?_
  rintro ⟨_, counted⟩ ⟨kind, rfl⟩
  dsimp only
  cases counted with
  | true =>
    rw [if_pos rfl]
    split
    · refine ⟨rfl, rfl, fun e => by simp [signal, e], fun acks late tally => ?_⟩
      exact ⟨(tally.signal 1).count, (tally.signal 1).achieved, tally.timedout⟩
    · exact nofun
  | false =>
    rw [if_neg Bool.false_ne_true]
    split
    · refine ⟨rfl, rfl, id, fun acks late tally => ?_⟩
      rw [if_neg Bool.false_ne_true, List.append_nil]
      exact ⟨tally.count, tally.achieved, tally.timedout⟩
    · exact nofun

end Handler

end ScyllaMoon.Coordinator
