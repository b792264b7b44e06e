import ScyllaMoon.Lib.Cycle
import ScyllaMoon.Locator.TokenMetadata

/-!
# Replication strategies

The replicas of a token are found on a walk around the ring that starts at the first token not below it.
`simple_strategy` takes the first endpoints that it meets. `network_topology_strategy` counts them by
datacenter and prefers racks that it has not seen; when it has seen all of them it goes back to the
endpoints it skipped.
-/

namespace ScyllaMoon.Locator

open Lib List

variable {T Ep Dc Rack : Type}

/-- Why the ring cannot be asked. -/
inductive RingFault where
  | sortedTokensEmpty
  | tokenWithoutEndpoint
  | tokenNotFound
  | noClusterMembers
  deriving DecidableEq, Repr

namespace TokenMetadata

variable [LinearOrder T]

/-- `first_token_index`, for a ring that has tokens -/
def firstIndex (tokens : List T) (start : T) : Nat :=
  let i := (tokens.takeWhile fun t => decide (t < start)).length
  if i = tokens.length then 0 else i

/-- `ring_range(start)` -/
def ringRange (tm : TokenMetadata T Ep Dc Rack) (start : T) : Except RingFault (List T) :=
  if tm.sortedTokens.isEmpty then .error .sortedTokensEmpty
  else .ok (walk tm.sortedTokens (firstIndex tm.sortedTokens start) tm.sortedTokens.length)

/-- `get_endpoint` -/
def getEndpoint (tm : TokenMetadata T Ep Dc Rack) (t : T) : Option Ep :=
  (tm.tokenToEndpoint.find? fun p => decide (p.1 = t)).map Prod.snd

end TokenMetadata

/-- `sequenced_set::push_back` -/
def pushBack [DecidableEq Ep] (l : List Ep) (ep : Ep) : List Ep := if ep ∈ l then l else l ++ [ep]

section PushBack

variable [DecidableEq Ep] {l : List Ep} {ep ep' : Ep}

theorem mem_pushBack : ep' ∈ pushBack l ep ↔ ep' = ep ∨ ep' ∈ l := by
  unfold pushBack
  split
  next mem =>
    exact ⟨.inr, fun h => h.elim (· ▸ mem) id⟩
  · simp [or_comm]

theorem nodup_pushBack (nodup : l.Nodup) : (pushBack l ep).Nodup := by
  unfold pushBack
  split
  · exact nodup
  next new =>
    exact nodup_append.2 ⟨nodup, nodup_singleton _, by
      rintro a ha b hb rfl
      exact new (mem_singleton.1 hb ▸ ha)⟩

theorem pushBack_grows : l <+: pushBack l ep := by
  unfold pushBack
  split
  · exact prefix_rfl
  · exact prefix_append _ _

end PushBack

namespace SimpleStrategy

variable [LinearOrder T] [DecidableEq Ep]

/-- The loop of `simple_strategy::calculate_natural_endpoints` -/
def collect (tm : TokenMetadata T Ep Dc Rack) (replicas : Nat) : List Ep → List T → Except RingFault (List Ep)
  | endpoints, [] => .ok endpoints
  | endpoints, t :: ts => match tm.getEndpoint t with
    | none => .error .tokenWithoutEndpoint
    | some ep =>
      let endpoints := pushBack endpoints ep
      if endpoints.length = replicas then .ok endpoints else collect tm replicas endpoints ts

/-- `simple_strategy::calculate_natural_endpoints` -/
def calculateNaturalEndpoints (replicationFactor : Nat) (t : T) (tm : TokenMetadata T Ep Dc Rack) :
    Except RingFault (List Ep) :=
  if tm.sortedTokens.isEmpty then .ok [] else do collect tm replicationFactor [] (← tm.ringRange t)

end SimpleStrategy

/-- What `network_topology_strategy` has found. -/
structure Placement (Ep Dc Rack : Type) where
  replicas : List Ep := []
  dcReplicas : Dc → Finset Ep := fun _ => ∅
  seenRacks : Dc → Finset Rack := fun _ => ∅
  skippedDcEndpoints : Dc → List Ep := fun _ => []

namespace NetworkTopologyStrategy

variable [LinearOrder T] [DecidableEq Ep] [DecidableEq Dc] [DecidableEq Rack]
variable (dcRepFactor : Finmap fun _ : Dc => Nat) (snitch : Snitch Ep Dc Rack) (tp : Topology Ep Dc Rack)

/-- `get_replication_factor(dc)` -/
def getReplicationFactor (dc : Dc) : Nat := (dcRepFactor.lookup dc).getD 0

variable (s : Placement Ep Dc Rack)

/-- `has_sufficient_replicas(dc, dc_replicas, all_endpoints)` -/
def hasSufficientReplicas (dc : Dc) : Bool :=
  decide (min (tp.endpointsOf dc).card (getReplicationFactor dcRepFactor dc) ≤ (s.dcReplicas dc).card)

/-- The endpoint becomes a replica. -/
def addReplica (dc : Dc) (ep : Ep) : Placement Ep Dc Rack :=
  { s with
    dcReplicas := Function.update s.dcReplicas dc (insert ep (s.dcReplicas dc))
    replicas := pushBack s.replicas ep }

/-- The endpoints that were skipped are added while there are too few replicas. -/
def addSkipped (dc : Dc) : Placement Ep Dc Rack → List Ep → Placement Ep Dc Rack
  | s, [] => s
  | s, skipped :: rest =>
    if hasSufficientReplicas dcRepFactor tp s dc then s else addSkipped dc (addReplica s dc skipped) rest

/-- All racks of the datacenter were seen. -/
def sawAllRacks (dc : Dc) : Bool :=
  decide ((s.seenRacks dc).card = (tp.racksOf dc).keys.card)

/-- The body of the loop of `calculate_natural_endpoints` -/
def visit (ep : Ep) : Placement Ep Dc Rack :=
  let dc := snitch.getDatacenter ep
  -- have we already found all replicas for this dc?
  if dc ∉ dcRepFactor ∨ hasSufficientReplicas dcRepFactor tp s dc then s
  else if sawAllRacks tp s dc then addReplica s dc ep
  else
    let rack := snitch.getRack ep
    if rack ∈ s.seenRacks dc then
      { s with skippedDcEndpoints := Function.update s.skippedDcEndpoints dc (pushBack (s.skippedDcEndpoints dc) ep) }
    else
      let s := addReplica s dc ep
      let s := { s with seenRacks := Function.update s.seenRacks dc (insert rack (s.seenRacks dc)) }
      -- if we've run out of distinct racks, add the hosts we skipped past already (up to RF)
      if sawAllRacks tp s dc then addSkipped dcRepFactor tp dc s (s.skippedDcEndpoints dc) else s

/-- `has_sufficient_replicas(dc_replicas, all_endpoints)` -/
def hasAllReplicas : Bool :=
  decide (∀ dc ∈ dcRepFactor.keys, hasSufficientReplicas dcRepFactor tp s dc = true)

/-- The loop of `calculate_natural_endpoints` -/
def place (tm : TokenMetadata T Ep Dc Rack) : Placement Ep Dc Rack → List T → Except RingFault (List Ep)
  | s, [] => .ok s.replicas
  | s, t :: ts =>
    if hasAllReplicas dcRepFactor tm.topology s then .ok s.replicas
    else match tm.getEndpoint t with
      | none => .error .tokenWithoutEndpoint
      | some ep => place tm (visit dcRepFactor snitch tm.topology s ep) ts

/-- `network_topology_strategy::calculate_natural_endpoints` -/
def calculateNaturalEndpoints (searchToken : T) (tm : TokenMetadata T Ep Dc Rack) : Except RingFault (List Ep) :=
  if tm.topology.dcEndpoints.keys = ∅ ∨ tm.topology.dcRacks.keys = ∅ then .error .noClusterMembers
  else do place dcRepFactor snitch tm {} (← tm.ringRange searchToken)

end NetworkTopologyStrategy

/-- `abstract_replication_strategy` -/
inductive Strategy (Ep Dc : Type) where
  | simpleStrategy (replicationFactor : Nat)
  | networkTopologyStrategy (dcRepFactor : Finmap fun _ : Dc => Nat)
  | localStrategy (broadcastAddress : Ep)
  | everywhereStrategy

/-- `calculate_natural_endpoints` -/
def Strategy.calculateNaturalEndpoints [LinearOrder T] [DecidableEq Ep] [DecidableEq Dc] [DecidableEq Rack]
    (strategy : Strategy Ep Dc) (snitch : Snitch Ep Dc Rack) (t : T) (tm : TokenMetadata T Ep Dc Rack) :
    Except RingFault (List Ep) :=
  match strategy with
  | .simpleStrategy replicationFactor => SimpleStrategy.calculateNaturalEndpoints replicationFactor t tm
  | .networkTopologyStrategy dcRepFactor =>
    NetworkTopologyStrategy.calculateNaturalEndpoints dcRepFactor snitch t tm
  | .localStrategy broadcastAddress => .ok [broadcastAddress]
  | .everywhereStrategy => .ok tm.endpointToHostId

namespace TokenMetadata

variable [LinearOrder T] [DecidableEq Ep] [DecidableEq Dc] [DecidableEq Rack]

/-- The owners of the ring, from the first token not below `start` around. -/
def ownersFrom (tm : TokenMetadata T Ep Dc Rack) (start : T) : List (T × Ep) :=
  clockwise (fun p => decide (p.1 < start)) tm.tokenToEndpoint

variable {tm : TokenMetadata T Ep Dc Rack}

section

omit [DecidableEq Ep] [DecidableEq Dc] [DecidableEq Rack]

/-- The walk goes around the ring and comes back to the first token. -/
theorem ringRange_eq (some : tm.sortedTokens ≠ []) (start : T) :
    tm.ringRange start = .ok (cycleFrom tm.sortedTokens start ++ (cycleFrom tm.sortedTokens start).take 1) := by
  unfold TokenMetadata.ringRange firstIndex
  rw [if_neg (by simpa using some), walk_length _ some]
  rfl

theorem Ordered.pairwise (ordered : tm.Ordered) : tm.sortedTokens.Pairwise (· < ·) := by
  rw [ordered.tokens]
  exact pairwise_map.2 ordered.sorted

/-- In an ordered ring the walk meets the owners in turn. -/
theorem Ordered.ringRange (ordered : tm.Ordered) (some : tm.sortedTokens ≠ []) (start : T) :
    tm.ringRange start = .ok ((tm.ownersFrom start ++ (tm.ownersFrom start).take 1).map Prod.fst) := by
  rw [ringRange_eq some, map_append, map_take, ordered.tokens, cycleFrom, clockwise_map]
  rfl

theorem Ordered.getEndpoint (ordered : tm.Ordered) {p : T × Ep} (mem : p ∈ tm.tokenToEndpoint) :
    tm.getEndpoint p.1 = some p.2 := by
  have sorted : Sorted Prod.fst tm.tokenToEndpoint := ordered.sorted
  rw [TokenMetadata.getEndpoint, sorted.mem_iff_find?.1 mem]
  rfl

end

/-- The ring has tokens, in order, and each of them belongs to an endpoint of the topology. -/
structure Populated (tm : TokenMetadata T Ep Dc Rack) : Prop extends Ordered tm where
  agrees : tm.topology.Agrees
  nonempty : tm.sortedTokens ≠ []
  owners : ∀ p ∈ tm.tokenToEndpoint, (tm.topology.currentLocations.lookup p.2).isSome = true

theorem Populated.members (populated : tm.Populated) :
    ¬ (tm.topology.dcEndpoints.keys = ∅ ∨ tm.topology.dcRacks.keys = ∅) := by
  have some : tm.tokenToEndpoint ≠ [] := fun none => populated.nonempty (by rw [populated.tokens, none]; rfl)
  obtain ⟨p, hp⟩ := exists_mem_of_ne_nil _ some
  obtain ⟨loc, there⟩ := Option.isSome_iff_exists.1 (populated.owners p hp)
  have member := populated.agrees.endpoints.2 ⟨_, there⟩
  have rack := populated.agrees.racks.2 there
  rintro (none | none)
  · have absent : tm.topology.dcEndpoints.lookup loc.1 = .none :=
      Finmap.lookup_eq_none.2 fun mem => by simp [← Finmap.mem_keys, none] at mem
    simp [Topology.endpointsOf, absent] at member
  · have absent : tm.topology.dcRacks.lookup loc.1 = .none :=
      Finmap.lookup_eq_none.2 fun mem => by simp [← Finmap.mem_keys, none] at mem
    simp [Topology.endpointsAt, Topology.racksOf, absent] at rack

omit [DecidableEq Ep] [DecidableEq Dc] [DecidableEq Rack] in
theorem mem_walk_owners {start : T} {p : T × Ep} (mem : p ∈ tm.ownersFrom start ++ (tm.ownersFrom start).take 1) :
    p ∈ tm.tokenToEndpoint := by
  rcases mem_append.1 mem with mem | mem
  · exact mem_clockwise.1 mem
  · exact mem_clockwise.1 (mem_of_mem_take mem)

end TokenMetadata

namespace SimpleStrategy

variable [LinearOrder T] [DecidableEq Ep] {tm : TokenMetadata T Ep Dc Rack}

/-- The first so many endpoints of a list, each once -/
def firstDistinct (replicas : Nat) : List Ep → List Ep → List Ep
  | endpoints, [] => endpoints
  | endpoints, ep :: eps =>
    if (pushBack endpoints ep).length = replicas then pushBack endpoints ep
    else firstDistinct replicas (pushBack endpoints ep) eps

theorem collect_eq (ordered : tm.Ordered) (replicas : Nat) {owners : List (T × Ep)}
    (mem : ∀ p ∈ owners, p ∈ tm.tokenToEndpoint) (endpoints : List Ep) :
    collect tm replicas endpoints (owners.map Prod.fst) = .ok (firstDistinct replicas endpoints (owners.map Prod.snd)) := by
  induction owners generalizing endpoints with
  | nil => rfl
  | cons p owners ih =>
    obtain ⟨first, mem⟩ := forall_mem_cons.1 mem
    rw [map_cons, map_cons, collect, firstDistinct, ordered.getEndpoint first]
    dsimp only
    split
    · rfl
    · exact ih mem _

theorem calculateNaturalEndpoints_eq (ordered : tm.Ordered) (some : tm.sortedTokens ≠ []) (replicas : Nat) (t : T) :
    calculateNaturalEndpoints replicas t tm =
      .ok (firstDistinct replicas [] ((tm.ownersFrom t ++ (tm.ownersFrom t).take 1).map Prod.snd)) := by
  rw [calculateNaturalEndpoints, if_neg (by simpa using some), ordered.ringRange some]
  exact collect_eq ordered replicas (fun p hp => TokenMetadata.mem_walk_owners hp) []

end SimpleStrategy

namespace NetworkTopologyStrategy

variable [LinearOrder T] [DecidableEq Ep] [DecidableEq Dc] [DecidableEq Rack] {dcRepFactor : Finmap fun _ : Dc => Nat}
  {snitch : Snitch Ep Dc Rack} {tm : TokenMetadata T Ep Dc Rack} {tp : Topology Ep Dc Rack} {s : Placement Ep Dc Rack}

section

variable (enough : ∀ dc ∈ dcRepFactor.keys, hasSufficientReplicas dcRepFactor tp s dc = true)
include enough

/-- Nothing changes where there are enough replicas. -/
theorem visit_of_sufficient {ep : Ep}
    :
    visit dcRepFactor snitch tp s ep = s := by
  unfold visit
  rw [if_pos]
  by_cases configured : snitch.getDatacenter ep ∈ dcRepFactor
  · exact .inr (enough _ (Finmap.mem_keys.2 configured))
  · exact .inl configured

theorem foldl_visit_of_sufficient (eps : List Ep) : eps.foldl (visit dcRepFactor snitch tp) s = s := by
  induction eps with
  | nil => rfl
  | cons ep eps ih => rw [foldl_cons, visit_of_sufficient enough, ih]

end

/-- The walk stops early only when nothing can change any more. -/
theorem place_eq_foldl (ordered : tm.Ordered) {owners : List (T × Ep)} (mem : ∀ p ∈ owners, p ∈ tm.tokenToEndpoint)
    (s : Placement Ep Dc Rack) : place dcRepFactor snitch tm s (owners.map Prod.fst) =
      .ok ((owners.map Prod.snd).foldl (visit dcRepFactor snitch tm.topology) s).replicas := by
  induction owners generalizing s with
  | nil => rfl
  | cons p owners ih =>
    obtain ⟨first, mem⟩ := forall_mem_cons.1 mem
    rw [map_cons, place, ordered.getEndpoint first]
    split_ifs with enough
    · rw [foldl_visit_of_sufficient (of_decide_eq_true enough)]
    · exact ih mem _

theorem calculateNaturalEndpoints_eq (populated : tm.Populated) (searchToken : T) :
    calculateNaturalEndpoints dcRepFactor snitch searchToken tm =
      .ok ((tm.ownersFrom searchToken ++ (tm.ownersFrom searchToken).take 1).map Prod.snd |>.foldl
        (visit dcRepFactor snitch tm.topology) {}).replicas := by
  rw [calculateNaturalEndpoints, if_neg populated.members, populated.ringRange populated.nonempty]
  exact place_eq_foldl populated.toOrdered (fun p hp => TokenMetadata.mem_walk_owners hp) {}

end NetworkTopologyStrategy

namespace Strategy

variable [LinearOrder T] [DecidableEq Ep] [DecidableEq Dc] [DecidableEq Rack] {tm : TokenMetadata T Ep Dc Rack}

/-- Every token has natural endpoints, though perhaps none. -/
theorem exists_naturalEndpoints (populated : tm.Populated) (strategy : Strategy Ep Dc) (snitch : Snitch Ep Dc Rack) (t : T) :
    ∃ eps, strategy.calculateNaturalEndpoints snitch t tm = .ok eps := by
  cases strategy with
  | simpleStrategy replicationFactor =>
    exact ⟨_, SimpleStrategy.calculateNaturalEndpoints_eq populated.toOrdered populated.nonempty _ t⟩
  | networkTopologyStrategy dcRepFactor => exact ⟨_, NetworkTopologyStrategy.calculateNaturalEndpoints_eq populated t⟩
  | localStrategy broadcastAddress | everywhereStrategy => exact ⟨_, rfl⟩

/-- A token has the natural endpoints of the first token of the ring not below it. -/
theorem naturalEndpoints_successor (some : tm.sortedTokens ≠ []) (strategy : Strategy Ep Dc) (snitch : Snitch Ep Dc Rack)
    {t tok : T} (next : successor tm.sortedTokens t = .some tok) :
    strategy.calculateNaturalEndpoints snitch t tm = strategy.calculateNaturalEndpoints snitch tok tm := by
  have range : tm.ringRange t = tm.ringRange tok := by
    rw [TokenMetadata.ringRange_eq some, TokenMetadata.ringRange_eq some, cycleFrom_successor next]
  cases strategy with
  | simpleStrategy replicationFactor =>
    simp only [calculateNaturalEndpoints, SimpleStrategy.calculateNaturalEndpoints, range]
  | networkTopologyStrategy dcRepFactor =>
    simp only [calculateNaturalEndpoints, NetworkTopologyStrategy.calculateNaturalEndpoints, range]
  | localStrategy broadcastAddress => rfl
  | everywhereStrategy => rfl

end Strategy

end ScyllaMoon.Locator
