import ScyllaMoon.Lib.Run
import ScyllaMoon.Lib.Sorted
import ScyllaMoon.Locator.Topology

/-!
# The token ring

`token_metadata` knows which endpoint owns each token of the ring, which endpoints are about to join, to
leave or to move, and where the endpoints are. `_sorted_tokens` repeats the tokens of the ring; it is made
anew after a change, if the change is found to matter.
-/

namespace ScyllaMoon.Locator

open Lib List

variable {T Ep Dc Rack : Type}

/-- `token_metadata`. `_token_to_endpoint_map` is listed in the order of its tokens, the other maps and sets are in
the order of their iteration. Of `_endpoint_to_host_id_map` only the endpoints are read. -/
structure TokenMetadata (T Ep Dc Rack : Type) where
  tokenToEndpoint : List (T × Ep) := []
  endpointToHostId : List Ep := []
  bootstrapTokens : List (T × Ep) := []
  leavingEndpoints : List Ep := []
  movingEndpoints : List (T × Ep) := []
  sortedTokens : List T := []
  topology : Topology Ep Dc Rack := {}

open Prod (fst)

/-- Tokens for each of several endpoints -/
abbrev EndpointTokens (T Ep : Type) := { entries : List (Ep × List T) // (entries.map fst).Nodup }

/-- `remove_by_value` -/
def removeByValue [DecidableEq Ep] (container : List (T × Ep)) (ep : Ep) : List (T × Ep) :=
  container.filter fun p => decide (p.2 ≠ ep)

/-- `map[t] = ep` for an unordered map: a new token comes first. -/
def assign [DecidableEq T] (container : List (T × Ep)) (t : T) (ep : Ep) : List (T × Ep) :=
  if container.any fun p => decide (p.1 = t) then
    container.map fun p => if p.1 = t then (t, ep) else p
  else (t, ep) :: container

namespace TokenMetadata

/-- `sort_tokens` -/
def sortTokens (tm : TokenMetadata T Ep Dc Rack) : List T := tm.tokenToEndpoint.map fst

/-- The endpoint is made the owner of the token. The flag is raised if the token had no owner. -/
def takeToken [LinearOrder T] (ep : Ep) (s : List (T × Ep) × Bool) (t : T) : List (T × Ep) × Bool :=
  (upsert fst (t, ep) (fun old => (old.1, ep)) s.1, s.2 || !s.1.any fun p => decide (p.1 = t))

def takeTokens [LinearOrder T] (ep : Ep) (s : List (T × Ep) × Bool) (tokens : List T) : List (T × Ep) × Bool :=
  tokens.foldl (takeToken ep) s

variable [LinearOrder T] [DecidableEq Ep] [DecidableEq Dc] [DecidableEq Rack] (tm : TokenMetadata T Ep Dc Rack)
variable (snitch : Snitch Ep Dc Rack)

/-- The body of the loop of `update_normal_tokens` -/
def updateEndpoint (shouldSortTokens : Bool) (ep : Ep) (tokens : List T) : TokenMetadata T Ep Dc Rack × Bool :=
  let taken := takeTokens ep (removeByValue tm.tokenToEndpoint ep, shouldSortTokens) tokens
  ({ tm with
      tokenToEndpoint := taken.1
      topology := tm.topology.addEndpoint snitch ep
      bootstrapTokens := removeByValue tm.bootstrapTokens ep
      leavingEndpoints := tm.leavingEndpoints.filter fun other => decide (other ≠ ep)
      movingEndpoints := removeByValue tm.movingEndpoints ep }, taken.2)

/-- The loop of `update_normal_tokens`, and whether it went through. An endpoint without tokens is an error. -/
def updateLoop (snitch : Snitch Ep Dc Rack) :
    TokenMetadata T Ep Dc Rack → Bool → List (Ep × List T) → TokenMetadata T Ep Dc Rack × Bool
  | tm, shouldSortTokens, [] => (if shouldSortTokens then { tm with sortedTokens := tm.sortTokens } else tm, true)
  | tm, shouldSortTokens, (ep, tokens) :: rest =>
    if tokens.isEmpty then (tm, false)
    else
      let r := tm.updateEndpoint snitch shouldSortTokens ep tokens
      updateLoop snitch r.1 r.2 rest

/-- `update_normal_tokens(endpoint_tokens)`, and whether it returned -/
def updateNormalTokens (endpointTokens : EndpointTokens T Ep) : TokenMetadata T Ep Dc Rack × Bool :=
  updateLoop snitch tm false endpointTokens.1

/-- `update_normal_tokens(tokens, endpoint)` -/
def updateNormalTokensOf (tokens : List T) (ep : Ep) : TokenMetadata T Ep Dc Rack :=
  if tokens.isEmpty then tm else (tm.updateNormalTokens snitch ⟨[(ep, tokens)], nodup_singleton _⟩).1

/-- `remove_endpoint` -/
def removeEndpoint (ep : Ep) : TokenMetadata T Ep Dc Rack :=
  let tm := { tm with
    bootstrapTokens := removeByValue tm.bootstrapTokens ep
    tokenToEndpoint := removeByValue tm.tokenToEndpoint ep
    topology := tm.topology.removeEndpoint ep
    leavingEndpoints := tm.leavingEndpoints.filter fun other => decide (other ≠ ep)
    endpointToHostId := tm.endpointToHostId.filter fun other => decide (other ≠ ep) }
  { tm with sortedTokens := tm.sortTokens }

/-- `add_bootstrap_tokens`, and whether it returned. A token of somebody else is an error. -/
def addBootstrapTokens (tokens : List T) (ep : Ep) : TokenMetadata T Ep Dc Rack × Bool :=
  let collides := fun t => (tm.bootstrapTokens ++ tm.tokenToEndpoint).any fun p => decide (p.1 = t ∧ p.2 ≠ ep)
  if tokens.any collides then (tm, false)
  else
    let others := removeByValue tm.bootstrapTokens ep
    ({ tm with bootstrapTokens := tokens.foldl (fun container t => assign container t ep) others }, true)

/-- `update_host_id` -/
def updateHostId (ep : Ep) : TokenMetadata T Ep Dc Rack :=
  { tm with endpointToHostId := tm.endpointToHostId.insert ep }

/-- `add_leaving_endpoint` -/
def addLeavingEndpoint (ep : Ep) : TokenMetadata T Ep Dc Rack :=
  { tm with leavingEndpoints := tm.leavingEndpoints.insert ep }

/-- `add_moving_endpoint` -/
def addMovingEndpoint (t : T) (ep : Ep) : TokenMetadata T Ep Dc Rack :=
  { tm with movingEndpoints := assign tm.movingEndpoints t ep }

/-- `remove_from_moving` -/
def removeFromMoving (ep : Ep) : TokenMetadata T Ep Dc Rack :=
  { tm with movingEndpoints := removeByValue tm.movingEndpoints ep }

/-- `update_topology` -/
def updateTopology (snitch : Option (Snitch Ep Dc Rack)) (ep : Ep) : TokenMetadata T Ep Dc Rack :=
  { tm with topology := tm.topology.updateEndpoint snitch ep }

end TokenMetadata

/-- A change of the ring, with what the snitch says at that time. -/
inductive RingChange (T Ep Dc Rack : Type) where
  | updateNormalTokens (snitch : Snitch Ep Dc Rack) (endpointTokens : EndpointTokens T Ep)
  | removeEndpoint (ep : Ep)
  | addBootstrapTokens (tokens : List T) (ep : Ep)
  | updateHostId (ep : Ep)
  | addLeavingEndpoint (ep : Ep)
  | addMovingEndpoint (t : T) (ep : Ep)
  | removeFromMoving (ep : Ep)
  | updateTopology (snitch : Option (Snitch Ep Dc Rack)) (ep : Ep)

namespace TokenMetadata

variable [LinearOrder T] [DecidableEq Ep] [DecidableEq Dc] [DecidableEq Rack] (tm : TokenMetadata T Ep Dc Rack)

/-- One change. It is told whether the call returned; what it did before it threw stays. -/
def step : RingChange T Ep Dc Rack → Except Empty (TokenMetadata T Ep Dc Rack × Bool)
  | .updateNormalTokens snitch endpointTokens => .ok (tm.updateNormalTokens snitch endpointTokens)
  | .removeEndpoint ep => .ok (tm.removeEndpoint ep, true)
  | .addBootstrapTokens tokens ep => .ok (tm.addBootstrapTokens tokens ep)
  | .updateHostId ep => .ok (tm.updateHostId ep, true)
  | .addLeavingEndpoint ep => .ok (tm.addLeavingEndpoint ep, true)
  | .addMovingEndpoint t ep => .ok (tm.addMovingEndpoint t ep, true)
  | .removeFromMoving ep => .ok (tm.removeFromMoving ep, true)
  | .updateTopology snitch ep => .ok (tm.updateTopology snitch ep, true)

/-- `_sorted_tokens` has the tokens of the ring in order. -/
structure Ordered : Prop where
  sorted : tm.tokenToEndpoint.Pairwise fun p q => p.1 < q.1
  tokens : tm.sortedTokens = tm.tokenToEndpoint.map fst

/-- What is expected of the ring: `_sorted_tokens` has its tokens in order, the maps of the topology describe
the same endpoints, and no rack is empty. -/
structure Consistent : Prop extends Ordered tm where
  agrees : tm.topology.Agrees
  inhabited : tm.topology.RacksInhabited

/-- The new tokens are noticed, or none is lost: one of them has no owner yet, or stays with its owner and is
given to nobody else, or no endpoint of the call has had tokens before. -/
def Noticed (entries : List (Ep × List T)) : Prop :=
  (∃ e ∈ entries, ∃ t ∈ e.2, t ∉ tm.tokenToEndpoint.map fst ∨
    (t, e.1) ∈ tm.tokenToEndpoint ∧ ∀ e' ∈ entries, t ∈ e'.2 → e' = e) ∨
  ∀ e ∈ entries, ∀ p ∈ tm.tokenToEndpoint, p.2 ≠ e.1

/-- Every rack that an endpoint leaves keeps one that does not leave it. -/
def RacksKept (tp : Topology Ep Dc Rack) (snitch : Snitch Ep Dc Rack) (eps : List Ep) : Prop :=
  ∀ ep ∈ eps, ∀ loc, tp.currentLocations.lookup ep = some loc → loc ≠ (snitch.getDatacenter ep, snitch.getRack ep) →
    ∃ other, tp.currentLocations.lookup other = some loc ∧
      (other ∈ eps → loc = (snitch.getDatacenter other, snitch.getRack other))

/-- The change is one after which the ring stays consistent. -/
def Careful : RingChange T Ep Dc Rack → Prop
  | .updateNormalTokens snitch endpointTokens =>
    (∀ e ∈ endpointTokens.1, e.2 ≠ []) ∧ tm.Noticed endpointTokens.1 ∧
      RacksKept tm.topology snitch (endpointTokens.1.map fst)
  | .removeEndpoint ep => tm.topology.Accompanied ep
  | .updateTopology snitch ep => ∀ s ∈ snitch, RacksKept tm.topology s [ep]
  | _ => True

section Take

omit [DecidableEq Ep] [DecidableEq Dc] [DecidableEq Rack]

variable {ep : Ep} {map : List (T × Ep)} {sort : Bool} {t : T} {tokens : List T}

theorem sorted_takeToken (sorted : Sorted fst map) : Sorted fst (takeToken ep (map, sort) t).1 :=
  sorted.upsert fun _ => rfl

theorem mem_takeToken (sorted : Sorted fst map) {p : T × Ep} :
    p ∈ (takeToken ep (map, sort) t).1 ↔ p = (t, ep) ∨ p.1 ≠ t ∧ p ∈ map := by
  rw [(sorted_takeToken sorted).mem_iff_find?, sorted.mem_iff_find?]
  have keeps : ∀ old : T × Ep, (old.1, ep).1 = old.1 := fun _ => rfl
  have lookup := find?_upsert (e := (t, ep)) sorted keeps p.1
  change (upsert fst (t, ep) (fun old => (old.1, ep)) map).find? _ = _ ↔ _
  rw [lookup]
  split
  next own =>
    cases found : map.find? fun q => decide (q.1 = p.1) with
    | none => simp [own, eq_comm]
    | some q =>
      have hq : q.1 = p.1 := by simpa using find?_some found
      simp only [Option.elim_some, Option.some.injEq, own, ne_eq, not_true_eq_false, false_and, or_false]
      rw [show (q.1, ep) = (t, ep) by rw [hq, own]]
      exact eq_comm
  next other =>
    have : p ≠ (t, ep) := fun e => other (congrArg fst e)
    simp [this, show p.1 ≠ t from other]

theorem keys_takeToken (sorted : Sorted fst map) (owned : t ∈ map.map fst) :
    (takeToken ep (map, sort) t).1.map fst = map.map fst := by
  have key : ∀ {m : List (T × Ep)}, Sorted fst m → Sorted id (m.map fst) :=     pairwise_map.2
  refine (key (sorted_takeToken sorted)).eq_of_mem (key sorted) fun k => ?_
  simp only [mem_map, mem_takeToken sorted]
  constructor
  · rintro ⟨p, rfl | ⟨-, hp⟩, rfl⟩
    · exact mem_map.1 owned
    · exact ⟨p, hp, rfl⟩
  · rintro ⟨p, hp, rfl⟩
    by_cases e : p.1 = t
    · exact ⟨(t, ep), .inl rfl, e.symm⟩
    · exact ⟨p, .inr ⟨e, hp⟩, rfl⟩

theorem takeToken_flag : (takeToken ep (map, sort) t).2 = true ↔ sort = true ∨ t ∉ map.map fst := by
  change (sort || !map.any fun p => decide (p.1 = t)) = true ↔ _
  rw [Bool.or_eq_true, Bool.not_eq_true', any_eq_false]
  refine or_congr_right ⟨fun none mem => ?_, fun new p hp => ?_⟩
  · obtain ⟨p, hp, rfl⟩ := mem_map.1 mem
    exact none p hp (decide_eq_true rfl)
  · rintro own
    exact new (mem_map.2 ⟨p, hp, of_decide_eq_true own⟩)

/-- What taking tokens does to the map and the flag. -/
structure Taken (ep : Ep) (tokens : List T) (map : List (T × Ep)) (sort : Bool) (s : List (T × Ep) × Bool) : Prop where
  sorted : Sorted fst s.1
  others : ∀ {p}, p.1 ∉ tokens → (p ∈ s.1 ↔ p ∈ map)
  owner : ∀ {p}, p ∈ s.1 → p ∈ map ∨ p.2 = ep
  own : ∀ {t}, t ∈ tokens → (t, ep) ∈ s.1
  raised : sort = true → s.2 = true
  new : ∀ {t}, t ∉ map.map fst → t ∈ tokens → s.2 = true
  kept : s.2 = false → s.1.map fst = map.map fst

theorem takeTokens_spec (sorted : Sorted fst map) : Taken ep tokens map sort (takeTokens ep (map, sort) tokens) := by
  induction tokens generalizing map sort with
  | nil => exact ⟨sorted, fun _ => .rfl, .inl, nofun, id, fun _ => nofun, fun _ => rfl⟩
  | cons t tokens ih =>
    have rest : Taken ep tokens (takeToken ep (map, sort) t).1 (takeToken ep (map, sort) t).2
        (takeTokens ep (takeToken ep (map, sort) t) tokens) := ih (sorted_takeToken sorted)
    refine ⟨rest.sorted, fun {p} out => ?_, fun {p} mem => ?_, fun {k} mem => ?_, fun raised => ?_, fun {k} new mem => ?_,
      fun low => ?_⟩
    · rw [mem_cons, not_or] at out
      refine (rest.others out.2).trans ((mem_takeToken sorted).trans ⟨fun h => ?_, fun h => .inr ⟨out.1, h⟩⟩)
      rcases h with rfl | h
      · exact absurd rfl out.1
      · exact h.2
    · rcases rest.owner mem with mem | own
      · rcases (mem_takeToken sorted).1 mem with rfl | h
        · exact .inr rfl
        · exact .inl h.2
      · exact .inr own
    · by_cases later : k ∈ tokens
      · exact rest.own later
      · cases (mem_cons.1 mem).resolve_right later
        exact (rest.others later).2 ((mem_takeToken sorted).2 (.inl rfl))
    · exact rest.raised (takeToken_flag.2 (.inl raised))
    · by_cases e : k = t
      · exact rest.raised (takeToken_flag.2 (.inr (e ▸ new)))
      · refine rest.new (fun mem' => ?_) ((mem_cons.1 mem).resolve_left e)
        obtain ⟨p, hp, rfl⟩ := mem_map.1 mem'
        rcases (mem_takeToken sorted).1 hp with rfl | h
        · exact e rfl
        · exact new (mem_map_of_mem h.2)
    · have first : (takeToken ep (map, sort) t).2 = false := by
        by_contra up
        have := rest.raised (by simpa using up)
        exact Bool.false_ne_true (low.symm.trans this)
      have owned : t ∈ map.map fst := by
        by_contra new
        rw [takeToken_flag.2 (.inr new)] at first
        cases first
      exact (rest.kept low).trans (keys_takeToken sorted owned)

end Take

variable {container : List (T × Ep)} {ep : Ep}

omit [LinearOrder T] in
theorem mem_removeByValue {p : T × Ep} : p ∈ removeByValue container ep ↔ p ∈ container ∧ p.2 ≠ ep := by
  simp [removeByValue]

theorem sorted_removeByValue (sorted : Sorted fst container) (ep : Ep) :
    Sorted fst (removeByValue container ep) :=
  List.Pairwise.filter _ sorted

variable {tm : TokenMetadata T Ep Dc Rack} {snitch : Snitch Ep Dc Rack}

theorem updateEndpoint_spec (snitch : Snitch Ep Dc Rack) (sorted : Sorted fst tm.tokenToEndpoint) (sort : Bool)
    (ep : Ep) (tokens : List T) :
    Taken ep tokens (removeByValue tm.tokenToEndpoint ep) sort
      ((tm.updateEndpoint snitch sort ep tokens).1.tokenToEndpoint, (tm.updateEndpoint snitch sort ep tokens).2) :=
  takeTokens_spec (sorted_removeByValue sorted ep)

/-- The flag will be raised if it is not yet: one of the tokens will be found to have no owner. -/
def WillRaise (map : List (T × Ep)) (entries : List (Ep × List T)) : Prop :=
  ∃ e ∈ entries, ∃ t ∈ e.2, t ∉ map.map fst ∨ (t, e.1) ∈ map ∧ ∀ e' ∈ entries, t ∈ e'.2 → e' = e

variable {sort : Bool} {entries : List (Ep × List T)}

/-- After one endpoint the flag is up, or it still will be raised. -/
theorem WillRaise.updateEndpoint {tokens : List T} (sorted : Sorted fst tm.tokenToEndpoint)
    (will : sort = true ∨ WillRaise tm.tokenToEndpoint ((ep, tokens) :: entries)) (nodup : ep ∉ entries.map fst) :
    (tm.updateEndpoint snitch sort ep tokens).2 = true ∨
      WillRaise (tm.updateEndpoint snitch sort ep tokens).1.tokenToEndpoint entries := by
  have spec := updateEndpoint_spec snitch sorted sort ep tokens
  have dropped : ∀ {k}, k ∉ tm.tokenToEndpoint.map fst →
      k ∉ (removeByValue tm.tokenToEndpoint ep).map fst := by
    intro k new mem
    obtain ⟨p, hp, rfl⟩ := mem_map.1 mem
    exact new (mem_map_of_mem (mem_removeByValue.1 hp).1)
  rcases will with raised | ⟨e, mem, t, ht, new | ⟨owned, once⟩⟩
  · exact .inl (spec.raised raised)
  · by_cases here : t ∈ tokens
    · exact .inl (spec.new (dropped new) here)
    · rcases mem_cons.1 mem with rfl | mem
      · exact absurd ht here
      · refine .inr ⟨e, mem, t, ht, .inl fun mem' => ?_⟩
        obtain ⟨p, hp, rfl⟩ := mem_map.1 mem'
        exact dropped new (mem_map_of_mem ((spec.others here).1 hp))
  · rcases mem_cons.1 mem with rfl | mem
    · -- the endpoint's own token is dropped first and found new then
      refine .inl (spec.new (fun mem' => ?_) ht)
      obtain ⟨p, hp, hpt⟩ := mem_map.1 mem'
      obtain ⟨hp, other⟩ := mem_removeByValue.1 hp
      have same : p = (t, ep) := sorted.mem_iff_find?.1 hp |>.symm.trans
        (by rw [hpt]; exact sorted.mem_iff_find?.1 owned) |> Option.some.inj
      exact other (congrArg Prod.snd same)
    · have here : t ∉ tokens := fun here => by
        have := once (ep, tokens) mem_cons_self here
        exact nodup (mem_map.2 ⟨e, mem, congrArg fst this.symm⟩)
      refine .inr ⟨e, mem, t, ht, .inr ⟨(spec.others here).2 (mem_removeByValue.2 ⟨owned, fun same => ?_⟩),
        fun e' he' ht' => once e' (mem_cons_of_mem _ he') ht'⟩⟩
      exact nodup (mem_map.2 ⟨e, mem, same⟩)

/-- `_sorted_tokens` will be made anew, or it is right and no endpoint that follows has tokens to lose. -/
def Tracked (tm : TokenMetadata T Ep Dc Rack) (sort : Bool) (entries : List (Ep × List T)) : Prop :=
  (sort = true ∨ WillRaise tm.tokenToEndpoint entries) ∨
    tm.sortedTokens = tm.tokenToEndpoint.map fst ∧ ∀ e ∈ entries, ∀ p ∈ tm.tokenToEndpoint, p.2 ≠ e.1

theorem Tracked.updateEndpoint {tokens : List T}
    (sorted : Sorted fst tm.tokenToEndpoint) (tracked : tm.Tracked sort ((ep, tokens) :: entries))
    (nodup : ep ∉ entries.map fst) :
    (tm.updateEndpoint snitch sort ep tokens).1.Tracked (tm.updateEndpoint snitch sort ep tokens).2 entries := by
  rcases tracked with will | ⟨right, free⟩
  · exact .inl (WillRaise.updateEndpoint sorted will nodup)
  · have spec := updateEndpoint_spec snitch sorted sort ep tokens
    have all : removeByValue tm.tokenToEndpoint ep = tm.tokenToEndpoint :=
      filter_eq_self.2 fun p hp => by simpa using free (ep, tokens) mem_cons_self p hp
    cases raised : (tm.updateEndpoint snitch sort ep tokens).2 with
    | true => exact .inl (.inl rfl)
    | false =>
      refine .inr ⟨?_, fun e he p hp own => ?_⟩
      · have kept := spec.kept raised
        rw [all] at kept
        exact right.trans kept.symm
      · rcases spec.owner hp with hp | same
        · exact free e (mem_cons_of_mem _ he) p (mem_removeByValue.1 hp).1 own
        · exact nodup (mem_map.2 ⟨e, he, own.symm.trans same⟩)

open TokenMetadata (updateLoop)

theorem Tracked.updateLoop (snitch : Snitch Ep Dc Rack)
    (sorted : Sorted fst tm.tokenToEndpoint) (tracked : tm.Tracked sort entries)
    (nodup : (entries.map fst).Nodup) (nonempty : ∀ e ∈ entries, e.2 ≠ []) :
    Sorted fst (updateLoop snitch tm sort entries).1.tokenToEndpoint ∧
      (updateLoop snitch tm sort entries).1.sortedTokens =
        (updateLoop snitch tm sort entries).1.tokenToEndpoint.map fst := by
  induction entries generalizing tm sort with
  | nil =>
    unfold updateLoop
    split_ifs with raised
    · exact ⟨sorted, rfl⟩
    · rcases tracked with (up | ⟨e, he, -⟩) | right
      · exact absurd up raised
      · cases he
      · exact ⟨sorted, right.1⟩
  | cons e entries ih =>
    obtain ⟨ep, tokens⟩ := e
    obtain ⟨new, nodup⟩ := nodup_cons.1 nodup
    obtain ⟨some, nonempty⟩ := forall_mem_cons.1 nonempty
    unfold updateLoop
    rw [if_neg (by simpa using some)]
    exact ih (updateEndpoint_spec snitch sorted sort ep tokens).sorted (tracked.updateEndpoint sorted new) nodup nonempty

theorem topology_updateLoop (tm : TokenMetadata T Ep Dc Rack) (snitch : Snitch Ep Dc Rack) (sort : Bool)
    (nonempty : ∀ e ∈ entries, e.2 ≠ []) :
    (updateLoop snitch tm sort entries).1.topology =
      (entries.map fst).foldl (fun tp ep => tp.addEndpoint snitch ep) tm.topology := by
  induction entries generalizing tm sort with
  | nil =>
    unfold updateLoop
    split_ifs <;> rfl
  | cons e entries ih =>
    obtain ⟨some, nonempty⟩ := forall_mem_cons.1 nonempty
    unfold updateLoop
    rw [if_neg (by simpa using some)]
    exact ih _ _ nonempty

variable {tp : Topology Ep Dc Rack} {eps : List Ep}

section

omit [LinearOrder T]

theorem RacksKept.stays (kept : RacksKept tp snitch eps) (mem : ep ∈ eps) :
    tp.currentLocations.lookup ep = some (snitch.getDatacenter ep, snitch.getRack ep) ∨ tp.Accompanied ep := by
  by_cases same : tp.currentLocations.lookup ep = some (snitch.getDatacenter ep, snitch.getRack ep)
  · exact .inl same
  · refine .inr fun loc current => ?_
    have moves : loc ≠ (snitch.getDatacenter ep, snitch.getRack ep) := fun e => same (e ▸ current)
    obtain ⟨other, there, stays⟩ := kept ep mem loc current moves
    refine ⟨other, fun e => ?_, there⟩
    subst e
    exact moves (stays mem)

theorem RacksKept.addEndpoint (kept : RacksKept tp snitch (ep :: eps)) :
    RacksKept (tp.addEndpoint snitch ep) snitch eps := by
  intro ep' mem loc current moves
  rw [Topology.lookup_addEndpoint] at current
  split at current
  next own =>
    cases current
    exact absurd (by rw [own]) moves
  · obtain ⟨other, there, stays⟩ := kept ep' (mem_cons_of_mem _ mem) loc current moves
    refine ⟨other, ?_, fun mem' => stays (mem_cons_of_mem _ mem')⟩
    rw [Topology.lookup_addEndpoint]
    split
    next own =>
      rw [stays (own ▸ mem_cons_self), own]
    · exact there

theorem topology_addEndpoints (agrees : tp.Agrees) (inhabited : tp.RacksInhabited) (kept : RacksKept tp snitch eps) :
    (eps.foldl (fun tp ep => tp.addEndpoint snitch ep) tp).Agrees ∧
      (eps.foldl (fun tp ep => tp.addEndpoint snitch ep) tp).RacksInhabited := by
  induction eps generalizing tp with
  | nil => exact ⟨agrees, inhabited⟩
  | cons ep eps ih =>
    exact ih (agrees.addEndpoint snitch ep) (inhabited.addEndpoint agrees (kept.stays mem_cons_self)) kept.addEndpoint

end

/-- A careful change leaves the ring consistent. -/
theorem Consistent.step {tm' : TokenMetadata T Ep Dc Rack} {change : RingChange T Ep Dc Rack} {returned : Bool}
    (consistent : tm.Consistent) (careful : tm.Careful change) (next : tm.step change = .ok (tm', returned)) :
    tm'.Consistent := by
  obtain ⟨⟨sorted, tokens⟩, agrees, inhabited⟩ := consistent
  cases change with
  | updateNormalTokens snitch endpointTokens =>
    obtain ⟨nonempty, noticed, kept⟩ := careful
    obtain rfl : (updateLoop snitch tm false endpointTokens.1).1 = tm' := congrArg fst (Except.ok.inj next)
    have tracked : tm.Tracked false endpointTokens.1 := by
      rcases noticed with will | free
      · exact .inl (.inr will)
      · exact .inr ⟨tokens, free⟩
    obtain ⟨sorted', tokens'⟩ := tracked.updateLoop snitch sorted endpointTokens.2 nonempty
    have topology := topology_addEndpoints agrees inhabited kept
    rw [← topology_updateLoop tm snitch false nonempty] at topology
    exact ⟨⟨sorted', tokens'⟩, topology.1, topology.2⟩
  | removeEndpoint ep =>
    cases next
    exact ⟨⟨sorted_removeByValue sorted ep, rfl⟩, agrees.removeEndpoint ep, inhabited.removeEndpoint agrees careful⟩
  | addBootstrapTokens collision ep =>
    simp only [TokenMetadata.step, addBootstrapTokens, Except.ok.injEq] at next
    split at next <;> cases next
    · exact ⟨⟨sorted, tokens⟩, agrees, inhabited⟩
    · exact ⟨⟨sorted, tokens⟩, agrees, inhabited⟩
  | updateHostId ep | addLeavingEndpoint ep | addMovingEndpoint t ep | removeFromMoving ep =>
    cases next
    exact ⟨⟨sorted, tokens⟩, agrees, inhabited⟩
  | updateTopology snitch ep =>
    cases next
    exact ⟨⟨sorted, tokens⟩, agrees.updateEndpoint snitch ep, inhabited.updateEndpoint agrees fun s hs =>
      (careful s hs).stays mem_cons_self⟩

theorem consistent_init : Consistent ({} : TokenMetadata T Ep Dc Rack) where
  sorted := .nil
  tokens := rfl
  agrees := ⟨by simp [Topology.endpointsOf], by simp [Topology.endpointsAt, Topology.racksOf]⟩
  inhabited := by simp [Topology.RacksInhabited, Topology.racksOf]

end TokenMetadata

/-- The bookkeeping of the ring stays consistent along every run whose changes are careful. -/
theorem ring_bookkeeping_consistent [LinearOrder T] [DecidableEq Ep] [DecidableEq Dc] [DecidableEq Rack]
    {tr : List (RingChange T Ep Dc Rack × Bool)} {tm : TokenMetadata T Ep Dc Rack}
    (run : Run TokenMetadata.step (fun _ tm change => tm.Careful change) {} tr tm) : tm.Consistent :=
  run.invariant (fun _ tm => tm.Consistent) TokenMetadata.consistent_init fun _ _ _ _ _ consistent careful next =>
    consistent.step careful next

/-- Two endpoints join, one of them with a token more later on. -/
theorem ring_bookkeeping_joined : ∃ tr tm, Run TokenMetadata.step (fun _ tm change => tm.Careful change)
        ({} : TokenMetadata Nat Nat Nat Nat) tr tm ∧ tm.sortedTokens = [1, 2, 3] ∧ tm.Consistent := by
  let snitch : Snitch Nat Nat Nat := ⟨fun _ => 0, fun ep => ep⟩
  have new : ∀ {tm : TokenMetadata Nat Nat Nat Nat} {ep : Nat} {tokens : List Nat}, tokens ≠ [] →
      (∃ t ∈ tokens, t ∉ tm.tokenToEndpoint.map fst) →
      (∀ loc, tm.topology.currentLocations.lookup ep = some loc → loc = (0, ep)) →
      tm.Careful (.updateNormalTokens snitch ⟨[(ep, tokens)], nodup_singleton _⟩) := by
    rintro tm ep tokens nonempty ⟨t, ht, unowned⟩ stays
    refine ⟨by simpa using nonempty, .inl ⟨_, mem_cons_self, t, ht, .inl unowned⟩, fun ep' mem loc current moves => ?_⟩
    cases mem_singleton.1 mem
    exact absurd (stays loc current) moves
  have run : Run TokenMetadata.step (fun _ tm change => tm.Careful change) {} _ _ :=
    .snoc (.snoc (.snoc .init (i := .updateNormalTokens snitch ⟨[(0, [1])], nodup_singleton _⟩)
        (by exact new (by decide) ⟨1, by decide, by decide⟩ fun loc absent => nomatch absent) rfl)
      (i := .updateNormalTokens snitch ⟨[(1, [2])], nodup_singleton _⟩)
        (by exact new (by decide) ⟨2, by decide, by decide⟩ fun loc absent => nomatch absent) rfl)
      (i := .updateNormalTokens snitch ⟨[(0, [1, 3])], nodup_singleton _⟩)
        (by exact new (by decide) ⟨3, by decide, by decide⟩ fun loc current => (Option.some.inj current).symm) rfl
  exact ⟨_, _, run, rfl, ring_bookkeeping_consistent run⟩

/-- An endpoint that takes over the only token of another one loses its own token, but not from
`_sorted_tokens`. When the last endpoint of a rack is removed, the rack stays. -/
theorem ring_bookkeeping_stale :
    (∃ tr tm, Run TokenMetadata.step (fun _ _ _ => True) ({} : TokenMetadata Nat Nat Nat Nat) tr tm ∧
      tm.sortedTokens = [1, 2] ∧ tm.tokenToEndpoint.map fst = [2]) ∧
    ∃ tr tm, Run TokenMetadata.step (fun _ _ _ => True) ({} : TokenMetadata Nat Nat Nat Nat) tr tm ∧
      (tm.topology.racksOf 0).lookup 0 = some ∅ := by
  let snitch : Snitch Nat Nat Nat := ⟨fun _ => 0, fun ep => ep⟩
  constructor
  · exact ⟨_, _, .snoc (.snoc (.snoc .init
      (i := .updateNormalTokens snitch ⟨[(0, [1])], nodup_singleton _⟩) trivial rfl)
      (i := .updateNormalTokens snitch ⟨[(1, [2])], nodup_singleton _⟩) trivial rfl)
      (i := .updateNormalTokens snitch ⟨[(0, [2])], nodup_singleton _⟩) trivial rfl, rfl, rfl⟩
  · exact ⟨_, _, .snoc (.snoc .init
      (i := .updateNormalTokens snitch ⟨[(0, [1])], nodup_singleton _⟩) trivial rfl)
      (i := .removeEndpoint 0) trivial rfl, rfl⟩

end ScyllaMoon.Locator
