import ScyllaMoon.Lib.IntervalMap
import ScyllaMoon.Locator.Ahead
import ScyllaMoon.Locator.Ranges

/-!
# Pending ranges

While endpoints join, leave or move, `calculate_pending_ranges` finds the ranges that they or others are going to
get. It tries the changes on a copy of the ring: first without the endpoints that leave, then with each endpoint
that joins or moves in turn, which is taken out of the copy again.
-/

namespace ScyllaMoon.Locator

open Lib Dht NonwrappingRange

variable {T Ep Dc Rack : Type} [LinearOrder T] [DecidableEq Ep] [DecidableEq Dc] [DecidableEq Rack]

/-- `unwrap_into`, for the range behind `left` up to `right` -/
def unwrapInto (left right : T) : List (NonwrappingRange T) :=
  if left < right then [{ start := some ⟨left, false⟩, last := some ⟨right, true⟩ }]
  else [{ start := some ⟨left, false⟩ }, { last := some ⟨right, true⟩ }]

namespace TokenMetadata

variable (tm : TokenMetadata T Ep Dc Rack)

/-- `get_predecessor` -/
def getPredecessor (t : T) : Except RingFault T :=
  match tm.sortedTokens.dropWhile fun u => decide (u < t) with
  | [] => .error .tokenNotFound
  | u :: _ =>
    if u ≠ t then .error .tokenNotFound
    -- the predecessor of the first token is the last one
    else .ok ((tm.sortedTokens.takeWhile fun u => decide (u < t)).getLastD (tm.sortedTokens.getLastD t))

/-- `get_primary_ranges_for` -/
def getPrimaryRangesFor (right : T) : Except RingFault (List (NonwrappingRange T)) := do
  let left ← tm.getPredecessor right
  .ok (unwrapInto left right)

/-- `clone_only_token_map` -/
def cloneOnlyTokenMap : TokenMetadata T Ep Dc Rack :=
  { tokenToEndpoint := tm.tokenToEndpoint
    endpointToHostId := tm.endpointToHostId
    topology := tm.topology
    sortedTokens := tm.sortTokens }

/-- `clone_after_all_left` -/
def cloneAfterAllLeft : TokenMetadata T Ep Dc Rack :=
  tm.leavingEndpoints.foldl removeEndpoint tm.cloneOnlyTokenMap

/-- The endpoints that bootstrap, with their tokens -/
def bootstrapAddresses : List (Ep × List T) :=
  (tm.bootstrapTokens.map Prod.snd).dedup.map fun ep =>
    (ep, (tm.bootstrapTokens.filter fun p => decide (p.2 = ep)).map Prod.fst)

/-- Those that bootstrap or move, in the order in which they are tried -/
def relocations : List (Ep × List T) :=
  tm.bootstrapAddresses ++ tm.movingEndpoints.map fun p => (p.2, [p.1])

end TokenMetadata

namespace Strategy

/-- The loop of `get_address_ranges` -/
def addressRangesOf (strategy : Strategy Ep Dc) (snitch : Snitch Ep Dc Rack) (tm : TokenMetadata T Ep Dc Rack) :
    List T → Except RingFault (List (Ep × NonwrappingRange T))
  | [] => .ok []
  | t :: ts => do
    let r ← tm.getPrimaryRangesFor t
    let eps ← strategy.calculateNaturalEndpoints snitch t tm
    let rest ← addressRangesOf strategy snitch tm ts
    .ok ((eps.flatMap fun ep => r.map fun rng => (ep, rng)) ++ rest)

/-- `get_address_ranges` -/
def getAddressRanges (strategy : Strategy Ep Dc) (snitch : Snitch Ep Dc Rack) (tm : TokenMetadata T Ep Dc Rack) :
    Except RingFault (List (Ep × NonwrappingRange T)) :=
  strategy.addressRangesOf snitch tm tm.sortedTokens

end Strategy

namespace TokenMetadata

/-- The token that stands for a range when its endpoints are looked for -/
def closingToken [OrderTop T] (r : NonwrappingRange T) : T := r.stop.elim ⊤ RangeBound.value

/-- The ranges that will be affected by leaving endpoints -/
def affectedRanges (tm : TokenMetadata T Ep Dc Rack) (addressRanges : List (Ep × NonwrappingRange T)) :
    List (NonwrappingRange T) :=
  tm.leavingEndpoints.flatMap fun ep => addressRanges.filterMap fun x => if x.1 = ep then some x.2 else none

/-- The endpoints that get the affected ranges when all leaving endpoints are gone -/
def leavePending [OrderTop T] (strategy : Strategy Ep Dc) (snitch : Snitch Ep Dc Rack)
    (metadata allLeft : TokenMetadata T Ep Dc Rack) :
    List (NonwrappingRange T) → Except RingFault (List (NonwrappingRange T × Ep))
  | [] => .ok []
  | r :: affected => do
    let current ← strategy.calculateNaturalEndpoints snitch (closingToken r) metadata
    let new ← strategy.calculateNaturalEndpoints snitch (closingToken r) allLeft
    let rest ← leavePending strategy snitch metadata allLeft affected
    .ok (((new.filter fun ep => decide (ep ∉ current)).map fun ep => (r, ep)) ++ rest)

/-- The endpoints that bootstrap or move are added to the ring and removed again one by one. -/
def joinPending (strategy : Strategy Ep Dc) (snitch : Snitch Ep Dc Rack) :
    TokenMetadata T Ep Dc Rack → List (Ep × List T) → Except RingFault (List (NonwrappingRange T × Ep))
  | _, [] => .ok []
  | allLeft, (ep, tokens) :: others => do
    let joined := allLeft.updateNormalTokensOf snitch tokens ep
    let ranges ← strategy.getAddressRanges snitch joined
    let rest ← joinPending strategy snitch (joined.removeEndpoint ep) others
    .ok ((ranges.filterMap fun x => if x.1 = ep then some (x.2, ep) else none) ++ rest)

/-- `calculate_pending_ranges`, up to `set_pending_ranges` -/
def calculatePendingRanges [OrderTop T] (strategy : Strategy Ep Dc) (snitch : Snitch Ep Dc Rack)
    (tm : TokenMetadata T Ep Dc Rack) : Except RingFault (List (NonwrappingRange T × Ep)) :=
  if tm.bootstrapTokens.isEmpty && tm.leavingEndpoints.isEmpty && tm.movingEndpoints.isEmpty then .ok []
  else do
    let addressRanges ← strategy.getAddressRanges snitch tm
    let allLeft := tm.cloneAfterAllLeft
    let leave ← leavePending strategy snitch tm.cloneOnlyTokenMap allLeft (tm.affectedRanges addressRanges)
    let join ← joinPending strategy snitch allLeft tm.relocations
    .ok (leave ++ join)

variable [BoundedOrder T]

/-- `range_to_interval` -/
def rangeToInterval (r : NonwrappingRange T) : Cut T × Cut T :=
  (RangeBound.lower (r.start.or (some ⟨⊥, false⟩)), RangeBound.upper (r.stop.or (some ⟨⊤, false⟩)))

/-- `+=` of the interval map, which leaves out an empty interval -/
def addPending (map : IntervalMap (Cut T) Ep) (x : NonwrappingRange T × Ep) : IntervalMap (Cut T) Ep :=
  let interval := rangeToInterval x.1
  if interval.1 < interval.2 then IntervalMap.add x.2 interval.1 interval.2 map else map

/-- `set_pending_ranges`: the interval map -/
def setPendingRanges (pending : List (NonwrappingRange T × Ep)) : IntervalMap (Cut T) Ep :=
  pending.foldl addPending []

/-- `pending_endpoints_for` -/
def pendingEndpointsFor (map : IntervalMap (Cut T) Ep) (t : T) : List Ep := IntervalMap.lookup map (Cut.before t)

end TokenMetadata

namespace TokenMetadata

variable {tm : TokenMetadata T Ep Dc Rack} {replicationFactor : Nat}

/-- The second token follows the first one on the ring. -/
def Arc (tm : TokenMetadata T Ep Dc Rack) (p : T × T) : Prop :=
  ∃ back, tm.sortedTokens.getLast? = some back ∧ p ∈ arcs back tm.sortedTokens

variable {p : T × T} {t : T}

omit [DecidableEq Ep] [DecidableEq Dc] [DecidableEq Rack] in
theorem Ordered.inArc_iff (ordered : tm.Ordered) (arc : tm.Arc p) :
    InArc p t ↔ successor tm.sortedTokens t = some p.2 := by
  obtain ⟨back, last, mem⟩ := arc
  exact Lib.inArc_iff ordered.pairwise last mem

open List (mem_map mem_map_of_mem mem_append mem_cons)

omit [LinearOrder T] [DecidableEq Ep] [DecidableEq Dc] [DecidableEq Rack] in
theorem exists_arc (mem : t ∈ tm.sortedTokens) : ∃ left, tm.Arc (left, t) := by
  obtain ⟨back, last⟩ := Option.ne_none_iff_exists'.1 (mt List.getLast?_eq_none_iff.1 (List.ne_nil_of_mem mem))
  have mem' : t ∈ (arcs back tm.sortedTokens).map Prod.snd := by rwa [map_snd_arcs]
  obtain ⟨p, hp, rfl⟩ := mem_map.1 mem'
  exact ⟨p.1, back, last, hp⟩

section

omit [DecidableEq Ep] [DecidableEq Dc] [DecidableEq Rack]

theorem Ordered.getPrimaryRangesFor (ordered : tm.Ordered) {left right : T} (arc : tm.Arc (left, right)) :
    tm.getPrimaryRangesFor right = .ok (unwrapInto left right) := by
  obtain ⟨back, last, mem⟩ := arc
  have next : right ∈ tm.sortedTokens := by
    rw [← map_snd_arcs back tm.sortedTokens]
    exact mem_map_of_mem mem
  have here : successor tm.sortedTokens right = some right := successor_of_mem ordered.pairwise next
  have found : ∃ rest, tm.sortedTokens.dropWhile (fun u => decide (u < right)) = right :: rest := by
    cases drop : tm.sortedTokens.dropWhile fun u => decide (u < right) with
    | nil => exact absurd (List.dropWhile_eq_nil_iff.1 drop right next) (by simp)
    | cons u rest =>
      rw [successor, cycleFrom, clockwise, drop, List.cons_append, List.head?_cons, Option.some_inj] at here
      exact ⟨rest, by rw [here]⟩
  obtain ⟨rest, found⟩ := found
  have before : (tm.sortedTokens.takeWhile fun u => decide (u < right)).getLastD back = left :=
    (fst_of_mem_arcs ordered.pairwise mem).symm
  rw [TokenMetadata.getPrimaryRangesFor, getPredecessor, found]
  simp only [ne_eq, not_true_eq_false, if_false, ok_bind]
  have final : tm.sortedTokens.getLastD right = back := by rw [List.getLastD_eq_getLast?, last, Option.getD_some]
  rw [final, before]

/-- Two ranges of the ring that close with the same token start behind the same one. -/
theorem Ordered.arc_unique (ordered : tm.Ordered) {left left' right : T} (arc : tm.Arc (left, right))
    (arc' : tm.Arc (left', right)) : left = left' := by
  obtain ⟨back, last, mem⟩ := arc
  obtain ⟨back', last', mem'⟩ := arc'
  cases Option.some.inj (last.symm.trans last')
  exact (fst_of_mem_arcs ordered.pairwise mem).trans (fst_of_mem_arcs ordered.pairwise mem').symm

end

theorem exists_mem_unwrapInto {left right : T} :
    (∃ r ∈ unwrapInto left right, r.contains t = true) ↔ InArc (left, right) t := by
  rw [← exists_mem_unwrapped]
  unfold unwrapInto unwrapped insertTokenRange
  split
  · exact .rfl
  · simp [or_comm]

omit [DecidableEq Dc] [DecidableEq Rack] in
/-- The natural endpoints of a token are those of the token that closes its range. -/
theorem Ordered.replica_arc (ordered : tm.Ordered) (arc : tm.Arc p) (inside : InArc p t) (ep : Ep) :
    tm.Replica replicationFactor t ep ↔ tm.Replica replicationFactor p.2 ep := by
  have next := (ordered.inArc_iff arc).1 inside
  have some : tm.sortedTokens ≠ [] := List.ne_nil_of_mem ((successor_eq_some_iff ordered.pairwise).1 next).1
  obtain ⟨eps, eq, mem⟩ := ordered.mem_naturalEndpoints replicationFactor t
  obtain ⟨eps', eq', mem'⟩ := ordered.mem_naturalEndpoints replicationFactor p.2
  have same : SimpleStrategy.calculateNaturalEndpoints replicationFactor t tm =
      SimpleStrategy.calculateNaturalEndpoints replicationFactor p.2 tm := by
    rw [SimpleStrategy.calculateNaturalEndpoints, SimpleStrategy.calculateNaturalEndpoints, ringRange_eq some,
      ringRange_eq some, cycleFrom_successor next]
  cases Except.ok.inj (eq.symm.trans (same.trans eq'))
  rw [← mem, mem']

theorem Ordered.addressRangesOf (ordered : tm.Ordered) (snitch : Snitch Ep Dc Rack) (replicationFactor : Nat) {ts : List T}
    (tokens : ∀ t ∈ ts, t ∈ tm.sortedTokens) :
    ∃ ranges, (Strategy.simpleStrategy replicationFactor).addressRangesOf snitch tm ts = .ok ranges ∧
      ∀ ep r, (ep, r) ∈ ranges ↔ ∃ p, tm.Arc p ∧ p.2 ∈ ts ∧ tm.Replica replicationFactor p.2 ep ∧ r ∈ unwrapInto p.1 p.2 := by
  induction ts with
  | nil => exact ⟨[], rfl, by simp⟩
  | cons t ts ih =>
    obtain ⟨here, tokens⟩ := List.forall_mem_cons.1 tokens
    obtain ⟨ranges, eq, mem⟩ := ih tokens
    obtain ⟨left, arc⟩ := exists_arc here
    obtain ⟨eps, natural, replica⟩ := ordered.mem_naturalEndpoints replicationFactor t
    have natural : (Strategy.simpleStrategy replicationFactor).calculateNaturalEndpoints snitch t tm = .ok eps := natural
    refine ⟨_, by rw [Strategy.addressRangesOf, ordered.getPrimaryRangesFor arc, natural, eq]; rfl, fun ep r => ?_⟩
    simp only [mem_append, List.mem_flatMap, mem_map, Prod.mk.injEq, mem, mem_cons]
    constructor
    · rintro (⟨ep', hep, r', hr, rfl, rfl⟩ | ⟨p, arc', hp, rest⟩)
      · exact ⟨(left, t), arc, .inl rfl, (replica _).1 hep, hr⟩
      · exact ⟨p, arc', .inr hp, rest⟩
    · rintro ⟨⟨left', right⟩, arc', rfl | hp, own, hr⟩
      · cases ordered.arc_unique arc arc'
        exact .inl ⟨ep, (replica ep).2 own, r, hr, rfl, rfl⟩
      · exact .inr ⟨_, arc', hp, own, hr⟩

/-- The address ranges are the parts of the ring with the natural endpoints of the tokens that close them. -/
theorem Ordered.getAddressRanges (ordered : tm.Ordered) (snitch : Snitch Ep Dc Rack) (replicationFactor : Nat) :
    ∃ ranges, (Strategy.simpleStrategy replicationFactor).getAddressRanges snitch tm = .ok ranges ∧
      ∀ ep r, (ep, r) ∈ ranges ↔ ∃ p, tm.Arc p ∧ tm.Replica replicationFactor p.2 ep ∧ r ∈ unwrapInto p.1 p.2 := by
  obtain ⟨ranges, eq, mem⟩ := ordered.addressRangesOf snitch replicationFactor fun t ht => ht
  refine ⟨ranges, eq, fun ep r => (mem ep r).trans (exists_congr fun p => and_congr_right fun arc => ?_)⟩
  obtain ⟨back, -, hp⟩ := arc
  refine and_iff_right ?_
  rw [← map_snd_arcs back tm.sortedTokens]
  exact mem_map_of_mem hp

variable {ep : Ep}

omit [DecidableEq Dc] [DecidableEq Rack] in
/-- An endpoint is a natural endpoint of the tokens of its ranges. -/
theorem Ordered.exists_addressRange (ordered : tm.Ordered) {ranges : List (Ep × NonwrappingRange T)}
    (mem : ∀ ep r, (ep, r) ∈ ranges ↔ ∃ p, tm.Arc p ∧ tm.Replica replicationFactor p.2 ep ∧ r ∈ unwrapInto p.1 p.2) :
    (∃ r, (ep, r) ∈ ranges ∧ r.contains t = true) ↔ tm.Replica replicationFactor t ep := by
  constructor
  · rintro ⟨r, hr, inside⟩
    obtain ⟨p, arc, own, hr⟩ := (mem ep r).1 hr
    exact (ordered.replica_arc arc (exists_mem_unwrapInto.1 ⟨r, hr, inside⟩) ep).2 own
  · intro own
    obtain ⟨u, hu⟩ := own.1
    have some : tm.sortedTokens ≠ [] := by
      rw [ordered.tokens]
      exact List.ne_nil_of_mem (mem_map_of_mem hu)
    obtain ⟨tok, next⟩ := exists_successor some t
    obtain ⟨left, arc⟩ := exists_arc ((successor_eq_some_iff ordered.pairwise).1 next).1
    have inside := (ordered.inArc_iff arc).2 next
    obtain ⟨r, hr, contains⟩ := exists_mem_unwrapInto.2 inside
    exact ⟨r, (mem ep r).2 ⟨_, arc, (ordered.replica_arc arc inside ep).1 own, hr⟩, contains⟩

variable {r : NonwrappingRange T}

omit [DecidableEq Ep] [DecidableEq Dc] [DecidableEq Rack] in
/-- There is no token of the ring between a token of a range and the one that stands for the range. -/
theorem Ordered.closingToken [OrderTop T] (ordered : tm.Ordered) (arc : tm.Arc p) (hr : r ∈ unwrapInto p.1 p.2)
    (inside : r.contains t = true) (q : T × Ep) (hq : q ∈ tm.tokenToEndpoint) :
    q.1 < t ↔ q.1 < TokenMetadata.closingToken r := by
  have token : q.1 ∈ tm.sortedTokens := by
    rw [ordered.tokens]
    exact mem_map_of_mem hq
  have apart : InArc p q.1 → q.1 = p.2 := fun inArc =>
    Option.some.inj ((successor_of_mem ordered.pairwise token).symm.trans ((ordered.inArc_iff arc).1 inArc))
  unfold InArc at apart
  rw [contains_iff] at inside
  unfold unwrapInto at hr
  split at hr
  next lt =>
    rw [if_pos lt] at apart
    cases List.mem_singleton.1 hr
    simp [lower, upper, stop, RangeBound.lower, RangeBound.upper] at inside
    refine ⟨fun below => below.trans_le inside.2, fun below => ?_⟩
    by_contra above
    exact below.ne (apart ⟨inside.1.trans_le (not_lt.1 above), below.le⟩)
  next ge =>
    rw [if_neg ge] at apart
    rcases mem_cons.1 hr with rfl | hr
    · simp [lower, upper, stop, RangeBound.lower, RangeBound.upper] at inside
      have below : q.1 < t := by
        by_contra above
        have behind := inside.trans_le (not_lt.1 above)
        have := apart (.inr behind)
        exact ge (this ▸ behind)
      exact iff_of_true below (below.trans_le le_top)
    · cases List.mem_singleton.1 hr
      simp [lower, upper, stop, RangeBound.lower, RangeBound.upper] at inside
      refine ⟨fun below => below.trans_le inside, fun below => ?_⟩
      exact absurd (apart (.inl below.le)) below.ne

omit [LinearOrder T] [DecidableEq Dc] [DecidableEq Rack] in
theorem mem_affectedRanges {addressRanges : List (Ep × NonwrappingRange T)} :
    r ∈ tm.affectedRanges addressRanges ↔ ∃ gone ∈ tm.leavingEndpoints, (gone, r) ∈ addressRanges := by
  unfold affectedRanges
  simp only [List.mem_flatMap, List.mem_filterMap, Option.ite_none_right_eq_some, Option.some.injEq, Prod.exists]
  constructor
  · rintro ⟨gone, leaves, x, r', hx, rfl, rfl⟩
    exact ⟨x, leaves, hx⟩
  · rintro ⟨gone, leaves, hr⟩
    exact ⟨gone, leaves, gone, r, hr, rfl, rfl⟩

variable {allLeft : TokenMetadata T Ep Dc Rack}

/-- What the leaving endpoints leave to others: an affected range is pending for those that get it. -/
theorem leavePending_spec [OrderTop T] {metadata : TokenMetadata T Ep Dc Rack} (ordered : metadata.Ordered)
    (ordered' : allLeft.Ordered) (snitch : Snitch Ep Dc Rack) (replicationFactor : Nat)
    (affected : List (NonwrappingRange T)) :
    ∃ pending, leavePending (.simpleStrategy replicationFactor) snitch metadata allLeft affected = .ok pending ∧
      ∀ r ep, (r, ep) ∈ pending ↔ r ∈ affected ∧ allLeft.Replica replicationFactor (closingToken r) ep ∧
        ¬ metadata.Replica replicationFactor (closingToken r) ep := by
  induction affected with
  | nil => exact ⟨[], rfl, by simp⟩
  | cons r affected ih =>
    obtain ⟨pending, eq, mem⟩ := ih
    obtain ⟨current, natural, replica⟩ := ordered.mem_naturalEndpoints replicationFactor (closingToken r)
    obtain ⟨new, natural', replica'⟩ := ordered'.mem_naturalEndpoints replicationFactor (closingToken r)
    refine ⟨_, by rw [leavePending, Strategy.calculateNaturalEndpoints, Strategy.calculateNaturalEndpoints, natural, natural', eq]; rfl, fun r' ep => ?_⟩
    simp only [mem_append, mem_map, List.mem_filter, decide_eq_true_eq, Prod.mk.injEq, mem, mem_cons, replica, replica']
    constructor
    · rintro (⟨ep', owns, rfl, rfl⟩ | ⟨hr, owns⟩)
      · exact ⟨.inl rfl, owns⟩
      · exact ⟨.inr hr, owns⟩
    · rintro ⟨rfl | hr, owns⟩
      · exact .inl ⟨ep, owns, rfl, rfl⟩
      · exact .inr ⟨hr, owns⟩

theorem Ordered.removeEndpoint (ordered : tm.Ordered) (ep : Ep) : (tm.removeEndpoint ep).Ordered :=
  ⟨sorted_removeByValue ordered.sorted ep, rfl⟩

omit [LinearOrder T] in
theorem mem_removeEndpoint {p : T × Ep} :
    p ∈ (tm.removeEndpoint ep).tokenToEndpoint ↔ p ∈ tm.tokenToEndpoint ∧ p.2 ≠ ep := mem_removeByValue

theorem Ordered.removeEndpoints (ordered : tm.Ordered) (eps : List Ep) :
    (eps.foldl TokenMetadata.removeEndpoint tm).Ordered ∧
      ∀ p, p ∈ (eps.foldl TokenMetadata.removeEndpoint tm).tokenToEndpoint ↔ p ∈ tm.tokenToEndpoint ∧ p.2 ∉ eps := by
  induction eps generalizing tm with
  | nil => exact ⟨ordered, by simp⟩
  | cons ep eps ih =>
    obtain ⟨ordered', mem⟩ := ih (ordered.removeEndpoint ep)
    refine ⟨ordered', fun p => (mem p).trans ?_⟩
    rw [mem_removeEndpoint, mem_cons, not_or, and_assoc]

theorem Ordered.cloneAfterAllLeft (ordered : tm.Ordered) : tm.cloneAfterAllLeft.Ordered ∧
    ∀ p, p ∈ tm.cloneAfterAllLeft.tokenToEndpoint ↔ p ∈ tm.tokenToEndpoint ∧ p.2 ∉ tm.leavingEndpoints :=
  have clone : tm.cloneOnlyTokenMap.Ordered := ⟨ordered.sorted, rfl⟩
  clone.removeEndpoints tm.leavingEndpoints

/-- The tokens belong to nobody else. -/
def Free (tm : TokenMetadata T Ep Dc Rack) (tokens : List T) (ep : Ep) : Prop :=
  ∀ p ∈ tm.tokenToEndpoint, p.1 ∈ tokens → p.2 = ep

/-- An endpoint that takes free tokens has these and no others afterwards. -/
theorem Ordered.updateNormalTokensOf (ordered : tm.Ordered) (snitch : Snitch Ep Dc Rack) {tokens : List T}
    (some : tokens ≠ []) (free : tm.Free tokens ep) : (tm.updateNormalTokensOf snitch tokens ep).Ordered ∧
      ∀ p, p ∈ (tm.updateNormalTokensOf snitch tokens ep).tokenToEndpoint ↔
        p.2 ≠ ep ∧ p ∈ tm.tokenToEndpoint ∨ p.2 = ep ∧ p.1 ∈ tokens := by
  have spec := updateEndpoint_spec snitch ordered.sorted false ep tokens
  obtain ⟨t, ht⟩ := List.exists_mem_of_ne_nil tokens some
  have raised : (tm.updateEndpoint snitch false ep tokens).2 = true := by
    refine spec.new (fun mem => ?_) ht
    obtain ⟨p, hp, rfl⟩ := mem_map.1 mem
    obtain ⟨hp, other⟩ := mem_removeByValue.1 hp
    exact other (free p hp ht)
  have eq : tm.updateNormalTokensOf snitch tokens ep = { (tm.updateEndpoint snitch false ep tokens).1 with
      sortedTokens := (tm.updateEndpoint snitch false ep tokens).1.sortTokens } := by
    rw [TokenMetadata.updateNormalTokensOf, if_neg (by simpa using some), updateNormalTokens, updateLoop,
      if_neg (by simpa using some)]
    simp only [updateLoop, raised, if_true]
  rw [eq]
  refine ⟨⟨spec.sorted, rfl⟩, fun p => ?_⟩
  constructor
  · intro mem
    by_cases taken : p.1 ∈ tokens
    · refine .inr ⟨?_, taken⟩
      rcases spec.owner mem with mem | own
      · obtain ⟨mem, other⟩ := mem_removeByValue.1 mem
        exact absurd (free p mem taken) other
      · exact own
    · obtain ⟨mem, other⟩ := mem_removeByValue.1 ((spec.others taken).1 mem)
      exact .inl ⟨other, mem⟩
  · rintro (⟨other, mem⟩ | ⟨rfl, taken⟩)
    · have out : p.1 ∉ tokens := fun taken => other (free p mem taken)
      exact (spec.others out).2 (mem_removeByValue.2 ⟨mem, other⟩)
    · exact spec.own taken

/-- The ring in which an endpoint is tried: it has its new tokens, and those that were tried before are gone. -/
structure Tried (allLeft : TokenMetadata T Ep Dc Rack) (gone : List Ep) (ep : Ep) (tokens : List T)
    (ring : TokenMetadata T Ep Dc Rack) : Prop where
  ordered : ring.Ordered
  mem : ∀ p, p ∈ ring.tokenToEndpoint ↔ p.2 ≠ ep ∧ p.2 ∉ gone ∧ p ∈ allLeft.tokenToEndpoint ∨ p.2 = ep ∧ p.1 ∈ tokens

theorem Ordered.exists_tried (ordered : allLeft.Ordered) (snitch : Snitch Ep Dc Rack) {tokens : List T}
    (some : tokens ≠ []) (free : allLeft.Free tokens ep) (gone : List Ep) :
    ∃ ring, Tried allLeft gone ep tokens ring := by
  obtain ⟨removed, mem⟩ := ordered.removeEndpoints gone
  obtain ⟨joined, mem'⟩ := removed.updateNormalTokensOf snitch some fun p hp => free p ((mem p).1 hp).1
  refine ⟨_, joined, fun p => (mem' p).trans ?_⟩
  rw [mem, and_comm (a := p ∈ allLeft.tokenToEndpoint)]

/-- An endpoint that bootstraps or moves gets the ranges that it has in the ring in which it is tried. -/
theorem Ordered.joinPending (ordered : allLeft.Ordered) (snitch : Snitch Ep Dc Rack) (replicationFactor : Nat)
    {es : List (Ep × List T)} (some : ∀ e ∈ es, e.2 ≠ []) (free : ∀ e ∈ es, allLeft.Free e.2 e.1) :
    ∃ pending, TokenMetadata.joinPending (.simpleStrategy replicationFactor) snitch allLeft es = .ok pending ∧
      ∀ ep t, (∃ r, (r, ep) ∈ pending ∧ r.contains t = true) ↔ ∃ before tokens after ring,
        es = before ++ (ep, tokens) :: after ∧ Tried allLeft (before.map Prod.fst) ep tokens ring ∧
          ring.Replica replicationFactor t ep := by
  induction es generalizing allLeft with
  | nil => exact ⟨[], rfl, by simp⟩
  | cons e es ih =>
    obtain ⟨ep, tokens⟩ := e
    obtain ⟨some', some⟩ := List.forall_mem_cons.1 some
    obtain ⟨free', free⟩ := List.forall_mem_cons.1 free
    obtain ⟨joined, mem⟩ := ordered.updateNormalTokensOf snitch some' free'
    obtain ⟨ranges, eq, owns⟩ := joined.getAddressRanges snitch replicationFactor
    have mem' : ∀ p, p ∈ ((allLeft.updateNormalTokensOf snitch tokens ep).removeEndpoint ep).tokenToEndpoint ↔
        p ∈ allLeft.tokenToEndpoint ∧ p.2 ≠ ep := by
      intro p
      rw [mem_removeEndpoint, mem]
      constructor
      · rintro ⟨⟨-, hp⟩ | ⟨own, -⟩, other⟩
        · exact ⟨hp, other⟩
        · exact absurd own other
      · rintro ⟨hp, other⟩
        exact ⟨.inl ⟨other, hp⟩, other⟩
    obtain ⟨rest, eq', owns'⟩ := ih (joined.removeEndpoint ep) some fun e he p hp => free e he p ((mem' p).1 hp).1
    refine ⟨_, by rw [TokenMetadata.joinPending, eq, ok_bind, eq']; rfl, fun x t => ?_⟩
    have first : Tried allLeft [] ep tokens (allLeft.updateNormalTokensOf snitch tokens ep) := ⟨joined, by simpa using mem⟩
    constructor
    · rintro ⟨r, hr, inside⟩
      rcases mem_append.1 hr with hr | hr
      · obtain ⟨⟨y, r'⟩, hy, eq⟩ := List.mem_filterMap.1 hr
        split at eq
        next own =>
          cases eq
          cases own
          exact ⟨[], tokens, es, _, rfl, first, (joined.exists_addressRange owns).1 ⟨r', hy, inside⟩⟩
        · cases eq
      · obtain ⟨before, tokens', after, ring, rfl, tried, own⟩ := (owns' x t).1 ⟨r, hr, inside⟩
        refine ⟨(ep, tokens) :: before, tokens', after, ring, rfl, ⟨tried.ordered, fun p => (tried.mem p).trans ?_⟩, own⟩
        rw [mem', List.map_cons, mem_cons, not_or]
        tauto
    · rintro ⟨before, tokens', after, ring, split, tried, own⟩
      cases before with
      | nil =>
        cases split
        have same : ring.tokenToEndpoint = (allLeft.updateNormalTokensOf snitch tokens ep).tokenToEndpoint := by
          have sorted : Sorted Prod.fst ring.tokenToEndpoint := tried.ordered.sorted
          refine sorted.eq_of_mem joined.sorted fun p => ?_
          rw [tried.mem, first.mem]
          rfl
        have own' : (allLeft.updateNormalTokensOf snitch tokens ep).Replica replicationFactor t ep := by
          rw [Replica, IsMember, ahead, ownersFrom, ← same]
          exact own
        obtain ⟨r, hr, inside⟩ := (joined.exists_addressRange owns).2 own'
        exact ⟨r, List.mem_append_left _ (List.mem_filterMap.2 ⟨(ep, r), hr, if_pos rfl⟩), inside⟩
      | cons e before =>
        obtain ⟨rfl, rfl⟩ := List.cons.inj split
        have later : Tried ((allLeft.updateNormalTokensOf snitch tokens ep).removeEndpoint ep) (before.map Prod.fst) x tokens'
            ring := by
          refine ⟨tried.ordered, fun p => (tried.mem p).trans ?_⟩
          rw [mem', List.map_cons, mem_cons, not_or]
          tauto
        obtain ⟨r, hr, inside⟩ := (owns' x t).2 ⟨before, tokens', after, ring, rfl, later, own⟩
        exact ⟨r, List.mem_append_right _ hr, inside⟩

section Interval

omit [DecidableEq Ep]

variable [BoundedOrder T]

theorem inInterval_iff {r : NonwrappingRange T} {t : T} (min : ⊥ < t) (max : t < ⊤) :
    (rangeToInterval r).1 ≤ Cut.before t ∧ Cut.before t < (rangeToInterval r).2 ↔ r.contains t = true := by
  rw [contains_iff, rangeToInterval, lower, upper]
  refine and_congr ?_ ?_
  · cases r.start with
    | none => simp [RangeBound.lower, min]
    | some b => rfl
  · cases r.stop with
    | none => simp [RangeBound.upper, max]
    | some b => rfl

/-- The pending endpoints of a token that a key can have are those of the ranges that contain it. -/
theorem mem_pendingEndpointsFor {pending : List (NonwrappingRange T × Ep)} {t : T} (min : ⊥ < t) (max : t < ⊤) {ep : Ep} :
    ep ∈ pendingEndpointsFor (setPendingRanges pending) t ↔ ∃ r, (r, ep) ∈ pending ∧ r.contains t = true := by
  have step : ∀ {map : IntervalMap (Cut T) Ep} (pending : List (NonwrappingRange T × Ep)), IntervalMap.WellFormed map →
      (ep ∈ IntervalMap.lookup (pending.foldl addPending map) (Cut.before t) ↔
        (∃ r, (r, ep) ∈ pending ∧ r.contains t = true) ∨ ep ∈ IntervalMap.lookup map (Cut.before t)) := by
    intro map pending
    induction pending generalizing map with
    | nil => simp
    | cons x pending ih =>
      intro wellFormed
      have add : IntervalMap.WellFormed (addPending map x) ∧ (ep ∈ IntervalMap.lookup (addPending map x) (Cut.before t) ↔
          (ep = x.2 ∧ x.1.contains t = true) ∨ ep ∈ IntervalMap.lookup map (Cut.before t)) := by
        unfold addPending
        dsimp only
        split
        next lt =>
          refine ⟨wellFormed.add lt.le _, ?_⟩
          rw [IntervalMap.mem_lookup_add wellFormed lt.le, inInterval_iff min max]
        next ge =>
          refine ⟨wellFormed, (or_iff_right fun ⟨_, inside⟩ => ge ?_).symm⟩
          obtain ⟨le, lt⟩ := (inInterval_iff min max).2 inside
          exact le.trans_lt lt
      rw [List.foldl_cons, ih add.1, add.2, ← or_assoc]
      refine or_congr_left ⟨?_, ?_⟩
      · rintro (⟨r, hr, inside⟩ | ⟨rfl, inside⟩)
        · exact ⟨r, List.mem_cons_of_mem _ hr, inside⟩
        · exact ⟨x.1, List.mem_cons_self, inside⟩
      · rintro ⟨r, hr, inside⟩
        rcases mem_cons.1 hr with rfl | hr
        · exact .inr ⟨rfl, inside⟩
        · exact .inl ⟨r, hr, inside⟩
  have empty : IntervalMap.WellFormed ([] : IntervalMap (Cut T) Ep) := ⟨nofun, .nil⟩
  exact (step pending empty).trans (or_iff_left List.not_mem_nil)

end Interval

end TokenMetadata

end ScyllaMoon.Locator
