import ScyllaMoon.Locator.PendingRanges

/-!
# Writes reach the future owners

When all endpoints that leave are gone and all that bootstrap or move have their new tokens, a token may have
other natural endpoints than now. They are pending now, unless an endpoint that moves goes past a token of the
ring that there will be: nobody then tries the ring that it leaves behind.
-/

namespace ScyllaMoon.Locator

open Lib Dht List

namespace TokenMetadata

variable {T Ep Dc Rack : Type} [LinearOrder T] [DecidableEq Ep] [DecidableEq Dc] [DecidableEq Rack]
variable (tm : TokenMetadata T Ep Dc Rack)

/-- The tokens that somebody is going to have -/
def newTokens : List (T × Ep) := tm.bootstrapTokens ++ tm.movingEndpoints

/-- The ring that there will be: all leaving endpoints are removed, and those that bootstrap or move have their
new tokens. -/
def settled (snitch : Snitch Ep Dc Rack) : TokenMetadata T Ep Dc Rack :=
  tm.relocations.foldl (fun ring e => ring.updateNormalTokensOf snitch e.2 e.1) tm.cloneAfterAllLeft

open Prod (snd fst)

/-- Nobody is going to have a token that somebody else has or is going to have. Who bootstraps is not in the ring and
does not move, who moves does so to one token, and the tokens of the ring are tokens that keys can have. -/
structure Unambiguous [BoundedOrder T] (tm : TokenMetadata T Ep Dc Rack) : Prop where
  ordered : tm.Ordered
  keys : ∀ p ∈ tm.tokenToEndpoint, ⊥ < p.1 ∧ p.1 < ⊤
  bootstrapping : ∀ p ∈ tm.bootstrapTokens, ¬ tm.IsMember p.2 ∧ p.2 ∉ tm.movingEndpoints.map snd
  moving : (tm.movingEndpoints.map snd).Nodup
  distinct : ∀ p ∈ tm.newTokens, ∀ q ∈ tm.newTokens, p.1 = q.1 → p.2 = q.2
  free : ∀ p ∈ tm.newTokens, ∀ q ∈ tm.tokenToEndpoint, q.1 = p.1 → q.2 = p.2 ∨ q.2 ∈ tm.leavingEndpoints

/-- Whoever moves and stays goes from each of its tokens straight to the new one: no other token of the ring that
there will be lies between. -/
def Straight (snitch : Snitch Ep Dc Rack) : Prop :=
  ∀ p ∈ tm.movingEndpoints, p.2 ∉ tm.leavingEndpoints → ∀ t, (t, p.2) ∈ tm.tokenToEndpoint →
    successor (tm.settled snitch).sortedTokens t = some p.1

/-- Every natural endpoint that the token will have is one now or is pending. -/
def Reaches [BoundedOrder T] (tm : TokenMetadata T Ep Dc Rack) (snitch : Snitch Ep Dc Rack) (replicationFactor : Nat) (t : T) :
    Prop :=
  ∃ future now pending,
    SimpleStrategy.calculateNaturalEndpoints replicationFactor t (tm.settled snitch) = .ok future ∧
    SimpleStrategy.calculateNaturalEndpoints replicationFactor t tm = .ok now ∧
    calculatePendingRanges (.simpleStrategy replicationFactor) snitch tm = .ok pending ∧
    ∀ ep ∈ future, ep ∈ now ∨ ep ∈ pendingEndpointsFor (setPendingRanges pending) t

variable {tm : TokenMetadata T Ep Dc Rack} {snitch : Snitch Ep Dc Rack} {replicationFactor : Nat}

section Ahead

omit [DecidableEq Dc] [DecidableEq Rack]

variable (sorted : tm.tokenToEndpoint.Pairwise fun p q => p.1 < q.1) {t : T} {ep other : Ep}

include sorted

/-- The owner of a token of the ring is ahead of everybody else. -/
theorem owner_ahead (owns : (t, other) ∈ tm.tokenToEndpoint) (ne : other ≠ ep) : other ∈ tm.ahead t ep := by
  refine (mem_ahead sorted).2 ⟨t, owns, fun u hu => position_lt_iff.2 ?_⟩
  have sorted : Sorted fst tm.tokenToEndpoint := sorted
  have apart : t ≠ u := fun eq => ne (congrArg snd (inj_on_of_nodup_map sorted.nodup owns hu eq))
  rcases apart.lt_or_gt with lt | gt
  · exact .inr ⟨iff_of_false (lt_irrefl _) lt.not_gt, lt⟩
  · exact .inl ⟨le_rfl, gt⟩

theorem not_replica_of_owner (owns : (t, other) ∈ tm.tokenToEndpoint) (ne : other ≠ ep) : ¬ tm.Replica 1 t ep := by
  rintro ⟨-, zero | few⟩
  · cases zero
  · exact absurd (Finset.card_pos.2 ⟨other, owner_ahead sorted owns ne⟩) (by omega)

theorem ahead_ssubset (before : other ∈ tm.ahead t ep) : tm.ahead t other ⊂ tm.ahead t ep := by
  obtain ⟨s, hs, first⟩ := (mem_ahead sorted).1 before
  refine Finset.ssubset_iff_subset_ne.2 ⟨fun x hx => ?_, fun eq => ?_⟩
  · obtain ⟨r, hr, first'⟩ := (mem_ahead sorted).1 hx
    exact (mem_ahead sorted).2 ⟨r, hr, fun u hu => (first' s hs).trans (first u hu)⟩
  · rw [← eq] at before
    obtain ⟨r, hr, first'⟩ := (mem_ahead sorted).1 before
    exact lt_irrefl _ (first' r hr)

/-- If some of those ahead of an endpoint leave and it becomes a natural endpoint because of that, then one of those
that leave is a natural endpoint. -/
theorem exists_leaving_replica {allLeft : TokenMetadata T Ep Dc Rack} {leaving : List Ep}
    (sorted' : allLeft.tokenToEndpoint.Pairwise fun p q => p.1 < q.1)
    (mem : ∀ p, p ∈ allLeft.tokenToEndpoint ↔ p ∈ tm.tokenToEndpoint ∧ p.2 ∉ leaving)
    (later : allLeft.Replica replicationFactor t ep) (now : ¬ tm.Replica replicationFactor t ep) :
    ∃ gone ∈ leaving, tm.Replica replicationFactor t gone := by
  obtain ⟨⟨u, hu⟩, few⟩ := later
  have member : tm.IsMember ep := ⟨u, ((mem _).1 hu).1⟩
  have stays : ∀ {x}, x ∈ tm.ahead t ep → x ∉ leaving → x ∈ allLeft.ahead t ep := by
    intro x hx stays
    obtain ⟨s, hs, first⟩ := (mem_ahead sorted).1 hx
    exact (mem_ahead sorted').2 ⟨s, (mem _).2 ⟨hs, stays⟩, fun u hu => first u ((mem _).1 hu).1⟩
  have few : (allLeft.ahead t ep).card < replicationFactor := few.resolve_left fun zero => now ⟨member, .inl zero⟩
  have many : ¬ (tm.ahead t ep).card < replicationFactor := fun few => now ⟨member, .inr few⟩
  -- the first of those ahead that leave
  have some : ((tm.ahead t ep).filter fun x => x ∈ leaving).Nonempty := by
    by_contra none
    refine many (lt_of_le_of_lt (Finset.card_le_card fun x hx => stays hx fun leaves => none ?_) few)
    exact ⟨x, Finset.mem_filter.2 ⟨hx, leaves⟩⟩
  obtain ⟨gone, hgone, first⟩ := Finset.exists_min_image _ (fun x => (tm.ahead t x).card) some
  obtain ⟨before, leaves⟩ := Finset.mem_filter.1 hgone
  obtain ⟨s, hs, -⟩ := (mem_ahead sorted).1 before
  refine ⟨gone, leaves, ⟨s, hs⟩, .inr (lt_of_le_of_lt (Finset.card_le_card fun x hx => ?_) few)⟩
  have inside := ahead_ssubset sorted before
  refine stays (inside.subset hx) fun leaves' => ?_
  have fewer := Finset.card_lt_card (ahead_ssubset sorted hx)
  exact absurd fewer (not_lt.2 (first x (Finset.mem_filter.2 ⟨inside.subset hx, leaves'⟩)))

end Ahead

/-- What happens to the ring when several endpoints take tokens. -/
theorem Ordered.foldl_updateNormalTokensOf (ordered : tm.Ordered) (snitch : Snitch Ep Dc Rack) {es : List (Ep × List T)}
    (some : ∀ e ∈ es, e.2 ≠ []) (nodup : (es.map fst).Nodup) (free : ∀ e ∈ es, tm.Free e.2 e.1)
    (distinct : ∀ e ∈ es, ∀ e' ∈ es, ∀ t ∈ e.2, t ∈ e'.2 → e.1 = e'.1) :
    (es.foldl (fun ring e => ring.updateNormalTokensOf snitch e.2 e.1) tm).Ordered ∧
      ∀ p, p ∈ (es.foldl (fun ring e => ring.updateNormalTokensOf snitch e.2 e.1) tm).tokenToEndpoint ↔
        p ∈ tm.tokenToEndpoint ∧ p.2 ∉ es.map fst ∨ ∃ e ∈ es, p.2 = e.1 ∧ p.1 ∈ e.2 := by
  induction es generalizing tm with
  | nil => exact ⟨ordered, by simp⟩
  | cons e es ih =>
    obtain ⟨some', some⟩ := forall_mem_cons.1 some
    obtain ⟨new, nodup⟩ := nodup_cons.1 nodup
    obtain ⟨free', free⟩ := forall_mem_cons.1 free
    obtain ⟨joined, mem⟩ := ordered.updateNormalTokensOf snitch some' free'
    have free : ∀ e' ∈ es, (tm.updateNormalTokensOf snitch e.2 e.1).Free e'.2 e'.1 := by
      intro e' he' p hp taken
      rcases (mem p).1 hp with ⟨-, hp⟩ | ⟨own, taken'⟩
      · exact free e' he' p hp taken
      · exact own.trans (distinct e mem_cons_self e' (mem_cons_of_mem _ he') p.1 taken' taken)
    obtain ⟨ordered', mem'⟩ := ih joined some nodup free fun e he e' he' =>
      distinct e (mem_cons_of_mem _ he) e' (mem_cons_of_mem _ he')
    refine ⟨ordered', fun p => (mem' p).trans ?_⟩
    rw [mem, map_cons, mem_cons, not_or]
    constructor
    · rintro (⟨⟨other, hp⟩ | own, out⟩ | ⟨e', he', own⟩)
      · exact .inl ⟨hp, other, out⟩
      · exact .inr ⟨e, mem_cons_self, own⟩
      · exact .inr ⟨e', mem_cons_of_mem _ he', own⟩
    · rintro (⟨hp, other, out⟩ | ⟨e', he', own⟩)
      · exact .inl ⟨.inl ⟨other, hp⟩, out⟩
      · rcases mem_cons.1 he' with rfl | he'
        · exact .inl ⟨.inr own, fun again => new (own.1 ▸ again)⟩
        · exact .inr ⟨e', he', own⟩

section Unambiguous

variable [BoundedOrder T] {e : Ep × List T}

omit [LinearOrder T] [DecidableEq Dc] [DecidableEq Rack] [BoundedOrder T] in
theorem mem_bootstrapAddresses : e ∈ tm.bootstrapAddresses ↔
    e.1 ∈ tm.bootstrapTokens.map snd ∧ e.2 = (tm.bootstrapTokens.filter fun p => decide (p.2 = e.1)).map fst := by
  unfold bootstrapAddresses
  rw [mem_map]
  constructor
  · rintro ⟨ep, hep, rfl⟩
    exact ⟨mem_dedup.1 hep, rfl⟩
  · rintro ⟨hep, eq⟩
    exact ⟨e.1, mem_dedup.2 hep, by rw [← eq]⟩

omit [DecidableEq Dc] [DecidableEq Rack] in
/-- Each endpoint is tried with all tokens that it is going to have. -/
theorem Unambiguous.mem_tokens (ok : tm.Unambiguous) (he : e ∈ tm.relocations) {t : T} :
    t ∈ e.2 ↔ (t, e.1) ∈ tm.newTokens := by
  unfold newTokens
  rw [mem_append]
  rcases mem_append.1 he with he | he
  · obtain ⟨hep, eq⟩ := mem_bootstrapAddresses.1 he
    obtain ⟨q, hq, own⟩ := mem_map.1 hep
    have still : (t, e.1) ∉ tm.movingEndpoints := fun moves =>
      (ok.bootstrapping q hq).2 (own ▸ mem_map_of_mem moves)
    rw [eq, or_iff_left still]
    simp
  · obtain ⟨q, hq, rfl⟩ := mem_map.1 he
    have old : (t, q.2) ∉ tm.bootstrapTokens := fun boots =>
      (ok.bootstrapping _ boots).2 (mem_map.2 ⟨q, hq, rfl⟩)
    rw [or_iff_right old, mem_singleton]
    refine ⟨fun eq => by rw [eq]; exact hq, fun moves => ?_⟩
    exact congrArg fst (inj_on_of_nodup_map ok.moving moves hq rfl)

omit [LinearOrder T] [DecidableEq Dc] [DecidableEq Rack] [BoundedOrder T] in
theorem mem_relocations_fst {ep : Ep} : ep ∈ tm.relocations.map fst ↔ ep ∈ tm.newTokens.map snd := by
  unfold relocations newTokens bootstrapAddresses
  simp

section

variable (ok : tm.Unambiguous)
include ok

section

omit [DecidableEq Dc] [DecidableEq Rack]

theorem Unambiguous.nodup_relocations : (tm.relocations.map fst).Nodup := by
  have first : tm.bootstrapAddresses.map fst = (tm.bootstrapTokens.map snd).dedup := by
    unfold bootstrapAddresses
    rw [map_map]
    exact map_id _
  have second : (tm.movingEndpoints.map fun p => (p.2, [p.1])).map fst = tm.movingEndpoints.map snd := by
    rw [map_map]
    rfl
  unfold relocations
  rw [map_append, first, second]
  refine nodup_append.2 ⟨nodup_dedup _, ok.moving, fun ep hep ep' hep' eq => ?_⟩
  obtain ⟨q, hq, rfl⟩ := mem_map.1 (mem_dedup.1 hep)
  exact (ok.bootstrapping q hq).2 (eq ▸ hep')

theorem Unambiguous.relocations_ne_nil (he : e ∈ tm.relocations) : e.2 ≠ [] := by
  obtain ⟨p, hp, own⟩ := mem_map.1 (mem_relocations_fst.1 (mem_map_of_mem he))
  refine ne_nil_of_mem (a := p.1) ((ok.mem_tokens he).2 ?_)
  rw [← own]
  exact hp

end

theorem Unambiguous.relocations_free (he : e ∈ tm.relocations) : tm.cloneAfterAllLeft.Free e.2 e.1 := by
  intro p hp taken
  obtain ⟨hp, stays⟩ := (ok.ordered.cloneAfterAllLeft.2 p).1 hp
  exact (ok.free _ ((ok.mem_tokens he).1 taken) p hp rfl).resolve_right stays

/-- The ring that there will be has the tokens of those that neither leave nor get new ones, and the new tokens. -/
theorem Unambiguous.settled (snitch : Snitch Ep Dc Rack) : (tm.settled snitch).Ordered ∧
    ∀ p, p ∈ (tm.settled snitch).tokenToEndpoint ↔ (p ∈ tm.tokenToEndpoint ∧ p.2 ∉ tm.leavingEndpoints) ∧
      p.2 ∉ tm.newTokens.map snd ∨ p ∈ tm.newTokens := by
  obtain ⟨ordered, mem⟩ := ok.ordered.cloneAfterAllLeft.1.foldl_updateNormalTokensOf snitch
    (fun e he => ok.relocations_ne_nil he) ok.nodup_relocations (fun e he => ok.relocations_free he)
    fun e he e' he' t ht ht' => ok.distinct _ ((ok.mem_tokens he).1 ht) _ ((ok.mem_tokens he').1 ht') rfl
  refine ⟨ordered, fun p => (mem p).trans ?_⟩
  rw [ok.ordered.cloneAfterAllLeft.2, mem_relocations_fst]
  refine or_congr_right ⟨?_, fun new => ?_⟩
  · rintro ⟨e, he, own, taken⟩
    have new := (ok.mem_tokens he).1 taken
    rw [← own] at new
    exact new
  · obtain ⟨e, he, own⟩ := mem_map.1 (mem_relocations_fst.2 (mem_map_of_mem new))
    refine ⟨e, he, own.symm, (ok.mem_tokens he).2 ?_⟩
    rw [own]
    exact new

/-- What is pending: what somebody gets because others leave, or what somebody has when it is tried. -/
theorem Unambiguous.calculatePendingRanges (snitch : Snitch Ep Dc Rack) (replicationFactor : Nat) :
    ∃ pending, TokenMetadata.calculatePendingRanges (.simpleStrategy replicationFactor) snitch tm = .ok pending ∧
      ∀ t ep, ⊥ < t → t < ⊤ → (ep ∈ pendingEndpointsFor (setPendingRanges pending) t ↔
        ((∃ gone ∈ tm.leavingEndpoints, tm.Replica replicationFactor t gone) ∧
          tm.cloneAfterAllLeft.Replica replicationFactor t ep ∧ ¬ tm.Replica replicationFactor t ep) ∨
        ∃ before tokens after ring, tm.relocations = before ++ (ep, tokens) :: after ∧
          Tried tm.cloneAfterAllLeft (before.map fst) ep tokens ring ∧ ring.Replica replicationFactor t ep) := by
  unfold TokenMetadata.calculatePendingRanges
  split
  next nothing =>
    simp only [Bool.and_eq_true, List.isEmpty_iff] at nothing
    refine ⟨[], rfl, fun t ep min max => iff_of_false ?_ ?_⟩
    · rw [mem_pendingEndpointsFor min max]
      rintro ⟨r, hr, -⟩
      cases hr
    · rintro (⟨⟨gone, leaves, -⟩, -⟩ | ⟨before, tokens, after, ring, eq, -⟩)
      · rw [nothing.1.2] at leaves
        cases leaves
      · have none : tm.relocations = [] := by
          rw [relocations, bootstrapAddresses, nothing.1.1, nothing.2]
          rfl
        rw [none] at eq
        exact cons_ne_nil _ _ (append_eq_nil_iff.1 eq.symm).2
  · obtain ⟨ranges, eq, owns⟩ := ok.ordered.getAddressRanges snitch replicationFactor
    have clone : tm.cloneOnlyTokenMap.Ordered := ⟨ok.ordered.sorted, rfl⟩
    obtain ⟨left, mem⟩ := ok.ordered.cloneAfterAllLeft
    obtain ⟨leave, eq', gains⟩ := leavePending_spec clone left snitch replicationFactor (tm.affectedRanges ranges)
    obtain ⟨join, eq'', tries⟩ := left.joinPending snitch replicationFactor (fun e he => ok.relocations_ne_nil he)
      fun e he => ok.relocations_free he
    refine ⟨leave ++ join, by simp only [eq, eq', eq'', ok_bind], fun t ep min max => ?_⟩
    -- the token that stands for a range has the natural endpoints of all tokens of the range
    have same : ∀ {gone r}, (gone, r) ∈ ranges → r.contains t = true → ∀ ep,
        (tm.Replica replicationFactor t ep ↔ tm.Replica replicationFactor (TokenMetadata.closingToken r) ep) ∧
        (tm.cloneAfterAllLeft.Replica replicationFactor t ep ↔
          tm.cloneAfterAllLeft.Replica replicationFactor (TokenMetadata.closingToken r) ep) := by
      intro gone r hr inside ep
      obtain ⟨p, arc, -, part⟩ := (owns gone r).1 hr
      have between := ok.ordered.closingToken arc part inside
      exact ⟨replica_congr ok.ordered.sorted between ep,
        replica_congr left.sorted (fun q hq => between q ((mem q).1 hq).1) ep⟩
    rw [mem_pendingEndpointsFor min max]
    simp only [mem_append, or_and_right, exists_or]
    refine or_congr ⟨?_, ?_⟩ (tries ep t)
    · rintro ⟨r, hr, inside⟩
      obtain ⟨part, later, now⟩ := (gains r ep).1 hr
      obtain ⟨gone, leaves, hr⟩ := mem_affectedRanges.1 part
      refine ⟨⟨gone, leaves, (ok.ordered.exists_addressRange owns).1 ⟨r, hr, inside⟩⟩, ?_, fun has => now ?_⟩
      · exact (same hr inside ep).2.2 later
      · exact (same hr inside ep).1.1 has
    · rintro ⟨⟨gone, leaves, has⟩, later, now⟩
      obtain ⟨r, hr, inside⟩ := (ok.ordered.exists_addressRange owns).2 has
      refine ⟨r, (gains r ep).2 ⟨mem_affectedRanges.2 ⟨gone, leaves, hr⟩, (same hr inside ep).2.1 later, fun has => now ?_⟩, inside⟩
      exact (same hr inside ep).1.2 has

/-- Whoever stays keeps its token, or has the one that follows it first in the ring that there will be. -/
theorem Unambiguous.follows (straight : tm.Straight snitch) {s : T} {x : Ep}
    (stays : (s, x) ∈ tm.cloneAfterAllLeft.tokenToEndpoint) : (s, x) ∈ (tm.settled snitch).tokenToEndpoint ∨
      ∃ n, (n, x) ∈ (tm.settled snitch).tokenToEndpoint ∧
        ∀ q ∈ (tm.settled snitch).tokenToEndpoint, position s n ≤ position s q.1 := by
  obtain ⟨ordered, mem⟩ := ok.settled snitch
  obtain ⟨hs, stays⟩ := (ok.ordered.cloneAfterAllLeft.2 _).1 stays
  by_cases new : x ∈ tm.newTokens.map snd
  · obtain ⟨p, hp, rfl⟩ := mem_map.1 new
    rcases mem_append.1 hp with boots | moves
    · exact absurd ⟨s, hs⟩ (ok.bootstrapping p boots).1
    · have next := straight p moves stays s hs
      rw [successor_eq_some_iff_position ordered.pairwise, ordered.tokens] at next
      exact .inr ⟨p.1, (mem p).2 (.inr hp), fun q hq => next.2 q.1 (mem_map_of_mem hq)⟩
  · exact .inl ((mem _).2 (.inl ⟨⟨hs, stays⟩, new⟩))

theorem Unambiguous.reaches (straight : tm.Straight snitch) (replicationFactor : Nat) {t : T}
    (min : ⊥ < t) (max : t < ⊤) : tm.Reaches snitch replicationFactor t := by
  obtain ⟨ordered, mem⟩ := ok.settled snitch
  obtain ⟨left, mem'⟩ := ok.ordered.cloneAfterAllLeft
  obtain ⟨future, eq, replica⟩ := ordered.mem_naturalEndpoints replicationFactor t
  obtain ⟨now, eq', replica'⟩ := ok.ordered.mem_naturalEndpoints replicationFactor t
  obtain ⟨pending, eq'', spec⟩ := ok.calculatePendingRanges snitch replicationFactor
  refine ⟨future, now, pending, eq, eq', eq'', fun ep owns => ?_⟩
  obtain ⟨⟨u, hu⟩, few⟩ := (replica ep).1 owns
  rw [replica', spec t ep min max]
  by_cases new : ep ∈ tm.newTokens.map snd
  · -- it is tried, with fewer ahead of it than there will be
    obtain ⟨⟨ep', tokens⟩, he, rfl⟩ := mem_map.1 (mem_relocations_fst.2 new)
    obtain ⟨before, after, split⟩ := append_of_mem he
    obtain ⟨ring, tried⟩ := left.exists_tried snitch (ok.relocations_ne_nil he) (ok.relocations_free he) (before.map fst)
    refine .inr (.inr ⟨before, tokens, after, ring, split, tried, ?_⟩)
    have own : ∀ u, (u, ep') ∈ (tm.settled snitch).tokenToEndpoint → (u, ep') ∈ ring.tokenToEndpoint := by
      intro u hu
      refine (tried.mem _).2 (.inr ⟨rfl, (ok.mem_tokens he).2 ?_⟩)
      exact ((mem _).1 hu).resolve_left fun kept => kept.2 new
    refine ⟨⟨u, own u hu⟩, few.imp_right (lt_of_le_of_lt (Finset.card_le_card ?_))⟩
    refine ahead_subset tried.ordered.sorted ordered.sorted own (fun s x ne hs => ?_) t
    rcases (tried.mem _).1 hs with ⟨-, -, stays⟩ | ⟨own, -⟩
    · exact ok.follows straight stays
    · exact absurd own ne
  · -- it keeps its tokens, so others have left
    by_cases has : tm.Replica replicationFactor t ep
    · exact .inl has
    · have own : ∀ u, (u, ep) ∈ (tm.settled snitch).tokenToEndpoint → (u, ep) ∈ tm.cloneAfterAllLeft.tokenToEndpoint := by
        intro u hu
        rcases (mem _).1 hu with ⟨kept, -⟩ | moves
        · exact (mem' _).2 kept
        · exact absurd (mem_map_of_mem moves) new
      have later : tm.cloneAfterAllLeft.Replica replicationFactor t ep := by
        refine ⟨⟨u, own u hu⟩, few.imp_right (lt_of_le_of_lt (Finset.card_le_card ?_))⟩
        exact ahead_subset left.sorted ordered.sorted own (fun s x _ hs => ok.follows straight hs) t
      exact .inr (.inl ⟨exists_leaving_replica ok.ordered.sorted left.sorted mem' later has, later, has⟩)

end

/-- The order in which the moving endpoints are tried -/
def withMoving (tm : TokenMetadata T Ep Dc Rack) (moving : List (T × Ep)) : TokenMetadata T Ep Dc Rack :=
  { tm with movingEndpoints := moving }

variable {moving : List (T × Ep)}

omit [DecidableEq Dc] [DecidableEq Rack] [BoundedOrder T] [LinearOrder T] [DecidableEq Ep] in
theorem mem_newTokens_withMoving (perm : moving.Perm tm.movingEndpoints) {p : T × Ep} :
    p ∈ (tm.withMoving moving).newTokens ↔ p ∈ tm.newTokens := by
  unfold newTokens withMoving
  rw [mem_append, mem_append, perm.mem_iff]

omit [DecidableEq Ep] [DecidableEq Dc] [DecidableEq Rack] in
theorem Unambiguous.withMoving (ok : tm.Unambiguous) (perm : moving.Perm tm.movingEndpoints) :
    (tm.withMoving moving).Unambiguous where
  ordered := ⟨ok.ordered.sorted, ok.ordered.tokens⟩
  keys := ok.keys
  bootstrapping p hp := ⟨(ok.bootstrapping p hp).1, fun moves => (ok.bootstrapping p hp).2 ((perm.map _).mem_iff.1 moves)⟩
  moving := (perm.map _).nodup_iff.2 ok.moving
  distinct p hp q hq := ok.distinct p ((mem_newTokens_withMoving perm).1 hp) q ((mem_newTokens_withMoving perm).1 hq)
  free p hp := ok.free p ((mem_newTokens_withMoving perm).1 hp)

theorem Unambiguous.mem_settled_withMoving (ok : tm.Unambiguous) (snitch : Snitch Ep Dc Rack)
    (perm : moving.Perm tm.movingEndpoints) (p : T × Ep) :
    p ∈ ((tm.withMoving moving).settled snitch).tokenToEndpoint ↔ p ∈ (tm.settled snitch).tokenToEndpoint := by
  rw [((ok.withMoving perm).settled snitch).2, (ok.settled snitch).2]
  simp only [mem_map, mem_newTokens_withMoving perm]
  rfl

theorem Unambiguous.sortedTokens_withMoving (ok : tm.Unambiguous) (snitch : Snitch Ep Dc Rack)
    (perm : moving.Perm tm.movingEndpoints) :
    ((tm.withMoving moving).settled snitch).sortedTokens = (tm.settled snitch).sortedTokens := by
  have ordered := ((ok.withMoving perm).settled snitch).1
  have ordered' := (ok.settled snitch).1
  have sorted : Sorted fst ((tm.withMoving moving).settled snitch).tokenToEndpoint := ordered.sorted
  rw [ordered.tokens, ordered'.tokens, sorted.eq_of_mem ordered'.sorted (ok.mem_settled_withMoving snitch perm)]

omit [LinearOrder T] [DecidableEq Ep] [BoundedOrder T] in
/-- The last of several entries does not come before another one. -/
theorem last_notMem_before {es front before after : List (Ep × List T)} {last e : Ep × List T}
    (nodup : (es.map fst).Nodup) (split : es = front ++ [last]) (split' : es = before ++ e :: after)
    (ne : last.1 ≠ e.1) : last.1 ∉ before.map fst := by
  subst split
  rw [map_append, nodup_append] at nodup
  rcases eq_nil_or_concat after with rfl | ⟨after, y, rfl⟩
  · cases (append_inj' split' rfl).2
    exact absurd rfl ne
  · rw [concat_eq_append, ← cons_append, ← append_assoc] at split'
    have eq := (append_inj' split' rfl).1
    intro mem
    refine nodup.2.2 last.1 ?_ last.1 (by simp) rfl
    rw [eq, map_append]
    exact mem_append_left _ mem

/-- When an endpoint moves past another token, the owner of that token is not pending for what the endpoint has now, if
the endpoint is tried last. -/
theorem Unambiguous.straight (ok : tm.Unambiguous)
    (reaches : ∀ moving : List (T × Ep), moving.Perm tm.movingEndpoints → ∀ t, ⊥ < t → t < ⊤ →
      (tm.withMoving moving).Reaches snitch 1 t) : tm.Straight snitch := by
  intro p moves stays t owns
  obtain ⟨front, back, split⟩ := append_of_mem moves
  have perm : (front ++ back ++ [p]).Perm tm.movingEndpoints := by
    rw [split, append_assoc]
    exact (perm_append_singleton p back).append_left front
  have ok' := ok.withMoving perm
  have key := ok.keys _ owns
  obtain ⟨ordered, mem⟩ := ok.settled snitch
  obtain ⟨ordered', -⟩ := ok'.settled snitch
  have new : p ∈ tm.newTokens := mem_append_right _ moves
  have some : (tm.settled snitch).sortedTokens ≠ [] := by
    rw [ordered.tokens]
    exact ne_nil_of_mem (mem_map_of_mem ((mem p).2 (.inr new)))
  obtain ⟨tok, next⟩ := exists_successor some t
  rw [next]
  rw [successor_eq_some_iff_position ordered.pairwise, ordered.tokens] at next
  obtain ⟨⟨tok, ep⟩, hq, rfl⟩ := mem_map.1 next.1
  by_cases same : p.2 = ep
  · -- the endpoint has no other token than the new one
    subst same
    rcases (mem _).1 hq with ⟨-, old⟩ | new'
    · exact absurd (mem_map_of_mem new) old
    · rcases mem_append.1 new' with boots | moves'
      · exact absurd (mem_map_of_mem moves) (ok.bootstrapping _ boots).2
      · rw [inj_on_of_nodup_map ok.moving moves' moves rfl]
  · exfalso
    obtain ⟨future, now, pending, eq, eq', eq'', all⟩ := reaches _ perm t key.1 key.2
    obtain ⟨future', natural, replica⟩ := ordered'.mem_naturalEndpoints 1 t
    cases Except.ok.inj (eq.symm.trans natural)
    obtain ⟨now', natural', replica'⟩ := ok'.ordered.mem_naturalEndpoints 1 t
    cases Except.ok.inj (eq'.symm.trans natural')
    obtain ⟨pending', eq', spec⟩ := ok'.calculatePendingRanges snitch 1
    cases Except.ok.inj (eq''.symm.trans eq')
    have first : ((tm.withMoving (front ++ back ++ [p])).settled snitch).Replica 1 t ep := by
      have owns' := (ok.mem_settled_withMoving snitch perm _).2 hq
      refine ⟨⟨tok, owns'⟩, .inr (Nat.lt_one_iff.2 (Finset.card_eq_zero.2 (Finset.eq_empty_of_forall_notMem fun x hx => ?_)))⟩
      obtain ⟨s, hs, before⟩ := (mem_ahead ordered'.sorted).1 hx
      have hs := (ok.mem_settled_withMoving snitch perm _).1 hs
      exact absurd (before tok owns') (not_lt.2 (next.2 s (mem_map_of_mem hs)))
    rcases all ep ((replica ep).2 first) with has | has
    · exact not_replica_of_owner ok.ordered.sorted owns same ((replica' ep).1 has)
    · rcases (spec t ep key.1 key.2).1 has with ⟨⟨gone, leaves, has⟩, -⟩ | ⟨before, tokens, after, ring, eq, tried, has⟩
      · have ne : p.2 ≠ gone := fun eq => stays (eq ▸ leaves)
        exact not_replica_of_owner ok.ordered.sorted owns ne has
      · have last : (tm.withMoving (front ++ back ++ [p])).relocations =
            (tm.bootstrapAddresses ++ (front ++ back).map fun p => (p.2, [p.1])) ++ [(p.2, [p.1])] := by
          change tm.bootstrapAddresses ++ (front ++ back ++ [p]).map (fun p => (p.2, [p.1])) = _
          rw [map_append, append_assoc]
          rfl
        have there : (t, p.2) ∈ ring.tokenToEndpoint := (tried.mem _).2 (.inl ⟨same,
          last_notMem_before ok'.nodup_relocations last eq same, (ok'.ordered.cloneAfterAllLeft.2 _).2 ⟨owns, stays⟩⟩)
        exact not_replica_of_owner tried.ordered.sorted there same has

end Unambiguous

end TokenMetadata

variable {T Ep Dc Rack : Type} [LinearOrder T] [BoundedOrder T] [DecidableEq Ep] [DecidableEq Dc] [DecidableEq Rack]

/-- In whatever order the moving endpoints are tried, all future natural endpoints of all tokens that keys can have
are natural endpoints now or pending, exactly if those that move and stay go straight to their new tokens. -/
theorem pending_reach_future_owners {tm : TokenMetadata T Ep Dc Rack} (ok : tm.Unambiguous) (snitch : Snitch Ep Dc Rack) :
    (∀ moving : List (T × Ep), moving.Perm tm.movingEndpoints → ∀ replicationFactor t, ⊥ < t → t < ⊤ →
      (tm.withMoving moving).Reaches snitch replicationFactor t) ↔ tm.Straight snitch := by
  constructor
  · exact fun reaches => ok.straight fun moving perm => reaches moving perm 1
  · intro straight moving perm replicationFactor t min max
    refine (ok.withMoving perm).reaches (fun p hp stays u owns => ?_) replicationFactor min max
    rw [ok.sortedTokens_withMoving snitch perm]
    exact straight p (perm.mem_iff.1 hp) stays u owns

/-- One endpoint at token 5 that moves and another one at token 50 -/
def passing (goal : Fin 128) : TokenMetadata (Fin 128) Nat Nat Nat :=
  { tokenToEndpoint := [(5, 0), (50, 1)], sortedTokens := [5, 50], movingEndpoints := [(goal, 0)] }

theorem passing_unambiguous {goal : Fin 128} (free : goal ≠ 5 ∧ goal ≠ 50) : (passing goal).Unambiguous where
  ordered := ⟨show [((5 : Fin 128), 0), (50, 1)].Pairwise _ by decide, rfl⟩
  keys := show ∀ p ∈ [((5 : Fin 128), 0), (50, 1)], ⊥ < p.1 ∧ p.1 < ⊤ by decide
  bootstrapping := nofun
  moving := nodup_singleton _
  distinct p hp q hq _ := by
    cases mem_singleton.1 hp
    cases mem_singleton.1 hq
    rfl
  free p hp q hq eq := by
    cases mem_singleton.1 hp
    rcases mem_cons.1 hq with rfl | hq
    · exact absurd eq.symm free.1
    · cases mem_singleton.1 hq
      exact absurd eq.symm free.2

/-- The endpoint moves from 5 to 20, which is straight ahead. -/
theorem pending_reach_owners_behind : (passing 20).Reaches ⟨fun _ => 0, fun _ => 0⟩ 1 10 := by
  have straight : (passing 20).Straight ⟨fun _ => 0, fun _ => 0⟩ := by
    intro p hp _ t owns
    cases mem_singleton.1 hp
    rcases mem_cons.1 owns with own | owns
    · cases own
      decide
    · cases mem_singleton.1 owns
  exact (pending_reach_future_owners (passing_unambiguous (by decide)) _).2 straight _ (.refl _) 1 10 (by decide) (by decide)

/-- The endpoint moves from 5 to 100, past the other one. That will have token 3 then but gets no writes for it. -/
theorem pending_miss_owner_passed : (passing 100).Unambiguous ∧
    SimpleStrategy.calculateNaturalEndpoints 1 3 ((passing 100).settled ⟨fun _ => 0, fun _ => 0⟩) = .ok [1] ∧
    SimpleStrategy.calculateNaturalEndpoints 1 3 (passing 100) = .ok [0] ∧
    ∃ pending, TokenMetadata.calculatePendingRanges (.simpleStrategy 1) ⟨fun _ => 0, fun _ => 0⟩ (passing 100) = .ok pending ∧
      TokenMetadata.pendingEndpointsFor (TokenMetadata.setPendingRanges pending) 3 = [] :=
  ⟨passing_unambiguous (by decide), by decide, by decide, _, rfl, by decide⟩

end ScyllaMoon.Locator
