import ScyllaMoon.Dht.Range
import ScyllaMoon.Locator.Strategy

/-!
# The ranges that an endpoint owns

Each token of the ring closes the range that begins behind the token before it. The ranges of an endpoint are
those whose closing token has it among its natural endpoints. The range that closes with the first token goes
around the end of the ring and is listed in two parts.
-/

namespace ScyllaMoon.Locator

open Lib Dht NonwrappingRange

variable {T Ep Dc Rack : Type} [LinearOrder T] [DecidableEq Ep] [DecidableEq Dc] [DecidableEq Rack]

/-- `insert_token_range_to_sorted_container_while_unwrapping` -/
def insertTokenRange (prevTok tok : T) (ret : List (NonwrappingRange T)) : List (NonwrappingRange T) :=
  if prevTok < tok then ret ++ [{ start := some ⟨prevTok, false⟩, last := some ⟨tok, true⟩ }]
  else { last := some ⟨tok, true⟩ } :: (ret ++ [{ start := some ⟨prevTok, false⟩ }])

namespace Strategy

/-- The loop of `get_ranges` and `get_primary_ranges`: the ranges that close with a token whose natural endpoints
satisfy `mine` -/
def collectRanges (strategy : Strategy Ep Dc) (snitch : Snitch Ep Dc Rack) (tm : TokenMetadata T Ep Dc Rack)
    (mine : List Ep → Bool) : T → List T → List (NonwrappingRange T) → Except RingFault (List (NonwrappingRange T))
  | _, [], ret => .ok ret
  | prevTok, tok :: toks, ret => do
    let eps ← strategy.calculateNaturalEndpoints snitch tok tm
    collectRanges strategy snitch tm mine tok toks (if mine eps then insertTokenRange prevTok tok ret else ret)

variable (strategy : Strategy Ep Dc) (snitch : Snitch Ep Dc Rack) (tm : TokenMetadata T Ep Dc Rack)

/-- Both start with the last token of the ring as the one before the first. -/
def rangesWhere (mine : List Ep → Bool) : Except RingFault (List (NonwrappingRange T)) :=
  match tm.sortedTokens.getLast? with
  | none => .error .sortedTokensEmpty
  | some back => strategy.collectRanges snitch tm mine back tm.sortedTokens []

/-- `get_ranges` -/
def getRanges (ep : Ep) :
    Except RingFault (List (NonwrappingRange T)) :=
  strategy.rangesWhere snitch tm fun eps => decide (ep ∈ eps)

/-- `get_primary_ranges` -/
def getPrimaryRanges (ep : Ep) :
    Except RingFault (List (NonwrappingRange T)) :=
  strategy.rangesWhere snitch tm fun eps => decide (eps.head? = some ep)

end Strategy

/-- The range from one token to another, in one part or two. -/
def unwrapped (p : T × T) : List (NonwrappingRange T) := insertTokenRange p.1 p.2 []

/-- No token is in both ranges. -/
def Apart (r q : NonwrappingRange T) : Prop := ∀ t, ¬ (r.contains t = true ∧ q.contains t = true)

theorem insertTokenRange_perm (prevTok tok : T) (ret : List (NonwrappingRange T)) :
    (insertTokenRange prevTok tok ret).Perm (ret ++ unwrapped (prevTok, tok)) := by
  unfold unwrapped insertTokenRange
  split
  · exact .rfl
  · exact List.perm_middle.symm

theorem unwrapped_isProper {p : T × T} {r : NonwrappingRange T} (mem : r ∈ unwrapped p) : r.isProper = true := by
  unfold unwrapped insertTokenRange at mem
  split at mem
  next lt =>
    cases List.mem_singleton.1 mem
    simp [isProper, stop, RangeBound.endReaches, lt]
  · rcases List.mem_cons.1 mem with rfl | mem
    · rfl
    · cases List.mem_singleton.1 mem
      rfl

theorem exists_mem_unwrapped {p : T × T} {t : T} : (∃ r ∈ unwrapped p, r.contains t = true) ↔ InArc p t := by
  unfold unwrapped insertTokenRange InArc
  split
  · simp [contains_iff, lower, upper, stop,
      RangeBound.lower, RangeBound.upper]
  · simp [contains_iff, lower, upper, stop,
      RangeBound.lower, RangeBound.upper]

theorem unwrapped_apart (p : T × T) : (unwrapped p).Pairwise Apart := by
  unfold unwrapped insertTokenRange
  split
  · exact List.pairwise_singleton _ _
  next ge =>
    refine List.pairwise_pair.2 fun t both => ge ?_
    simp only [contains_iff, lower, upper, stop, RangeBound.lower, RangeBound.upper] at both
    simp at both
    exact both.2.trans_le both.1

namespace Strategy

variable {tm : TokenMetadata T Ep Dc Rack}

/-- The token closes a range of the kind that is looked for. -/
def Closes (strategy : Strategy Ep Dc) (snitch : Snitch Ep Dc Rack) (tm : TokenMetadata T Ep Dc Rack) (mine : List Ep → Bool)
    (tok : T) : Bool :=
  match strategy.calculateNaturalEndpoints snitch tok tm with
  | .ok eps => mine eps
  | .error _ => false

theorem collectRanges_spec (populated : tm.Populated) (strategy : Strategy Ep Dc) (snitch : Snitch Ep Dc Rack)
    (mine : List Ep → Bool) (prevTok : T) (toks : List T) (ret : List (NonwrappingRange T)) :
    ∃ ranges, strategy.collectRanges snitch tm mine prevTok toks ret = .ok ranges ∧
      ranges.Perm (ret ++ ((arcs prevTok toks).filter fun p => strategy.Closes snitch tm mine p.2).flatMap unwrapped) := by
  induction toks generalizing prevTok ret with
  | nil => exact ⟨ret, rfl, by simp [arcs]⟩
  | cons tok toks ih =>
    obtain ⟨eps, natural⟩ := strategy.exists_naturalEndpoints populated snitch tok
    have closes : strategy.Closes snitch tm mine tok = mine eps := by rw [Closes, natural]
    rw [collectRanges, natural, ok_bind, arcs]
    cases own : mine eps with
    | true =>
      obtain ⟨ranges, eq, perm⟩ := ih tok (insertTokenRange prevTok tok ret)
      refine ⟨ranges, by rw [if_pos rfl, eq], perm.trans ?_⟩
      rw [List.filter_cons_of_pos (by rw [closes, own]), List.flatMap_cons, ← List.append_assoc]
      exact (insertTokenRange_perm prevTok tok ret).append_right _
    | false =>
      obtain ⟨ranges, eq, perm⟩ := ih tok ret
      refine ⟨ranges, by rw [if_neg Bool.false_ne_true, eq], perm.trans ?_⟩
      rw [List.filter_cons_of_neg (by rw [closes, own]; exact Bool.false_ne_true)]

/-- The ranges that are found are proper and apart from each other, and have the tokens whose natural endpoints
are of the kind. -/
theorem rangesWhere_spec (populated : tm.Populated) (strategy : Strategy Ep Dc) (snitch : Snitch Ep Dc Rack)
    (mine : List Ep → Bool) : ∃ ranges, strategy.rangesWhere snitch tm mine = .ok ranges ∧
      (∀ r ∈ ranges, r.isProper = true) ∧ ranges.Pairwise Apart ∧
      ∀ t, (∃ r ∈ ranges, r.contains t = true) ↔ strategy.Closes snitch tm mine t = true := by
  have sorted : tm.sortedTokens.Pairwise (· < ·) := populated.pairwise
  obtain ⟨back, last⟩ := Option.ne_none_iff_exists'.1 (mt List.getLast?_eq_none_iff.1 populated.nonempty)
  obtain ⟨ranges, eq, perm⟩ := collectRanges_spec populated strategy snitch mine back tm.sortedTokens []
  refine ⟨ranges, by rw [rangesWhere, last]; exact eq, fun r hr => ?_, ?_, fun t => ?_⟩
  · obtain ⟨p, -, mem⟩ := List.mem_flatMap.1 (perm.mem_iff.1 hr)
    exact unwrapped_isProper mem
  · refine (perm.pairwise_iff fun {r q} apart t both => apart t both.symm).2 (List.pairwise_flatMap.2 ⟨fun p _ => unwrapped_apart p, ?_⟩)
    have distinct : (arcs back tm.sortedTokens).Pairwise fun p q => p.2 ≠ q.2 := by
      refine List.pairwise_map.1 ?_
      rw [map_snd_arcs]
      exact sorted.imp fun lt => lt.ne
    refine (distinct.imp_of_mem ?_).filter _
    intro p q hp hq ne r hr r' hr' t both
    have one := (inArc_iff sorted last hp).1 (exists_mem_unwrapped.1 ⟨r, hr, both.1⟩)
    have two := (inArc_iff sorted last hq).1 (exists_mem_unwrapped.1 ⟨r', hr', both.2⟩)
    exact ne (Option.some.inj (one.symm.trans two))
  · obtain ⟨tok, next⟩ := exists_successor populated.nonempty t
    have same : strategy.Closes snitch tm mine t = strategy.Closes snitch tm mine tok := by
      rw [Closes, Closes, strategy.naturalEndpoints_successor populated.nonempty snitch next]
    constructor
    · rintro ⟨r, hr, inside⟩
      obtain ⟨p, hp, mem⟩ := List.mem_flatMap.1 (perm.mem_iff.1 hr)
      obtain ⟨hp, closes⟩ := List.mem_filter.1 hp
      have next' := (inArc_iff sorted last hp).1 (exists_mem_unwrapped.1 ⟨r, mem, inside⟩)
      cases Option.some.inj (next.symm.trans next')
      exact same.trans closes
    · intro closes
      have mem : tok ∈ (arcs back tm.sortedTokens).map Prod.snd := by
        rw [map_snd_arcs]
        exact ((successor_eq_some_iff sorted).1 next).1
      obtain ⟨p, hp, rfl⟩ := List.mem_map.1 mem
      obtain ⟨r, hr, inside⟩ := exists_mem_unwrapped.2 ((inArc_iff sorted last hp).2 next)
      exact ⟨r, perm.mem_iff.2 (List.mem_flatMap.2 ⟨p, List.mem_filter.2 ⟨hp, same.symm.trans closes⟩, hr⟩), inside⟩

end Strategy

/-- The ranges of an endpoint are proper and apart from each other, and have the tokens of which it is a natural
endpoint. The primary ranges of all endpoints are apart from each other too, and together have the tokens that
have a natural endpoint. -/
theorem owned_ranges_match_placement {tm : TokenMetadata T Ep Dc Rack} (populated : tm.Populated) (strategy : Strategy Ep Dc)
    (snitch : Snitch Ep Dc Rack) :
    (∀ t, ∃ eps, strategy.calculateNaturalEndpoints snitch t tm = .ok eps) ∧
    (∀ ep, ∃ ranges, strategy.getRanges snitch tm ep = .ok ranges ∧ (∀ r ∈ ranges, r.isProper = true) ∧
      ranges.Pairwise Apart ∧ ∀ t eps, strategy.calculateNaturalEndpoints snitch t tm = .ok eps →
        ((∃ r ∈ ranges, r.contains t = true) ↔ ep ∈ eps)) ∧
    ∃ primary : Ep → List (NonwrappingRange T), (∀ ep, strategy.getPrimaryRanges snitch tm ep = .ok (primary ep) ∧
        (∀ r ∈ primary ep, r.isProper = true) ∧ (primary ep).Pairwise Apart) ∧
      (∀ ep ep', ep ≠ ep' → ∀ r ∈ primary ep, ∀ q ∈ primary ep', Apart r q) ∧
      ∀ t eps, strategy.calculateNaturalEndpoints snitch t tm = .ok eps →
        ((∃ ep, ∃ r ∈ primary ep, r.contains t = true) ↔ eps ≠ []) := by
  have closes : ∀ {t eps} mine, strategy.calculateNaturalEndpoints snitch t tm = .ok eps →
      strategy.Closes snitch tm mine t = mine eps := fun mine natural => by rw [Strategy.Closes, natural]
  have natural := strategy.exists_naturalEndpoints populated snitch
  refine ⟨natural, fun ep => ?_, ?_⟩
  · obtain ⟨ranges, eq, proper, apart, cover⟩ :=
      Strategy.rangesWhere_spec populated strategy snitch fun eps => decide (ep ∈ eps)
    refine ⟨ranges, eq, proper, apart, fun t eps natural => ?_⟩
    rw [cover, closes _ natural, decide_eq_true_iff]
  · choose primary eq proper apart cover using fun ep : Ep =>
      Strategy.rangesWhere_spec populated strategy snitch fun eps => decide (eps.head? = some ep)
    have first : ∀ {ep t eps}, strategy.calculateNaturalEndpoints snitch t tm = .ok eps →
        ((∃ r ∈ primary ep, r.contains t = true) ↔ eps.head? = some ep) := fun natural => by
      rw [cover, closes _ natural, decide_eq_true_iff]
    refine ⟨primary, fun ep => ⟨eq ep, proper ep, apart ep⟩, fun ep ep' ne r hr q hq t both => ?_, fun t eps natural => ?_⟩
    · obtain ⟨eps, natural⟩ := natural t
      exact ne (Option.some.inj (((first natural).1 ⟨r, hr, both.1⟩).symm.trans ((first natural).1 ⟨q, hq, both.2⟩)))
    · simp only [first natural]
      cases eps with
      | nil => simp
      | cons ep eps => simp

/-- An endpoint with two tokens, alone on the ring -/
def lonely : TokenMetadata Nat Nat Nat Nat :=
  TokenMetadata.updateNormalTokensOf {} ⟨fun _ => 0, fun _ => 0⟩ [1, 2] 0

theorem lonely_populated : lonely.Populated := by
  have careful : TokenMetadata.Careful {}
      (.updateNormalTokens ⟨fun _ => 0, fun _ => 0⟩ ⟨[(0, [1, 2])], List.nodup_singleton _⟩) :=
    ⟨by decide, .inr nofun, fun ep mem loc current => nomatch current⟩
  have consistent : lonely.Consistent := TokenMetadata.consistent_init.step careful rfl
  exact ⟨consistent.toOrdered, consistent.agrees, by decide, by decide⟩

/-- With one replica, everything belongs to the endpoint. -/
theorem owned_ranges_match_lonely : ∃ ranges,
    (Strategy.simpleStrategy 1).getRanges ⟨fun _ => 0, fun _ => 0⟩ lonely 0 = .ok ranges ∧ ranges.Pairwise Apart := by
  obtain ⟨ranges, eq, -, apart, -⟩ :=
    (owned_ranges_match_placement lonely_populated (.simpleStrategy 1) ⟨fun _ => 0, fun _ => 0⟩).2.1 0
  exact ⟨ranges, eq, apart⟩

/-- The range behind the last token is listed before the one between the two tokens. When a strategy places no
replicas at all, there are no primary ranges. -/
theorem owned_ranges_unsorted : lonely.Populated ∧
    (Strategy.simpleStrategy 1).getRanges ⟨fun _ => 0, fun _ => 0⟩ lonely 0 = .ok
      [{ last := some ⟨1, true⟩ }, { start := some ⟨2, false⟩ }, { start := some ⟨1, false⟩, last := some ⟨2, true⟩ }] ∧
    ∀ ep, (Strategy.networkTopologyStrategy ∅).getPrimaryRanges ⟨fun _ => 0, fun _ => 0⟩ lonely ep = .ok [] :=
  ⟨lonely_populated, rfl, fun _ => rfl⟩

end ScyllaMoon.Locator
