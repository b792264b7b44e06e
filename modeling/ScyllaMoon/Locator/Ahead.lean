import ScyllaMoon.Locator.Strategy

/-!
# The natural endpoints of `simple_strategy`

An endpoint is a natural endpoint of a token exactly if fewer than the replication factor of others come ahead
of it, on the way around the ring from the token. With a replication factor of zero everybody is one.
-/

namespace ScyllaMoon.Locator

open Lib List

variable {T Ep Dc Rack : Type} [LinearOrder T] [DecidableEq Ep]

namespace SimpleStrategy

theorem toFinset_pushBack (l : List Ep) (ep : Ep) : (pushBack l ep).toFinset = insert ep l.toFinset := by
  ext other
  rw [mem_toFinset, mem_pushBack, Finset.mem_insert, mem_toFinset]

/-- The first endpoints of a list, besides those that are there already, are those with few ahead of them. -/
theorem mem_firstDistinct {replicas : Nat} {endpoints eps : List Ep} {ep : Ep} (nodup : endpoints.Nodup)
    (room : replicas = 0 ∨ endpoints.length < replicas) :
    ep ∈ firstDistinct replicas endpoints eps ↔ ep ∈ endpoints ∨ ep ∈ eps ∧ (replicas = 0 ∨
      (endpoints.toFinset ∪ (eps.takeWhile fun other => decide (other ≠ ep)).toFinset).card < replicas) := by
  induction eps generalizing endpoints with
  | nil => simp [firstDistinct]
  | cons first eps ih =>
    have mem : ep ∈ pushBack endpoints first ↔ ep ∈ endpoints ∨ ep = first := mem_pushBack.trans or_comm
    have nodup' : (pushBack endpoints first).Nodup := nodup_pushBack nodup
    have pos : 0 < (pushBack endpoints first).length := length_pos_of_mem (mem_pushBack.2 (.inl rfl))
    have grows : (pushBack endpoints first).length ≤ endpoints.length + 1 := by
      unfold pushBack
      split <;> simp
    by_cases own : first = ep
    · -- the endpoint is met here, and there was room for it
      subst own
      have few : replicas = 0 ∨ (endpoints.toFinset ∪
          ((first :: eps).takeWhile fun other => decide (other ≠ first)).toFinset).card < replicas := by
        refine room.imp_right fun lt => ?_
        rw [takeWhile_cons_of_neg (by simp), toFinset_nil, Finset.union_empty, toFinset_card_of_nodup nodup]
        exact lt
      refine iff_of_true ?_ (.inr ⟨mem_cons_self, few⟩)
      unfold firstDistinct
      split
      · exact mem.2 (.inr rfl)
      · exact (ih nodup' (by omega)).2 (.inl (mem.2 (.inr rfl)))
    · have other : ep ≠ first := fun eq => own eq.symm
      have ahead : endpoints.toFinset ∪ ((first :: eps).takeWhile fun other => decide (other ≠ ep)).toFinset =
          (pushBack endpoints first).toFinset ∪ (eps.takeWhile fun other => decide (other ≠ ep)).toFinset := by
        rw [takeWhile_cons_of_pos (by simpa using own), toFinset_pushBack, toFinset_cons, Finset.union_insert,
          Finset.insert_union]
      rw [ahead, mem_cons, or_iff_right other]
      unfold firstDistinct
      split
      · rw [mem, or_iff_left other]
        refine (or_iff_left ?_).symm
        rintro ⟨-, few⟩
        have le : (pushBack endpoints first).toFinset.card ≤ ((pushBack endpoints first).toFinset ∪
            (eps.takeWhile fun other => decide (other ≠ ep)).toFinset).card :=
          Finset.card_le_card Finset.subset_union_left
        rw [toFinset_card_of_nodup nodup'] at le
        omega
      · rw [ih nodup' (by omega), mem, or_iff_left other]

end SimpleStrategy

namespace TokenMetadata

variable {tm : TokenMetadata T Ep Dc Rack}

/-- The endpoints that are met before `ep` on the way around the ring from `t`. -/
def ahead (tm : TokenMetadata T Ep Dc Rack) (t : T) (ep : Ep) : Finset Ep :=
  (((tm.ownersFrom t).map Prod.snd).takeWhile fun other => decide (other ≠ ep)).toFinset

/-- The endpoint has tokens. -/
def IsMember (tm : TokenMetadata T Ep Dc Rack) (ep : Ep) : Prop := ∃ u, (u, ep) ∈ tm.tokenToEndpoint

/-- The endpoint is a natural endpoint of the token. -/
def Replica (tm : TokenMetadata T Ep Dc Rack) (replicationFactor : Nat) (t : T) (ep : Ep) : Prop :=
  tm.IsMember ep ∧ (replicationFactor = 0 ∨ (tm.ahead t ep).card < replicationFactor)

theorem mem_ahead (sorted : tm.tokenToEndpoint.Pairwise fun p q => p.1 < q.1) {t : T} {ep x : Ep} :
    x ∈ tm.ahead t ep ↔ ∃ s, (s, x) ∈ tm.tokenToEndpoint ∧ ∀ u, (u, ep) ∈ tm.tokenToEndpoint → position t s < position t u := by
  have order := pairwise_clockwise Prod.fst sorted t
  unfold ahead
  rw [mem_toFinset, takeWhile_map, mem_map]
  simp only [ownersFrom, mem_takeWhile_iff (fun p q lt => lt_asymm lt) order, mem_clockwise]
  constructor
  · rintro ⟨p, ⟨mem, before⟩, rfl⟩
    exact ⟨p.1, mem, fun u hu => before (u, ep) hu (by simp)⟩
  · rintro ⟨s, mem, before⟩
    refine ⟨(s, x), ⟨mem, fun p hp own => ?_⟩, rfl⟩
    have own : p.2 = ep := by simpa using own
    exact before p.1 (own ▸ hp)

omit [DecidableEq Ep] in
theorem mem_walk_iff {start : T} {ep : Ep} :
    ep ∈ (tm.ownersFrom start ++ (tm.ownersFrom start).take 1).map Prod.snd ↔ tm.IsMember ep := by
  rw [mem_map]
  constructor
  · rintro ⟨p, mem, rfl⟩
    exact ⟨p.1, mem_walk_owners mem⟩
  · rintro ⟨u, mem⟩
    exact ⟨(u, ep), mem_append_left _ (mem_clockwise.2 mem), rfl⟩

theorem Ordered.mem_naturalEndpoints (ordered : tm.Ordered) (replicationFactor : Nat) (t : T) :
    ∃ eps, SimpleStrategy.calculateNaturalEndpoints replicationFactor t tm = .ok eps ∧
      ∀ ep, ep ∈ eps ↔ tm.Replica replicationFactor t ep := by
  by_cases none : tm.sortedTokens = []
  · refine ⟨[], by rw [SimpleStrategy.calculateNaturalEndpoints, none]; rfl, fun ep => iff_of_false not_mem_nil ?_⟩
    rintro ⟨⟨u, mem⟩, -⟩
    have := mem_map_of_mem (f := Prod.fst) mem
    rw [← ordered.tokens, none] at this
    cases this
  · refine ⟨_, SimpleStrategy.calculateNaturalEndpoints_eq ordered none replicationFactor t, fun ep => ?_⟩
    rw [SimpleStrategy.mem_firstDistinct nodup_nil (Nat.eq_zero_or_pos _), or_iff_right not_mem_nil,
      mem_walk_iff, Replica]
    refine and_congr_right ?_
    rintro ⟨u, mem⟩
    have stops : ((tm.ownersFrom t).map Prod.snd).takeWhile (fun other => decide (other ≠ ep)) ≠ (tm.ownersFrom t).map Prod.snd := by
      intro all
      have := takeWhile_eq_self_iff.1 all ep (mem_map.2 ⟨(u, ep), mem_clockwise.2 mem, rfl⟩)
      simp at this
    rw [map_append, takeWhile_append, if_neg fun eq => stops ?_, toFinset_nil, Finset.empty_union]
    · rfl
    · exact ( takeWhile_prefix _).eq_of_length eq

/-- Tokens with the same tokens of the ring before them have the same natural endpoints. -/
theorem replica_congr (sorted : tm.tokenToEndpoint.Pairwise fun p q => p.1 < q.1) {replicationFactor : Nat} {t u : T}
    (same : ∀ p ∈ tm.tokenToEndpoint, p.1 < t ↔ p.1 < u) (ep : Ep) :
    tm.Replica replicationFactor t ep ↔ tm.Replica replicationFactor u ep := by
  have owners : tm.ownersFrom t = tm.ownersFrom u := by
    have eq : ∀ p ∈ tm.tokenToEndpoint, decide (p.1 < t) = decide (p.1 < u) := fun p hp => decide_eq_decide.2 (same p hp)
    have cut : ∀ t : T, tm.tokenToEndpoint.Pairwise fun p q => decide (q.1 < t) = true → decide (p.1 < t) = true := fun t =>
      sorted.imp fun lt below => decide_eq_true (lt.trans (of_decide_eq_true below))
    unfold ownersFrom clockwise
    rw [takeWhile_eq_filter (cut t), takeWhile_eq_filter (cut u), dropWhile_eq_filter (cut t), dropWhile_eq_filter (cut u),
      filter_congr eq, filter_congr fun p hp => congrArg not (eq p hp)]
  rw [Replica, Replica, ahead, ahead, owners]

/-- If the endpoint's tokens are the same in two rings, and whoever has a token in the first has it in the second,
or has the one there that follows it first, then those ahead of the endpoint in the first are ahead in the second. -/
theorem ahead_subset {tm' : TokenMetadata T Ep Dc Rack} (sorted : tm.tokenToEndpoint.Pairwise fun p q => p.1 < q.1)
    (sorted' : tm'.tokenToEndpoint.Pairwise fun p q => p.1 < q.1) {ep : Ep}
    (own : ∀ u, (u, ep) ∈ tm'.tokenToEndpoint → (u, ep) ∈ tm.tokenToEndpoint)
    (others : ∀ s x, x ≠ ep → (s, x) ∈ tm.tokenToEndpoint → (s, x) ∈ tm'.tokenToEndpoint ∨
      ∃ n, (n, x) ∈ tm'.tokenToEndpoint ∧ ∀ q ∈ tm'.tokenToEndpoint, position s n ≤ position s q.1) (t : T) :
    tm.ahead t ep ⊆ tm'.ahead t ep := by
  intro x mem
  obtain ⟨s, hs, before⟩ := (mem_ahead sorted).1 mem
  refine (mem_ahead sorted').2 ?_
  have ne : x ≠ ep := by
    rintro rfl
    exact lt_irrefl _ (before s hs)
  rcases others s x ne hs with hs | ⟨n, hn, next⟩
  · exact ⟨s, hs, fun u hu => before u (own u hu)⟩
  · refine ⟨n, hn, fun u hu => ?_⟩
    have le := position_trans (before u (own u hu)).le (next _ hu)
    refine lt_of_le_of_ne le fun eq => ne ?_
    have sorted' : Sorted Prod.fst tm'.tokenToEndpoint := sorted'
    have same : (n, x) = (u, ep) := inj_on_of_nodup_map sorted'.nodup hn hu (position_injective t eq)
    exact congrArg Prod.snd same

/-- In a ring that careful changes lead to, `simple_strategy` never fails and finds the replicas. -/
theorem simple_strategy_placement [DecidableEq Dc] [DecidableEq Rack] {tr : List (RingChange T Ep Dc Rack × Bool)}
    (run : Run step (fun _ tm change => tm.Careful change) {} tr tm) (replicationFactor : Nat) (t : T) :
    ∃ eps, SimpleStrategy.calculateNaturalEndpoints replicationFactor t tm = .ok eps ∧
      ∀ ep, ep ∈ eps ↔ tm.Replica replicationFactor t ep := by
  have consistent := run.invariant (fun _ tm => tm.Consistent) consistent_init
    fun _ _ _ _ _ inv careful next => inv.step careful next
  exact consistent.mem_naturalEndpoints replicationFactor t

theorem simple_strategy_placement_two : ∃ tm : TokenMetadata Nat Nat Nat Nat, tm.sortedTokens = [1, 2] ∧
    ∃ eps, SimpleStrategy.calculateNaturalEndpoints 1 2 tm = .ok eps ∧ ∀ ep, ep ∈ eps ↔ tm.Replica 1 2 ep :=
  have run : Run step (fun _ tm change => tm.Careful change) ({} : TokenMetadata Nat Nat Nat Nat) _ _ :=
    .snoc .init (i := .updateNormalTokens ⟨fun _ => 0, id⟩ ⟨[(0, [1]), (1, [2])], by decide⟩)
      (by exact ⟨by simp, .inl ⟨_, mem_cons_self, 1, by simp, .inl (by simp)⟩, fun _ _ _ current => by cases current⟩) rfl
  ⟨_, rfl, simple_strategy_placement run 1 2⟩

end TokenMetadata

end ScyllaMoon.Locator
