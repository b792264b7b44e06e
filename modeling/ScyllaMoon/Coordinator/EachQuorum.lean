import ScyllaMoon.Coordinator.Handler

/-!
# EACH_QUORUM

The handler of EACH_QUORUM counts from each datacenter of the targets at most its local quorum and its
pending endpoints, and compares the total with the local quorums of the configured datacenters. The two
sums differ as soon as an endpoint is pending, and the handler then reports success too early.
-/

namespace ScyllaMoon.Coordinator

open Lib List

namespace Handler

variable {E DC : Type} [DecidableEq E] [DecidableEq DC] [Snitch E DC]

open Snitch (getDatacenter)

/-- The datacenters of the targets. -/
def datacenters (targets : List E) : Finset DC := (targets.map getDatacenter).toFinset

/-- Responses that arrive one after the other. -/
def responses (h : Handler E DC) (eps : List E) : Except Fault (Handler E DC) :=
  eps.foldlM (fun h ep => do return (← h.response ep).1) h

variable (rs : ReplicationStrategy DC)

section

omit [DecidableEq E]

theorem dcResponsesFor_apply (pending targets : List E) (dc : DC) : (dcResponsesFor rs pending targets).1 dc =
      if dc ∈ (datacenters targets : Finset DC) then some (required rs pending dc) else none := by
  -- the loop leaves what is there and fills in what is missing
  have fills : ∀ s : (DC → Option Nat) × Nat, (targets.foldl (fun s target =>
      let dc := getDatacenter target
      if (s.1 dc).isNone then
        (Function.update s.1 dc (some (required rs pending dc)), s.2 + countIn pending dc)
      else s) s).1 dc = (s.1 dc).or (if dc ∈ (datacenters targets) then some (required rs pending dc) else none) := by
    induction targets with
    | nil => simp [datacenters]
    | cons t targets ih =>
      intro s
      rw [foldl_cons, ih]
      by_cases here : getDatacenter t = dc
      · subst here
        cases hs : s.1 (getDatacenter t) <;> simp [datacenters, hs]
      · have away : dc ≠ getDatacenter t := fun e => here e.symm
        cases hs : s.1 (getDatacenter t) <;> simp [datacenters, away, hs]
  exact fills (fun _ => none, 0)

theorem countIn_concat (eps : List E) (ep : E) (dc : DC) :
    countIn (eps ++ [ep]) dc = countIn eps dc + if getDatacenter ep = dc then 1 else 0 := by
  simp [countIn, countP_append, countP_cons]

/-- One more response counts unless its datacenter has given all it has to. -/
theorem sum_min_concat (eps : List E) (ep : E) (need : DC → Nat) {D : Finset DC} (mem : getDatacenter ep ∈ D) :
    ∑ dc ∈ D, min (countIn (eps ++ [ep]) dc) (need dc) = (∑ dc ∈ D, min (countIn eps dc) (need dc)) +
      if countIn eps (getDatacenter ep) < need (getDatacenter ep) then 1 else 0 := by
  have one : ∀ dc ∈ D, min (countIn (eps ++ [ep]) dc) (need dc) = min (countIn eps dc) (need dc) +
      if getDatacenter ep = dc then (if countIn eps dc < need dc then 1 else 0) else 0 := by
    intro dc _
    rw [countIn_concat]
    split_ifs <;> omega
  rw [Finset.sum_congr rfl one, Finset.sum_add_distrib, Finset.sum_ite_eq, if_pos mem]

end

/-- What the handler has counted after the responses `eps`. -/
structure Counted (rs : ReplicationStrategy DC) (targets pending eps : List E) (h : Handler E DC) : Prop where
  kind : ∃ r, h.kind = .datacenterSync r ∧ ∀ dc, r dc =
    if dc ∈ (datacenters targets : Finset DC) then some (required rs pending dc - countIn eps dc) else none
  clAcks : h.clAcks = ∑ dc ∈ datacenters targets, min (countIn eps dc) (required rs pending dc)
  clAchieved : h.clAchieved = decide (max 1 rs.blockForEachQuorum ≤ h.clAcks)
  totalBlockFor : h.totalBlockFor = rs.blockForEachQuorum
  targets : h.targets = targets.diff eps

theorem counted_make (targets pending : List E) :
    Counted rs targets pending [] (makeDatacenterSync rs .eachQuorum targets pending) where
  kind := ⟨_, rfl, fun dc => dcResponsesFor_apply rs pending targets dc⟩
  clAcks := by simp [makeDatacenterSync, make, countIn]
  clAchieved := by simp [makeDatacenterSync, make]
  totalBlockFor := rfl
  targets := rfl

/-- One response from a target that has not answered yet. -/
theorem Counted.response {rs : ReplicationStrategy DC} {targets pending eps : List E} {h : Handler E DC}
    (counted : Counted rs targets pending eps h) {ep : E} (mem : ep ∈ targets.diff eps) :
    ∃ h' b, h.response ep = .ok (h', b) ∧ Counted rs targets pending (eps ++ [ep]) h' := by
  obtain ⟨⟨r, kind, remaining⟩, clAcks, clAchieved, totalBlockFor, left⟩ := counted
  have memD : getDatacenter ep ∈ (datacenters targets) :=
    mem_toFinset.2 (mem_map_of_mem (diff_subset _ _ mem))
  have here := remaining (getDatacenter ep)
  rw [if_pos memD] at here
  have sum := sum_min_concat eps ep (required rs pending) memD
  have next : targets.diff (eps ++ [ep]) = (targets.diff eps).erase ep := by
    rw [diff_append, diff_cons, diff_nil]
  unfold Handler.response account
  rw [kind]
  cases hr : required rs pending (getDatacenter ep) - countIn eps (getDatacenter ep) with
  | zero =>
    rw [hr] at here
    simp only [here, ok_bind, Bool.false_eq_true, if_false, left, mem, if_true]
    rw [if_neg (by omega)] at sum
    refine ⟨_, _, rfl, ⟨r, kind, fun dc => ?_⟩, clAcks.trans sum.symm, clAchieved, totalBlockFor, next.symm⟩
    rw [remaining dc, countIn_concat]
    by_cases e : getDatacenter ep = dc
    · subst e
      rw [if_pos memD, if_pos memD, if_pos rfl]
      congr 1
      omega
    · simp [e]
  | succ n =>
    rw [hr] at here
    simp only [here, ok_bind, if_true, signal, left, mem]
    rw [if_pos (by omega)] at sum
    refine ⟨_, _, rfl, ⟨_, rfl, fun dc => ?_⟩, by rw [sum, ← clAcks], ?_, totalBlockFor, next.symm⟩
    · rw [countIn_concat]
      by_cases e : getDatacenter ep = dc
      · subst e
        rw [Function.update_self, if_pos memD, if_pos rfl]
        congr 1
        omega
      · rw [Function.update_of_ne (Ne.symm e), remaining dc, if_neg e]
        rfl
    · simp only [clAchieved, totalBlockFor]
      by_cases early : max 1 rs.blockForEachQuorum ≤ h.clAcks
      · simp [early]
        omega
      · simp [early]

/-- Responses of different targets are counted without a fault. -/
theorem counted_responses {targets : List E} (pending : List E) (nodup : targets.Nodup)
    {eps : List E} (different : eps.Nodup) (sub : eps ⊆ targets) :
    ∃ h, (makeDatacenterSync rs .eachQuorum targets pending).responses eps = .ok h ∧
      Counted rs targets pending eps h := by
  induction eps using reverseRecOn with
  | nil => exact ⟨_, rfl, counted_make rs targets pending⟩
  | append_singleton eps ep ih =>
    obtain ⟨different, -, apart⟩ := nodup_append.1 different
    obtain ⟨h, run, counted⟩ := ih different fun a ha => sub (mem_append_left _ ha)
    have mem : ep ∈ targets.diff eps := nodup.mem_sdiff_iff.2
      ⟨sub (mem_append_right _ mem_cons_self), fun hm => apart ep hm ep mem_cons_self rfl⟩
    obtain ⟨h', b, next, counted'⟩ := counted.response mem
    refine ⟨h', ?_, counted'⟩
    unfold responses at run ⊢
    rw [foldlM_append, run]
    simp only [ok_bind, foldlM_cons, foldlM_nil, next]
    rfl

/-- How many of the responses `eps` the handler counts. -/
def countedOf (rs : ReplicationStrategy DC) (targets pending eps : List E) : Nat :=
  ∑ dc ∈ datacenters targets, min (countIn eps dc) (required rs pending dc)

/-- How many responses the datacenters of the targets have to give. -/
def requiredOf (rs : ReplicationStrategy DC) (targets pending : List E) : Nat :=
  ∑ dc ∈ datacenters targets, required rs pending dc

omit [DecidableEq E]

theorem countedOf_le (targets pending eps : List E) :
    countedOf rs targets pending eps ≤ requiredOf rs targets pending :=
  Finset.sum_le_sum fun _ _ => Nat.min_le_right _ _

/-- Every datacenter gave what it has to when as much was counted as can be. -/
theorem countedOf_eq_iff (targets pending eps : List E) :
    countedOf rs targets pending eps = requiredOf rs targets pending ↔
      ∀ dc ∈ targets.map getDatacenter, required rs pending dc ≤ countIn eps dc := by
  rw [countedOf, requiredOf, Finset.sum_eq_sum_iff_of_le fun _ _ => Nat.min_le_right _ _]
  simp only [datacenters, mem_toFinset, min_eq_right_iff]

/-- The responses of the first targets can be counted to any number up to that of all. -/
theorem exists_countedOf (targets pending : List E) {l : List E} (sub : l ⊆ targets)
    {k : Nat} (hk : k ≤ countedOf rs targets pending l) :
    ∃ eps, eps <+: l ∧ countedOf rs targets pending eps = k := by
  induction l using reverseRecOn with
  | nil => exact ⟨[], prefix_refl _, by simp_all [countedOf, countIn]⟩
  | append_singleton l ep ih =>
    by_cases small : k ≤ countedOf rs targets pending l
    · obtain ⟨eps, pre, eq⟩ := ih (fun a ha => sub (mem_append_left _ ha)) small
      exact ⟨eps, pre.trans (prefix_append _ _), eq⟩
    · have mem : getDatacenter ep ∈ (datacenters targets) :=
        mem_toFinset.2 (mem_map_of_mem (sub (mem_append_right _ mem_cons_self)))
      have sum := sum_min_concat l ep (required rs pending) mem
      refine ⟨_, prefix_refl _, ?_⟩
      unfold countedOf at hk small ⊢
      split at sum <;> omega

end Handler

open Handler in
/-- When the handler of EACH_QUORUM reports success exactly once every datacenter of the targets has
acknowledged from its local quorum and its pending endpoints: if that many acknowledgements is what it
waits for, or if neither number is reached by all targets together. -/
theorem each_quorum_iff {E DC : Type} [DecidableEq E] [DecidableEq DC] [Snitch E DC] (factors : List (DC × Nat))
    (targets pending : List E) (nodup : targets.Nodup) :
    (∀ eps : List E, eps.Nodup → eps ⊆ targets →
      ∃ h, (create (.networkTopology factors) .eachQuorum targets pending).responses eps = .ok h ∧
        (h.clAchieved = true ↔ ∀ dc ∈ targets.map Snitch.getDatacenter,
          required (.networkTopology factors) pending dc ≤ countIn eps dc)) ↔
    requiredOf (.networkTopology factors) targets pending =
        max 1 (ReplicationStrategy.networkTopology factors).blockForEachQuorum ∨
      countedOf (.networkTopology factors) targets pending targets <
          requiredOf (.networkTopology factors) targets pending ∧
        countedOf (.networkTopology factors) targets pending targets <
          max 1 (ReplicationStrategy.networkTopology factors).blockForEachQuorum := by
  generalize hrs : ReplicationStrategy.networkTopology factors = rs
  have made : create rs .eachQuorum targets pending = makeDatacenterSync rs .eachQuorum targets pending := by
    subst hrs
    rfl
  rw [made]
  have verdict : ∀ eps h, (makeDatacenterSync rs .eachQuorum targets pending).responses eps = .ok h → eps.Nodup →
      eps ⊆ targets → (h.clAchieved = true ↔ max 1 rs.blockForEachQuorum ≤ countedOf rs targets pending eps) := by
    intro eps h run different sub
    obtain ⟨h', run', counted⟩ := counted_responses rs pending nodup different sub
    cases run.symm.trans run'
    rw [counted.clAchieved, decide_eq_true_iff, counted.clAcks]
    rfl
  have most := countedOf_le rs targets pending targets
  constructor
  · intro all
    have every : ∀ k ≤ countedOf rs targets pending targets,
        max 1 rs.blockForEachQuorum ≤ k ↔ k = requiredOf rs targets pending := by
      intro k hk
      obtain ⟨eps, pre, rfl⟩ := exists_countedOf rs targets pending (List.Subset.refl _) hk
      have different := nodup.sublist pre.sublist
      obtain ⟨h, run, iff⟩ := all eps different pre.subset
      rw [← verdict eps h run different pre.subset, iff, countedOf_eq_iff]
    have whole := every _ le_rfl
    by_cases reached : max 1 rs.blockForEachQuorum ≤ countedOf rs targets pending targets
    · exact .inl ((every _ reached).1 le_rfl).symm
    · exact .inr ⟨by omega, by omega⟩
  · intro cond eps different sub
    obtain ⟨h, run, -⟩ := counted_responses rs pending nodup different sub
    refine ⟨h, run, ?_⟩
    rw [verdict eps h run different sub, ← countedOf_eq_iff]
    have part : countedOf rs targets pending eps ≤ countedOf rs targets pending targets :=
      Finset.sum_le_sum fun dc _ => min_le_min_right _ (different.subperm sub |>.countP_le _)
    omega

/-- Ten endpoints in each datacenter. -/
instance : Snitch Nat Nat where
  getDatacenter ep := ep / 10
  broadcastAddress := 0

open Handler in
theorem each_quorum_two_datacenters :
    ∃ h, (create (.networkTopology [(0, 3), (1, 3)]) .eachQuorum [0, 1, 2, 10, 11, 12] []).responses [0, 10, 1, 11] =
      .ok h ∧ h.clAchieved = true := by
  obtain ⟨h, run, iff⟩ := (each_quorum_iff [(0, 3), (1, 3)] [0, 1, 2, 10, 11, 12] [] (by decide)).2 (.inl (by decide))
    [0, 10, 1, 11] (by decide) (by decide)
  exact ⟨h, run, iff.2 (by decide)⟩

open Handler in
/-- Two datacenters with three replicas each and a fourth endpoint pending in the first. Three responses from
there and one from the second datacenter pass for EACH_QUORUM. -/
theorem each_quorum_early :
    ∃ h, (create (.networkTopology [(0, 3), (1, 3)]) .eachQuorum [0, 1, 2, 3, 10, 11, 12] [3]).responses [0, 1, 2, 10] =
      .ok h ∧ h.clAchieved = true ∧
      countIn [0, 1, 2, 10] 1 < ReplicationStrategy.localQuorumFor (.networkTopology [(0, 3), (1, 3)]) 1 :=
  ⟨_, rfl, rfl, by decide⟩

end ScyllaMoon.Coordinator
