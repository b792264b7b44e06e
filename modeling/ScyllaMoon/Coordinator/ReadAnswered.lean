import ScyllaMoon.Coordinator.Speculation

/-!
# Every read is answered

`storage_proxy::get_read_executor` picks the replicas to ask and the executor. When all of them have
responded the timeout is cancelled, so by then the consistency level has to be reached. It is, except
where the executor that does not speculate waits for all targets, also for the remote ones that global
read repair adds, and the consistency level counts the local ones only.
-/

namespace ScyllaMoon.Coordinator

open Lib DigestResolver List

variable {E DC R D : Type} [DecidableEq E] [DecidableEq DC] [Snitch E DC]

/-- `db::read_repair_decision` -/
inductive ReadRepairDecision where
  | none
  | global
  | dcLocal
  deriving DecidableEq, Repr

/-- `speculative_retry::type` -/
inductive SpeculativeRetry where
  | none
  | custom
  | percentile
  | always
  deriving DecidableEq, Repr

/-- `exceptions::unavailable_exception` -/
structure Unavailable where
  required : Nat
  alive : Nat
  deriving DecidableEq, Repr

open Handler ReplicationStrategy

/-- The datacenters of `count_per_dc_endpoints`: those of the strategy and those of the endpoints. -/
def datacentersOf (factors : List (DC × Nat)) (live : List E) : List DC :=
  factors.map Prod.fst ++ live.map Snitch.getDatacenter

variable (cl : ConsistencyLevel) (rs : ReplicationStrategy DC)

/-- `assure_sufficient_live_nodes`, without pending endpoints -/
def assureSufficientLiveNodes (live : List E) : Except Unavailable Unit :=
  let need := rs.blockFor E cl
  match cl, rs with
  | .any, _ => .ok ()
  | .localOne, _ => if live.countP isLocal < 1 then .error ⟨1, 0⟩ else .ok ()
  | .localQuorum, _ => if live.countP isLocal < need then .error ⟨need, live.countP isLocal⟩ else .ok ()
  | .eachQuorum, .networkTopology factors =>
    match (datacentersOf factors live).find? fun dc => decide (countIn live dc < rs.localQuorumFor dc) with
    | some dc => .error ⟨rs.localQuorumFor dc, countIn live dc⟩
    | none => .ok ()
  | _, _ => if live.length < need then .error ⟨need, live.length⟩ else .ok ()

/-- The replicas that `filter_for_query` chooses from: local ones first, or local ones only. -/
def candidates (live : List E) (repair : ReadRepairDecision) : List E :=
  if repair = .dcLocal ∨ isDatacenterLocal cl then
    -- `stable_partition` by datacenter
    if isDatacenterLocal cl then live.filter isLocal else live.filter isLocal ++ live.filter fun ep => !isLocal ep
  else live

/-- The number of replicas that `filter_for_query` chooses. -/
def wanted (live : List E) (repair : ReadRepairDecision) : Nat :=
  if repair = .dcLocal then max (rs.blockFor E cl) (live.countP isLocal) else rs.blockFor E cl

variable (combine : List E → Nat → Bool → Option (List E))

/-- `filter_for_query`: the replicas to ask, and the extra one for speculation where one was found. `combine`
is what balancing by cache hit rates makes of the replicas, if it is on and the rates differ enough;
`wantExtra` tells whether the caller asks for an extra replica. -/
def filterForQuery (cl : ConsistencyLevel)
    (rs : ReplicationStrategy DC) (live : List E) (repair : ReadRepairDecision) (wantExtra : Bool) :
    List E × Option E :=
  if repair = .global then (live, none)
  else
    let bf := wanted cl rs live repair
    let live := candidates cl live repair
    if bf ≥ live.length then (live, none)
    else
      let live := (combine live bf wantExtra).getD live
      (live.take bf, if wantExtra then live[bf]? else none)

/-- `storage_proxy::get_read_executor`. `unset` is the address that `extra_replica` starts with. -/
def getReadExecutor (unset : E) (cl : ConsistencyLevel)
    (rs : ReplicationStrategy DC) (allReplicas : List E) (repair : ReadRepairDecision) (retry : SpeculativeRetry) :
    Except Unavailable (ReadExecutor E) := do
  let (targets, extra) := filterForQuery combine cl rs allReplicas repair (decide (retry ≠ .none))
  let extra := extra.getD unset
  assureSufficientLiveNodes cl rs targets
  let blockFor := rs.blockFor E cl
  if retry = .none ∨ blockFor = allReplicas.length ∨
      repair = .dcLocal ∧ isDatacenterLocal cl ∧ blockFor = targets.length then
    return .neverSpeculating cl targets
  if targets.length = allReplicas.length then
    return { kind := .alwaysSpeculating, cl, blockFor, targets }
  if targets.length = blockFor ∧ isDatacenterLocal cl ∧ !isLocal extra then
    return .neverSpeculating cl targets
  let targets := if targets.length = blockFor then targets ++ [extra] else targets
  return { kind := if retry = .always then .alwaysSpeculating else .speculating, cl, blockFor, targets }

theorem length_eq_countP_add_not {α : Type} (p : α → Bool) (l : List α) :
    l.length = l.countP p + l.countP fun a => !p a := by
  rw [length_eq_countP_add_countP p]
  simp

namespace Read

variable {x : ReadExecutor E} {s : Read E R D} {tr : List (ReadEvent E R D)}

/-- So many responses are waited for that there are data among them, and enough that count. -/
structure Sufficient (x : ReadExecutor E) (tr : List (ReadEvent E R D)) (s : Read E R D) :
    Prop where
  resolver : s.resolver.cl = x.cl ∧ s.resolver.blockFor = x.blockFor
  digests : (requested tr s).countP (fun p => decide (p.2 = .digest)) < s.resolver.targetsCount
  remote : x.blockFor + (requested tr s).countP (fun p => !waitingFor x.cl p.1) ≤ s.resolver.targetsCount

/-- With all responses in, there are data and enough responses that count. -/
theorem Sufficient.reached (h : Sufficient x tr s) (all : (received tr).length = s.resolver.targetsCount) :
    (∃ p ∈ received tr, p.2.1 = .data) ∧ x.blockFor ≤ (received tr).countP fun p => waitingFor x.cl p.1 := by
  have digests := h.digests
  have remote := h.remote
  have split := length_eq_countP_add_not (fun p : E × RequestKind × D => waitingFor x.cl p.1) (received tr)
  simp only [requested, countP_append, countP_map, Function.comp_def] at digests remote
  constructor
  · by_contra none
    have all' : (received tr).countP (fun p => decide (p.2.1 = .digest)) = (received tr).length := by
      refine countP_eq_length.2 fun p hp => ?_
      cases kind : p.2.1 with
      | digest => rfl
      | data => exact absurd ⟨p, hp, kind⟩ none
    omega
  · omega

variable {s' : Read E R D}

theorem Sufficient.of_subperm (h : Sufficient x tr s) {e : ReadOp R D × Option (E × RequestKind × D)}
    (sub : (requested (tr ++ [e]) s').Subperm (requested tr s))
    (resolver : s'.resolver.cl = s.resolver.cl ∧ s'.resolver.blockFor = s.resolver.blockFor)
    (targets : s'.resolver.targetsCount = s.resolver.targetsCount) : Sufficient x (tr ++ [e]) s' where
  resolver := ⟨resolver.1.trans h.resolver.1, resolver.2.trans h.resolver.2⟩
  digests := by
    have := h.digests
    have := sub.countP_le fun p => decide (p.2 = .digest)
    omega
  remote := by
    have := h.remote
    have := sub.countP_le fun p => !waitingFor x.cl p.1
    omega

variable [DecidableEq D] [Inhabited D]

variable {op : ReadOp R D} {o : Option (E × RequestKind × D)}

theorem Sufficient.step (h : Sufficient x tr s) (move : Move s op s' o) : Sufficient x (tr ++ [(op, o)]) s' := by
  have quiet : requested (tr ++ [(op, none)]) s = requested tr s := by simp [requested]
  cases move with
  | idle => exact h.of_subperm (by rw [quiet]) ⟨rfl, rfl⟩ rfl
  | late late request | response ok request =>
    exact h.of_subperm (requested_response request rfl).subperm ⟨rfl, rfl⟩ rfl
  | fail i =>
    refine h.of_subperm (List.Sublist.subperm ?_) ⟨rfl, rfl⟩ rfl
    rw [← quiet]
    exact List.Sublist.append_left (eraseIdx_sublist ..) _
  | spent armed completed | expire armed | gotCl => exact h.of_subperm (by rw [← quiet]; exact .refl _) ⟨rfl, rfl⟩ rfl
  | speculate armed missing kind =>
    -- one more request, and one more response to wait for
    have more : ∀ p : E × RequestKind → Bool, (requested (tr ++ [(.speculate, none)]) (s.askLast kind)).countP p ≤
          (requested tr s).countP p + 1 := by
      intro p
      unfold askLast
      cases s.executor.targets.getLast? with
      | none => simp [requested]
      | some ep =>
        simp only [requested, received_concat, Option.toList_none, append_nil, Option.toList_some, map_cons,
          map_nil, ← append_assoc, countP_append, countP_singleton]
        split <;> omega
    refine ⟨h.resolver, ?_, ?_⟩
    · exact (more _).trans_lt (Nat.add_lt_add_right h.digests 1)
    · exact (Nat.add_le_add_left (more _) _).trans (Nat.succ_le_succ h.remote)

/-- Once all have responded, the consistency level has been reached or the time is over. -/
theorem Sufficient.answered (h : Sufficient x (tr ++ [(op, o)]) s') (inv : s.resolver.Inv (received tr))
    (inv' : s'.resolver.Inv (received (tr ++ [(op, o)])))
    (answered : s.resolver.donePromise.isSome = true → s.resolver.clPromise.isSome = true) (move : Move s op s' o)
    (done : s'.resolver.donePromise.isSome = true) : s'.resolver.clPromise.isSome = true := by
  cases move with
  | idle | late late request | fail i | spent armed completed | speculate armed missing kind | gotCl =>
    exact answered done
  | expire armed =>
    rw [inv'.cl]
    simp
  | @response i result ep kind ok request =>
    rw [inv'.cl]
    by_contra waiting
    have before : s.resolver.clReported = false ∧ (s.resolver.push kind result).reports ep = false := by
      simpa [ok] using waiting
    by_cases last : ((s.resolver.push kind result).reported ep).isCompleted = true
    · -- all responses are in, so this one would have been reported
      have waiting' : ((s.resolver.push kind result).reported ep).finished.clReported = false := by simp [before]
      have all := (inv'.count ok).symm.trans (of_decide_eq_true last)
      obtain ⟨data, enough⟩ := h.reached all
      rw [← h.resolver.1, ← inv'.waiting ok waiting'] at enough
      have some := (inv'.data ok waiting').2 data
      simp only [finished_dataResult, reported_dataResult, before.2, Bool.false_eq_true,
        if_false] at some
      simp only [finished_clResponses, reported_clResponses,
        push_clReported, before.1, Bool.false_eq_true, if_false] at enough
      have blockFor : (s.resolver.push kind result).blockFor = x.blockFor := h.resolver.2
      have reports : (s.resolver.push kind result).reports ep = true := by
        simp only [reports, push_clReported, before.1, some, blockFor, enough,
          decide_true, Bool.not_false, Bool.and_self]
      exact absurd reports (by simp [before.2])
    · have earlier := answered (by simpa [last] using done)
      rw [inv.cl] at earlier
      simp [before.1, ok] at earlier

/-- A read all of whose executor's targets are accounted for is answered. -/
theorem answered_of_sufficient {s₀ : Read E R D} (started : start R D x = .ok s₀) (h : Sufficient x [] s₀)
    (run : Run step (fun _ _ _ => True) s₀ tr s) :
    (s.resolver.donePromise.isSome = true → s.resolver.clPromise.isSome = true) ∧ ∀ op, ∃ r, s.step op = .ok r := by
  have initial : s₀.resolver.donePromise = none := by
    obtain ⟨⟨wait, requests⟩, -, eq⟩ := bind_eq_ok.1 started
    cases eq
    rfl
  obtain ⟨inv, -, answered⟩ := run_invariant started
    (fun tr s => Sufficient x tr s ∧ (s.resolver.donePromise.isSome = true → s.resolver.clPromise.isSome = true))
    ⟨h, by simp [initial]⟩
    (fun _ _ _ _ _ inv inv' h move => ⟨h.1.step move, (h.1.step move).answered inv inv' h.2 move⟩) run
  refine ⟨answered, fun op => ?_⟩
  obtain ⟨s', o, eq, -, -⟩ := step_spec inv op
  exact ⟨_, eq⟩

end Read

namespace ReadExecutor

variable {x : ReadExecutor E}

/-- The targets that are waited for bring what the consistency level asks for. -/
def Covers (x : ReadExecutor E) : Prop :=
  match x.kind with
  | .neverSpeculating => x.targets ≠ [] ∧ x.blockFor = x.targets.length ∧ ∀ ep ∈ x.targets, waitingFor x.cl ep = true
  | .alwaysSpeculating => 2 ≤ x.targets.length ∧ x.blockFor ≤ x.targets.countP (waitingFor x.cl)
  | .speculating => 2 ≤ x.targets.length ∧ x.blockFor + 1 ≤ x.targets.length ∧
      ∀ ep ∈ x.targets, waitingFor x.cl ep = true

/-- An executor with enough targets makes its requests. -/
theorem Covers.starts (h : x.Covers) : ∃ wait requests, x.makeRequests = .ok (wait, requests) := by
  obtain ⟨kind, cl, blockFor, targets⟩ := x
  cases kind with
  | neverSpeculating => match targets with
    | [] => exact absurd rfl h.1
    | t :: ts => exact ⟨_, _, rfl⟩
  | alwaysSpeculating => match targets with
    | t :: t' :: ts => exact ⟨_, _, rfl⟩
    | [] | [t] => exact absurd h.1 (by simp)
  | speculating => match targets with
    | t :: t' :: ts =>
      unfold makeRequests
      simp only
      split <;> exact ⟨_, _, rfl⟩
    | [] | [t] => exact absurd h.1 (by simp)

omit [DecidableEq E] in
theorem countP_digest (eps eps' : List E) : (makeDataRequests eps ++ makeDigestRequests eps').countP
    (fun p => decide (p.2 = .digest)) = eps'.length := by
  simp [makeDataRequests, makeDigestRequests, countP_map, Function.comp_def]

/-- How many requests go to endpoints that do not count. -/
theorem countP_remote (requests : List (E × RequestKind)) :
    requests.countP (fun p => !waitingFor cl p.1) = (requests.map Prod.fst).countP fun ep => !waitingFor cl ep := by
  rw [countP_map]
  rfl

theorem countP_remote_eq_zero {cl : ConsistencyLevel} {eps : List E} (all : ∀ ep ∈ eps, waitingFor cl ep = true) :
    eps.countP (fun ep => !waitingFor cl ep) = 0 :=
  countP_eq_zero.2 fun ep hep => by simp [all ep hep]

/-- What the requests have to be for the read to be answered. -/
theorem Starts.sufficient {wait : Nat} {requests : List (E × RequestKind)} (starts : Starts x wait requests) (h : x.Covers) :
    requests.countP (fun p => decide (p.2 = .digest)) < wait ∧
      x.blockFor + requests.countP (fun p => !waitingFor x.cl p.1) ≤ wait := by
  unfold Covers at h
  rw [countP_remote]
  cases starts with
  | never kind targets =>
    rw [kind] at h
    rw [countP_digest, map_append, fst_makeDataRequests, fst_makeDigestRequests, singleton_append, ← targets,
      countP_remote_eq_zero h.2.2, h.2.1]
    simp [targets]
  | @always t t' ts kind targets =>
    rw [kind] at h
    have split := length_eq_countP_add_not (waitingFor x.cl) x.targets
    have digests : ts.length < x.targets.length := by
      rw [targets]
      exact Nat.lt_add_of_pos_right Nat.two_pos
    rw [countP_digest, map_append, fst_makeDataRequests, fst_makeDigestRequests,
      show [t, t'] ++ ts = x.targets from targets.symm]
    exact ⟨digests, by omega⟩
  | @repair t t' ts kind targets more =>
    rw [kind] at h
    have digests : ts.length < x.targets.length - 1 := by simp [targets]
    rw [countP_digest, map_append, fst_makeDataRequests, fst_makeDigestRequests,
      show [t, t'] ++ ts = x.targets from targets.symm, countP_remote_eq_zero h.2.2]
    exact ⟨digests, by omega⟩
  | @extra t t' ts kind targets enough =>
    rw [kind] at h
    have digests : (t' :: ts).dropLast.length < x.targets.length - 1 := by simp [targets]
    have asked : [t] ++ (t' :: ts).dropLast = x.targets.dropLast := by simp [targets, dropLast_cons_of_ne_nil]
    rw [countP_digest, map_append, fst_makeDataRequests, fst_makeDigestRequests, asked,
      countP_remote_eq_zero fun ep hep => h.2.2 ep (mem_of_mem_dropLast hep)]
    exact ⟨digests, by omega⟩

theorem Covers.start (R D : Type) (h : x.Covers) : ∃ s, Read.start R D x = .ok s ∧ s.Sufficient x [] := by
  obtain ⟨wait, requests, made⟩ := h.starts
  obtain ⟨digests, remote⟩ := (starts_of_makeRequests made).sufficient h
  refine ⟨_, by rw [Read.start, made]; rfl, ⟨rfl, rfl⟩, ?_, ?_⟩
  · simpa [Read.requested, Read.received, addWaitTargets] using digests
  · simpa [Read.requested, Read.received, addWaitTargets] using remote

end ReadExecutor

/-- `miss_equalizing_combination`: as many of the given replicas as asked for. -/
def Combines : Prop :=
  ∀ live bf wantExtra l, combine live bf wantExtra = some l → l.length = bf + (if wantExtra then 1 else 0) ∧ l ⊆ live

/-- The datacenters of a `network_topology_strategy` are the keys of a map. -/
def Keyed : Prop :=
  ∀ factors, rs = .networkTopology factors → (factors.map Prod.fst).Nodup

theorem sum_ite_eq_count (a : DC) (dcs : List DC) : (dcs.map fun dc => if a = dc then 1 else 0).sum = dcs.count a := by
  induction dcs with
  | nil => rfl
  | cons dc dcs ih =>
    rw [map_cons, sum_cons, ih, count_cons, Nat.add_comm]
    by_cases same : a = dc
    · simp [same]
    · simp [same, Ne.symm same]

omit [DecidableEq E] in
/-- Every datacenter contributes what is counted in it. -/
theorem sum_countIn_le {dcs : List DC} (nodup : dcs.Nodup) (eps : List E) :
    (dcs.map (countIn eps)).sum ≤ eps.length := by
  induction eps with
  | nil =>
    have zero : countIn ([] : List E) = fun _ : DC => 0 := rfl
    simp [zero]
  | cons ep eps ih =>
    have one := nodup_iff_count_le_one.1 nodup (Snitch.getDatacenter ep)
    have sum : (dcs.map (countIn (ep :: eps))).sum = (dcs.map (countIn eps)).sum +
        (dcs.map fun dc => if Snitch.getDatacenter ep = dc then 1 else 0).sum := by
      rw [← sum_map_add]
      refine congrArg sum (map_congr_left fun dc _ => ?_)
      simp [countIn, countP_cons]
    rw [sum, sum_ite_eq_count, length_cons]
    omega

variable {targets : List E}

theorem sufficient_of_assured {cl : ConsistencyLevel} {rs : ReplicationStrategy DC} (keyed : Keyed rs)
    (some : cl = .any → targets ≠ []) (h : assureSufficientLiveNodes cl rs targets = .ok ()) :
    rs.blockFor E cl ≤ targets.countP (waitingFor cl) := by
  have all : isDatacenterLocal cl = false → targets.countP (waitingFor cl) = targets.length := fun other =>
    countP_eq_length.2 fun ep _ => by simp [waitingFor, other]
  have locals : isDatacenterLocal cl = true → targets.countP (waitingFor cl) = targets.countP isLocal := fun isLocal =>
    countP_congr fun ep _ => by simp [waitingFor_eq, countsFor, isLocal]
  unfold assureSufficientLiveNodes at h
  simp only at h
  split at h
  · rw [all rfl]
    exact length_pos_of_ne_nil (some rfl)
  · rw [locals rfl]
    split at h
    · cases h
    next enough =>
      exact Nat.not_lt.1 enough
  · rw [locals rfl]
    split at h
    · cases h
    next enough =>
      exact Nat.not_lt.1 enough
  next factors =>
    rw [all rfl]
    split at h
    · cases h
    next none =>
      have enough : ∀ dc ∈ factors.map Prod.fst, localQuorumFor (.networkTopology factors) dc ≤ countIn targets dc :=
        fun dc hdc => by simpa using find?_eq_none.1 none dc (mem_append_left _ hdc)
      exact (sum_le_sum enough).trans (sum_countIn_le (keyed factors rfl) targets)
  · split at h
    · cases h
    next enough =>
      refine (Nat.not_lt.1 enough).trans_eq (all ?_).symm
      cases cl <;> first | rfl | contradiction

variable {combine : List E → Nat → Bool → Option (List E)} {cl : ConsistencyLevel} {rs : ReplicationStrategy DC}
  {live : List E} {repair : ReadRepairDecision} {wantExtra : Bool}

section

omit [DecidableEq E]

/-- Without global repair, either all candidates are asked or as many as wanted. -/
theorem filterForQuery_spec (combines : Combines combine) (notGlobal : repair ≠ .global) :
    (filterForQuery combine cl rs live repair wantExtra).1 ⊆ candidates cl live repair ∧
      ((filterForQuery combine cl rs live repair wantExtra).1 = candidates cl live repair ∨
        (filterForQuery combine cl rs live repair wantExtra).1.length = wanted cl rs live repair) := by
  unfold filterForQuery
  simp only [notGlobal, if_false]
  split
  · exact ⟨List.Subset.refl _, .inl rfl⟩
  · cases combined : combine (candidates cl live repair) (wanted cl rs live repair) wantExtra with
    | none => exact ⟨take_subset _ _, .inr (by simp; omega)⟩
    | some l =>
      obtain ⟨length, sub⟩ := combines _ _ _ _ combined
      refine ⟨fun ep hep => sub (mem_of_mem_take hep), .inr ?_⟩
      simp [length]

/-- Without global repair, only replicas that count are asked. -/
theorem counts_filterForQuery (combines : Combines combine) (notGlobal : repair ≠ .global) :
    ∀ ep ∈ (filterForQuery combine cl rs live repair wantExtra).1, countsFor cl ep = true := by
  intro ep hep
  have mem := (filterForQuery_spec combines notGlobal).1 hep
  cases isLocalCl : isDatacenterLocal cl with
  | false => simp [countsFor, isLocalCl]
  | true =>
    simp only [candidates, isLocalCl, or_true, if_true] at mem
    simp [countsFor, (mem_filter.1 mem).2]

theorem filterForQuery_ne_nil (combines : Combines combine) (some : live ≠ []) (one : 1 ≤ rs.blockFor E cl)
    (other : isDatacenterLocal cl = false) : (filterForQuery combine cl rs live repair wantExtra).1 ≠ [] := by
  by_cases isGlobal : repair = .global
  · subst isGlobal
    exact some
  · have all_or_wanted : (filterForQuery combine cl rs live repair wantExtra).1 = candidates cl live repair ∨
        (filterForQuery combine cl rs live repair wantExtra).1.length = wanted cl rs live repair :=
      (filterForQuery_spec combines isGlobal).2
    rcases all_or_wanted with eq | length
    · have perm : (candidates cl live repair).Perm live := by
        unfold candidates
        simp only [other]
        split
        · simpa using filter_append_perm isLocal live
        · exact .refl _
      rw [eq]
      exact fun nil => some (perm_nil.1 (nil ▸ perm.symm))
    · refine ne_nil_of_length_pos ?_
      have : rs.blockFor E cl ≤ wanted cl rs live repair := by
        unfold wanted
        split
        · exact le_max_left _ _
        · exact le_rfl
      omega

end

theorem covers_neverSpeculating (some : targets ≠ []) (all : ∀ ep ∈ targets, waitingFor cl ep = true) :
    (ReadExecutor.neverSpeculating cl targets).Covers := ⟨some, rfl, all⟩

/-- With more targets than needed, all of which count, it does not matter which executor it is. -/
theorem covers_of_more {blockFor : Nat} (one : 1 ≤ blockFor) (more : blockFor < targets.length)
    (all : ∀ ep ∈ targets, waitingFor cl ep = true) (retry : SpeculativeRetry) : (ReadExecutor.mk
      (if retry = .always then .alwaysSpeculating else .speculating) cl blockFor targets).Covers := by
  split
  · exact ⟨by simp only; omega, (countP_eq_length.2 all).symm ▸ more.le⟩
  · exact ⟨by simp only; omega, more, all⟩

/-- The executor that a read gets covers its targets, except where it does not speculate, the level is local to
a datacenter and global repair has added remote replicas. -/
theorem covers_getReadExecutor (combines : Combines combine) (keyed : Keyed rs) (some : live ≠ [])
    (one : 1 ≤ rs.blockFor E cl) {unset : E} {retry : SpeculativeRetry} {x : ReadExecutor E}
    (h : getReadExecutor combine unset cl rs live repair retry = .ok x)
    (cond : retry = .none → repair = .global → ∀ ep ∈ live, countsFor cl ep = true) : x.Covers := by
  unfold getReadExecutor at h
  generalize hq : filterForQuery combine cl rs live repair (decide (retry ≠ .none)) = q at h
  obtain ⟨targets, extra⟩ := q
  have asked : (filterForQuery combine cl rs live repair (decide (retry ≠ .none))).1 = targets := congrArg Prod.fst hq
  obtain ⟨⟨⟩, assured, h⟩ := bind_eq_ok.1 h
  have enough := sufficient_of_assured keyed
    (fun any => asked ▸ filterForQuery_ne_nil combines some one (by rw [any]; rfl)) assured
  have most : targets.countP (waitingFor cl) ≤ targets.length := countP_le_length
  have nonempty : targets ≠ [] := ne_nil_of_length_pos (by omega)
  have counts : repair ≠ .global → ∀ ep ∈ targets, waitingFor cl ep = true := fun notGlobal ep hep => by
    rw [waitingFor_eq]
    exact counts_filterForQuery combines notGlobal ep (asked.symm ▸ hep)
  have isGlobal : repair = .global → targets = live := by
    rintro rfl
    exact asked.symm
  simp only at h
  split at h
  next never =>
    cases h
    refine covers_neverSpeculating nonempty ?_
    by_cases repairs : repair = .global
    · obtain rfl := isGlobal repairs
      rcases never with none | all | dcLocal
      · intro ep hep
        rw [waitingFor_eq]
        exact cond none repairs ep hep
      · exact countP_eq_length.1 (by omega)
      · exact absurd (dcLocal.1.symm.trans repairs) (by decide)
    · exact counts repairs
  next speculates =>
    split at h
    · cases h
      exact ⟨by simp only; omega, enough⟩
    next notAll =>
      have notGlobal : repair ≠ .global := fun repairs => notAll (congrArg length (isGlobal repairs))
      split at h
      · cases h
        exact covers_neverSpeculating nonempty (counts notGlobal)
      next hasExtra =>
        cases h
        by_cases same : targets.length = rs.blockFor E cl
        · rw [if_pos same]
          refine covers_of_more one (by simp [same]) (fun ep hep => ?_) retry
          rcases mem_append.1 hep with hep | hep
          · exact counts notGlobal ep hep
          · rw [mem_singleton.1 hep, waitingFor_eq, countsFor]
            cases isLocalCl : isDatacenterLocal cl with
            | false => rfl
            | true => simpa [same, isLocalCl] using hasExtra
        · rw [if_neg same]
          exact covers_of_more one (by omega) (counts notGlobal) retry

/-- A read for which `get_read_executor` returns an executor is answered by the time all targets have
responded, and no promise is resolved twice, provided that retries are on, or repair is not global, or the
level does not count the local replicas only, or all live replicas are local. -/
theorem read_answered [DecidableEq D] [Inhabited D] (combine : List E → Nat → Bool → Option (List E))
    (combines : Combines combine) (unset : E) (cl : ConsistencyLevel) (rs : ReplicationStrategy DC) (keyed : Keyed rs)
    (live : List E) (some : live ≠ []) (one : 1 ≤ rs.blockFor E cl) (repair : ReadRepairDecision)
    (retry : SpeculativeRetry) (cond : retry = .none → repair = .global → ∀ ep ∈ live, countsFor cl ep = true)
    {x : ReadExecutor E} (h : getReadExecutor combine unset cl rs live repair retry = .ok x) :
    ∃ s₀, Read.start R D x = .ok s₀ ∧ ∀ tr s, Run Read.step (fun _ _ _ => True) s₀ tr s →
      (s.resolver.donePromise.isSome = true → s.resolver.clPromise.isSome = true) ∧ ∀ op, ∃ r, s.step op = .ok r := by
  obtain ⟨s₀, started, sufficient⟩ := (covers_getReadExecutor combines keyed some one h cond).start R D
  exact ⟨s₀, started, fun tr s run => Read.answered_of_sufficient started sufficient run⟩

/-- Two datacenters, LOCAL_QUORUM and global repair, with speculation at the 99th percentile. -/
theorem read_answered_global_repair :
    let live := [0, 1, 2, 10, 11, 12]
    ∃ x, getReadExecutor (fun _ _ _ => none) 99 .localQuorum (.networkTopology [(0, 3), (1, 3)]) live .global .percentile = .ok x ∧
      ∃ s₀, Read.start Nat Nat x = .ok s₀ ∧ ∀ tr s, Run Read.step (fun _ _ _ => True) s₀ tr s →
        (s.resolver.donePromise.isSome = true → s.resolver.clPromise.isSome = true) ∧ ∀ op, ∃ r, s.step op = .ok r :=
  ⟨_, rfl, read_answered (fun _ _ _ => none) (fun _ _ _ _ h => by cases h) 99 .localQuorum
    (.networkTopology [(0, 3), (1, 3)]) (fun _ h => by cases h; decide) [0, 1, 2, 10, 11, 12] (by decide) (by decide)
    .global .percentile (fun h => by cases h) rfl⟩

/-- Without speculation, LOCAL_QUORUM with global repair waits for six responses that count, of which there are
three. All six come in, the timeout is cancelled, and the client never hears of it. -/
theorem read_never_answered :
    ∃ (x : ReadExecutor Nat) (s₀ s : Read Nat Nat Nat) (tr : List (ReadEvent Nat Nat Nat)),
      getReadExecutor (fun _ _ _ => none) 99 .localQuorum (.networkTopology [(0, 3), (1, 3)]) [0, 1, 2, 10, 11, 12]
        .global .none = .ok x ∧ Read.start Nat Nat x = .ok s₀ ∧ Run Read.step (fun _ _ _ => True) s₀ tr s ∧
      s.resolver.donePromise = some .completed ∧ s.resolver.timeoutArmed = false ∧ s.outstanding = [] ∧
      s.resolver.clPromise = none := by
  have run : Run Read.step (fun _ _ _ => True)
      ⟨.neverSpeculating .localQuorum [0, 1, 2, 10, 11, 12], { cl := .localQuorum, blockFor := 6, targetsCount := 6 },
        [(0, .data), (1, .digest), (2, .digest), (10, .digest), (11, .digest), (12, .digest)], false⟩ _ _ :=
    .snoc (.snoc (.snoc (.snoc (.snoc (.snoc .init
      (i := .respond 0 (resultOf 7)) trivial rfl) (i := .respond 0 (resultOf 7)) trivial rfl)
      (i := .respond 0 (resultOf 7)) trivial rfl) (i := .respond 0 (resultOf 7)) trivial rfl)
      (i := .respond 0 (resultOf 7)) trivial rfl) (i := .respond 0 (resultOf 7)) trivial rfl
  refine ⟨_, _, _, _, rfl, rfl, run, ?_, ?_, ?_, ?_⟩ <;> rfl

end ScyllaMoon.Coordinator
