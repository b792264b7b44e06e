import ScyllaMoon.Coordinator.DigestResolver

/-!
# Which replicas the consistency level was reached by

The resolver counts responses, not replicas. No replica is asked twice by the executors that do not
speculate. The speculating one keeps the last target as the extra replica, to be asked when the timer
fires, unless it hits additional targets for read repair: there it asks the last target right away, and
the timer asks it again.
-/

namespace ScyllaMoon.Coordinator

open Lib List Function

variable {E DC R D : Type} [DecidableEq E] [DecidableEq DC] [Snitch E DC]

namespace ReadExecutor

variable {x : ReadExecutor E} {wait : Nat} {requests : List (E × RequestKind)}

/-- The requests that an executor starts with. -/
inductive Starts (x : ReadExecutor E) : Nat → List (E × RequestKind) → Prop where
  | never {t : E} {ts : List E} (kind : x.kind = .neverSpeculating) (targets : x.targets = t :: ts) :
      Starts x x.targets.length (makeDataRequests [t] ++ makeDigestRequests ts)
  | always {t t' : E} {ts : List E} (kind : x.kind = .alwaysSpeculating) (targets : x.targets = t :: t' :: ts) :
      Starts x x.targets.length (makeDataRequests [t, t'] ++ makeDigestRequests ts)
  | repair {t t' : E} {ts : List E} (kind : x.kind = .speculating) (targets : x.targets = t :: t' :: ts)
      (more : x.blockFor + 1 < x.targets.length) :
      Starts x (x.targets.length - 1) (makeDataRequests [t, t'] ++ makeDigestRequests ts)
  | extra {t t' : E} {ts : List E} (kind : x.kind = .speculating) (targets : x.targets = t :: t' :: ts)
      (enough : x.targets.length ≤ x.blockFor + 1) :
      Starts x (x.targets.length - 1) (makeDataRequests [t] ++ makeDigestRequests (t' :: ts).dropLast)

omit [DecidableEq E]

theorem starts_of_makeRequests (h : x.makeRequests = .ok (wait, requests)) : Starts x wait requests := by
  unfold makeRequests at h
  split at h
  next kind targets =>
    cases h
    exact .never kind targets
  next kind targets =>
    cases h
    exact .always kind targets
  next kind targets =>
    split at h <;> cases h
    · exact .repair kind targets (by omega)
    · exact .extra kind targets (by omega)
  · cases h

@[simp] theorem fst_makeDataRequests (eps : List E) : (makeDataRequests eps).map Prod.fst = eps := by
  simp [makeDataRequests, comp_def]

@[simp] theorem fst_makeDigestRequests (eps : List E) : (makeDigestRequests eps).map Prod.fst = eps := by
  simp [makeDigestRequests, comp_def]

/-- Each target is asked once, except for the extra one. -/
theorem Starts.endpoints (h : Starts x wait requests) : requests.map Prod.fst = x.targets ∧
      (x.kind = .speculating → x.blockFor + 1 < x.targets.length) ∨
    requests.map Prod.fst = x.targets.dropLast ∧ x.kind = .speculating ∧ x.targets.length ≤ x.blockFor + 1 := by
  cases h with
  | never kind targets | always kind targets => exact .inl ⟨by simp [targets], by simp [kind]⟩
  | repair kind targets more => exact .inl ⟨by simp [targets], fun _ => more⟩
  | extra kind targets enough => exact .inr ⟨by simp [targets, dropLast_cons_of_ne_nil], kind, enough⟩

end ReadExecutor

namespace Read

variable [DecidableEq D] [Inhabited D] {x : ReadExecutor E} {s : Read E R D}
  {tr : List (ReadEvent E R D)}

/-- The speculation timer does not fire where the last target has been asked right away. -/
def Spares (x : ReadExecutor E) (tr : List (ReadEvent E R D)) : Prop :=
  x.kind = .speculating → x.blockFor + 1 < x.targets.length → ∀ o, (ReadOp.speculate, o) ∉ tr

/-- The endpoints that have been asked and have responded, or may still do so. -/
def asked (tr : List (ReadEvent E R D)) (s : Read E R D) : List E :=
  (requested tr s).map Prod.fst

/-- Nobody is asked twice. -/
structure Once (x : ReadExecutor E) (tr : List (ReadEvent E R D)) (s : Read E R D) : Prop where
  executor : s.executor = x
  armed : s.speculateArmed = true → x.kind = .speculating
  nodup : Spares x tr → (asked tr s).Nodup
  extra : Spares x tr → s.speculateArmed = true → x.targets.length ≤ x.blockFor + 1 →
    ∀ ep, x.targets.getLast? = some ep → ep ∉ asked tr s

variable {e : ReadOp R D × Option (E × RequestKind × D)}

section

omit [DecidableEq E] [DecidableEq D] [Inhabited D]

theorem Spares.mono (h : Spares x (tr ++ [e])) : Spares x tr :=
  fun kind more o mem => h kind more o (mem_append_left _ mem)

theorem once_start (nodup : x.targets.Nodup) (h : start R D x = .ok s) : Once x [] s := by
  obtain ⟨⟨wait, requests⟩, made, eq⟩ := bind_eq_ok.1 h
  cases eq
  have starts := (ReadExecutor.starts_of_makeRequests made).endpoints
  refine ⟨rfl, of_decide_eq_true, fun _ => ?_, fun _ armed enough ep last => ?_⟩
  · rcases starts with ⟨eps, -⟩ | ⟨eps, -, -⟩
    · simpa [asked, requested, received, eps] using nodup
    · simpa [asked, requested, received, eps] using nodup.sublist (dropLast_sublist _)
  · rcases starts with ⟨-, more⟩ | ⟨eps, -, -⟩
    · exact absurd (more (of_decide_eq_true armed)) (by omega)
    · obtain ⟨init, targets⟩ := getLast?_eq_some_iff.1 last
      have fresh : ep ∉ init := by
        rw [targets] at nodup
        exact fun mem => (disjoint_of_nodup_append nodup) mem (by simp)
      simpa [asked, requested, received, eps, targets] using fresh

end

variable {s' : Read E R D}

omit [DecidableEq E] [DecidableEq D] [Inhabited D] in
/-- Where nobody else is asked, nobody is asked twice. -/
theorem Once.of_subperm (once : Once x tr s) (executor : s'.executor = s.executor)
    (armed : s'.speculateArmed = true → s.speculateArmed = true) (sub : (asked (tr ++ [e]) s').Subperm (asked tr s)) :
    Once x (tr ++ [e]) s' where
  executor := executor.trans once.executor
  armed h := once.armed (armed h)
  nodup spares := by
    obtain ⟨l, perm, sublist⟩ := sub
    exact perm.nodup_iff.1 ((once.nodup spares.mono).sublist sublist)
  extra spares h enough ep last mem := once.extra spares.mono (armed h) enough ep last (sub.subset mem)

variable {op : ReadOp R D} {o : Option (E × RequestKind × D)}

theorem Once.step (once : Once x tr s) (move : Move s op s' o) : Once x (tr ++ [(op, o)]) s' := by
  have quiet : asked (tr ++ [(op, none)]) s = asked tr s := by simp [asked, requested]
  cases move with
  | idle => exact once.of_subperm rfl id (by rw [quiet])
  | late late request | response ok request =>
    exact once.of_subperm rfl id ((requested_response request rfl).map _).subperm
  | fail i =>
    refine once.of_subperm rfl id (List.Sublist.subperm ?_)
    rw [← quiet]
    exact (List.Sublist.append_left (eraseIdx_sublist ..) _).map _
  | spent armed completed | gotCl => exact once.of_subperm rfl nofun (by rw [← quiet]; exact .refl _)
  | expire armed => exact once.of_subperm rfl id (by rw [← quiet]; exact .refl _)
  | speculate armed missing kind =>
    refine ⟨once.executor, nofun, fun spares => ?_, fun _ => nofun⟩
    -- the timer has fired, so the last target has not been asked yet
    have enough : x.targets.length ≤ x.blockFor + 1 := by
      by_contra more
      exact spares (once.armed armed) (by omega) none (by simp)
    have nodup := once.nodup spares.mono
    have asked' : asked (tr ++ [(.speculate, none)]) (s.askLast kind) =
          asked tr s ++ x.targets.getLast?.toList := by
      simp [asked, requested, once.executor, comp_def]
    rw [asked']
    cases last : x.targets.getLast? with
    | none => simpa using nodup
    | some ep =>
      have fresh := once.extra spares.mono armed enough ep last
      exact nodup.append (nodup_singleton ep) (disjoint_singleton.2 fresh)

/-- The digests that are kept are those of the responses. With one target the digest is not calculated, but
then there is no second response before the consistency level is reached. -/
structure Kept (tr : List (ReadEvent E R D)) (s : Read E R D) : Prop where
  positive : 1 ≤ s.resolver.targetsCount
  digests : s.resolver.timedout = false → s.resolver.clReported = false →
    s.resolver.digestResults = (received tr).map (fun p => p.2.2) ∨ (received tr).length = 1 ∧
      s.resolver.targetsCount = 1 ∧ s.outstanding = []
  single : s.resolver.timedout = false → s.resolver.clReported = false → s.resolver.targetsCount = 1 →
    (received tr).length + s.outstanding.length ≤ 1 ∨
      s.resolver.blockFor = 0 ∧ received tr = [] ∧ ∀ p ∈ s.outstanding, p.2 = .data

omit [DecidableEq E] [DecidableEq D] [Inhabited D] in
theorem kept_start (h : start R D x = .ok s) : Kept [] s := by
  obtain ⟨⟨wait, requests⟩, made, eq⟩ := bind_eq_ok.1 h
  cases eq
  have starts := ReadExecutor.starts_of_makeRequests made
  have zero : received ([] : List (ReadEvent E R D)) = [] := rfl
  refine ⟨?_, fun _ _ => .inl rfl, fun _ _ one => ?_⟩
  · cases starts <;> simp_all [DigestResolver.addWaitTargets]
  · change 0 + wait = 1 at one
    cases starts with
    | never kind targets | extra kind targets enough =>
      simp_all [ReadExecutor.makeDataRequests, ReadExecutor.makeDigestRequests]
    | always kind targets => simp [targets] at one
    | repair kind targets more =>
      simp_all [ReadExecutor.makeDataRequests, ReadExecutor.makeDigestRequests, DigestResolver.addWaitTargets]

omit [DecidableEq D] in
/-- Where no response is needed for the consistency level, data are enough. -/
theorem reports_of_zero (ep : E) (result : QueryResult R D) (waiting : s.resolver.clReported = false)
    (zero : s.resolver.blockFor = 0) : (s.resolver.push .data result).reports ep = true := by
  simp [DigestResolver.reports, waiting, zero]

theorem Kept.step (kept : Kept tr s) (inv : s.resolver.Inv (received tr)) (move : Move s op s' o) :
    Kept (tr ++ [(op, o)]) s' := by
  have quiet : received (tr ++ [(op, none)]) = received tr := by simp
  cases move with
  | idle | spent armed completed | gotCl =>
    exact ⟨kept.positive, by rw [quiet]; exact kept.digests, by rw [quiet]; exact kept.single⟩
  | late late request => exact ⟨kept.positive, by simp [late], by simp [late]⟩
  | @response i result ep kind ok request =>
    obtain ⟨lt, here⟩ := List.getElem?_eq_some_iff.1 request
    have length := length_eraseIdx_of_lt lt
    refine ⟨kept.positive, fun _ waiting => ?_, fun _ waiting one => ?_⟩
    · have before : s.resolver.clReported = false ∧ (s.resolver.push kind result).reports ep = false := by simpa using waiting
      rcases kept.digests ok before.1 with same | ⟨-, -, none⟩
      · by_cases skipped : kind = .data ∧ s.resolver.targetsCount = 1
        · obtain ⟨rfl, one⟩ := skipped
          rcases kept.single ok before.1 one with few | ⟨zero, -, -⟩
          · refine .inr ⟨?_, one, eq_nil_of_length_eq_zero ?_⟩
            · simp only [received_concat, Option.toList_some, length_append, length_singleton]
              omega
            · change (s.outstanding.eraseIdx i).length = 0
              omega
          · exact absurd (reports_of_zero ep result before.1 zero) (by simp [before.2])
        · simp [same, skipped]
      · rw [none] at lt
        exact absurd lt (Nat.not_lt_zero _)
    · have before : s.resolver.clReported = false ∧ (s.resolver.push kind result).reports ep = false := by simpa using waiting
      rcases kept.single ok before.1 one with few | ⟨zero, -, data⟩
      · simp only [received_concat, Option.toList_some, length_append, length_singleton]
        omega
      · obtain rfl : kind = .data := data (ep, kind) (here ▸ getElem_mem lt)
        exact absurd (reports_of_zero ep result before.1 zero) (by simp [before.2])
  | fail i =>
    refine ⟨kept.positive, fun ok waiting => ?_, fun ok waiting one => ?_⟩
    · rw [quiet]
      refine (kept.digests ok waiting).imp_right ?_
      rintro ⟨one, target, empty⟩
      exact ⟨one, target, by simp [empty]⟩
    · rw [quiet]
      rcases kept.single ok waiting one with few | ⟨zero, empty, data⟩
      · have := (eraseIdx_sublist s.outstanding i).length_le
        refine .inl ?_
        simp only
        omega
      · exact .inr ⟨zero, empty, fun p hp => data p ((eraseIdx_sublist s.outstanding i).subset hp)⟩
  | expire armed => exact ⟨kept.positive, by simp, by simp⟩
  | speculate armed missing kind =>
    refine ⟨Nat.le_succ_of_le kept.positive, fun ok waiting => ?_, fun ok waiting one => ?_⟩
    · rw [quiet]
      rcases kept.digests ok waiting with same | ⟨one, target, -⟩
      · exact .inl same
      · exact absurd (decide_eq_true ((inv.count ok).trans (one.trans target.symm))) missing
    · have := kept.positive
      simp only [askLast, DigestResolver.addWaitTargets] at one
      omega

omit [DecidableEq E] [Inhabited D] in
theorem digests_eq {r : DigestResolver R D} (m : r.digestsMatch = true) {d e : D} (hd : d ∈ r.digestResults)
    (he : e ∈ r.digestResults) : d = e := by
  unfold DigestResolver.digestsMatch at m
  cases h : r.digestResults with
  | nil => simp [h] at hd
  | cons first rest =>
    simp only [h, all_eq_true, decide_eq_true_eq] at m
    have first_eq : ∀ d ∈ r.digestResults, d = first := by
      rw [h]
      exact forall_mem_cons.2 ⟨rfl, m⟩
    exact (first_eq d hd).trans (first_eq e he).symm

end Read

/-- The endpoints that count for a consistency level: the local ones if it is local to a datacenter. -/
def countsFor (cl : ConsistencyLevel) (ep : E) : Bool := !Handler.isDatacenterLocal cl || Handler.isLocal ep

theorem waitingFor_eq (cl : ConsistencyLevel) (ep : E) : waitingFor cl ep = countsFor cl ep := by
  unfold waitingFor countsFor
  cases Handler.isDatacenterLocal cl with
  | false => rfl
  | true =>
    by_cases me : ep = Snitch.broadcastAddress
    · subst me
      simp [Handler.isLocal]
    · simp [me]

variable {s : Read E R D}

open Read (start step received)

omit [DecidableEq E] in
theorem Read.resolver_start {x : ReadExecutor E} (started : start R D x = .ok s) :
    s.resolver.cl = x.cl ∧ s.resolver.blockFor = x.blockFor := by
  obtain ⟨⟨wait, requests⟩, -, eq⟩ := bind_eq_ok.1 started
  cases eq
  exact ⟨rfl, rfl⟩

variable {o : Option (E × RequestKind × D)}

theorem Read.Move.resolver [DecidableEq D] [Inhabited D] {s' : Read E R D} {op : ReadOp R D}
    (move : Read.Move s op s' o) :
    s'.resolver.cl = s.resolver.cl ∧ s'.resolver.blockFor = s.resolver.blockFor := by
  cases move <;> simp [DigestResolver.addWaitTargets]

namespace Read

variable [DecidableEq D] [Inhabited D] {x : ReadExecutor E} {s : Read E R D}
  {tr : List (ReadEvent E R D)}

variable {op : ReadOp R D} {result : QueryResult R D}

omit [DecidableEq D] in
/-- A response that reaches the consistency level is one of enough different replicas. -/
theorem distinct_of_reports {s' : Read E R D} (inv : s.resolver.Inv (received tr)) (ok : s.resolver.timedout = false)
    (waiting : s.resolver.clReported = false) {ep : E} {kind : RequestKind}
    (reports : (s.resolver.push kind result).reports ep = true)
    (nodup : (asked (tr ++ [(op, some (ep, kind, result.digest))]) s').Nodup) : s.resolver.blockFor ≤
      (((received (tr ++ [(op, some (ep, kind, result.digest))])).map Prod.fst).filter
        (countsFor s.resolver.cl)).toFinset.card := by
  have enough : s.resolver.blockFor ≤ s.resolver.counted ep := by
    simp only [DigestResolver.reports, Bool.and_eq_true, decide_eq_true_eq] at reports
    exact reports.2
  have eps : asked (tr ++ [(op, some (ep, kind, result.digest))]) s' =
      (received (tr ++ [(op, some (ep, kind, result.digest))])).map Prod.fst ++ s'.outstanding.map Prod.fst := by
    simp [asked, requested, comp_def]
  have different := (nodup_append.1 (eps ▸ nodup)).1.filter (countsFor s.resolver.cl)
  rw [toFinset_card_of_nodup different, ← countP_eq_length_filter, countP_map, received_concat, countP_append]
  refine enough.trans_eq ?_
  rw [DigestResolver.counted, inv.waiting ok waiting]
  simp [countP_singleton, waitingFor_eq, comp_def]

omit [DecidableEq E] in
/-- A match is one of all responses. -/
theorem match_of_reports (kept : Kept tr s) (ok : s.resolver.timedout = false) (waiting : s.resolver.clReported = false)
    {i : Nat} {ep : E} {kind : RequestKind} (request : s.outstanding[i]? = some (ep, kind))
    (m : (s.resolver.push kind result).digestsMatch = true) {p q : E × RequestKind × D}
    (hp : p ∈ received (tr ++ [(op, some (ep, kind, result.digest))]))
    (hq : q ∈ received (tr ++ [(op, some (ep, kind, result.digest))])) : p.2.2 = q.2.2 := by
  obtain ⟨lt, -⟩ := List.getElem?_eq_some_iff.1 request
  have one : received tr = [] → p.2.2 = q.2.2 := fun empty => by
    simp only [received_concat, empty, Option.toList_some, nil_append, mem_singleton] at hp hq
    rw [hp, hq]
  rcases kept.digests ok waiting with same | ⟨-, -, empty⟩
  · by_cases skipped : kind = .data ∧ s.resolver.targetsCount = 1
    · rcases kept.single ok waiting skipped.2 with few | ⟨-, empty, -⟩
      · exact one (eq_nil_of_length_eq_zero (by omega))
      · exact one empty
    · have digests : (s.resolver.push kind result).digestResults =
          (received (tr ++ [(op, some (ep, kind, result.digest))])).map fun p => p.2.2 := by
        simp [same, skipped]
      refine digests_eq m ?_ ?_
      · exact digests ▸ mem_map_of_mem hp
      · exact digests ▸ mem_map_of_mem hq
  · rw [empty] at lt
    exact absurd lt (Nat.not_lt_zero _)

end Read

variable {tr : List (ReadEvent E R D)}

/-- When the consistency level is reached, as many different replicas have responded as it asks for, provided
that the timer has not asked the last target a second time; and if the digests match, all responses so far
have the same one. -/
theorem cl_reached_by_distinct_replicas [DecidableEq D] [Inhabited D] (x : ReadExecutor E) (nodup : x.targets.Nodup)
    {s₀ s s' : Read E R D} (started : start R D x = .ok s₀)
    (run : Run step (fun _ _ _ => True) s₀ tr s) {op : ReadOp R D}
    (next : s.step op = .ok (s', o)) (pending : s.resolver.clPromise = none) {result : QueryResult R D} {m : Bool}
    (resolved : s'.resolver.clPromise = some (.value result m)) :
    (Read.Spares x tr → x.blockFor ≤
      (((received (tr ++ [(op, o)])).map Prod.fst).filter (countsFor x.cl)).toFinset.card) ∧
    (m = true → ∀ p ∈ received (tr ++ [(op, o)]), ∀ q ∈ received (tr ++ [(op, o)]), p.2.2 = q.2.2) := by
  obtain ⟨inv, once, kept, cl, blockFor⟩ := Read.run_invariant started
    (fun tr s => Read.Once x tr s ∧ Read.Kept tr s ∧ s.resolver.cl = x.cl ∧ s.resolver.blockFor = x.blockFor)
    ⟨Read.once_start nodup started, Read.kept_start started, Read.resolver_start started⟩
    (fun _ _ _ _ _ inv _ h move => ⟨h.1.step move, h.2.1.step inv move, move.resolver.1.trans h.2.2.1,
      move.resolver.2.trans h.2.2.2⟩) run
  obtain ⟨t, o', eq, -, move⟩ := Read.step_spec inv op
  cases next.symm.trans eq
  have waiting : s.resolver.clReported = false := by
    have := inv.cl
    simp_all
  cases move with
  | idle | late late request | fail i | spent armed completed | gotCl => simp [pending] at resolved
  | speculate armed missing kind => simp [DigestResolver.addWaitTargets, pending] at resolved
  | expire armed => simp [waiting] at resolved
  | @response i result' ep kind ok request =>
    simp only [DigestResolver.finished_clPromise, DigestResolver.reported_clPromise, DigestResolver.push_clPromise,
      pending] at resolved
    split at resolved
    next reports =>
      obtain ⟨data, -, value⟩ := Option.map_eq_some_iff.1 resolved
      obtain ⟨rfl, rfl⟩ := ClOutcome.value.inj value
      refine ⟨fun spares => ?_, fun m p hp q hq => Read.match_of_reports kept ok waiting request m hp hq⟩
      rw [← blockFor, ← cl]
      refine Read.distinct_of_reports inv ok waiting reports ((once.step (.response ok request)).nodup ?_)
      intro kind more o mem
      rcases mem_append.1 mem with mem | mem
      · exact spares kind more o mem
      · cases mem_singleton.1 mem
    · cases resolved

/-- The digest of `n`, as result and as digest. -/
def resultOf (n : Nat) : QueryResult Nat Nat := ⟨n, n⟩

/-- Three targets of which two are enough: the timer fires, and the extra replica responds before the second
one. -/
theorem cl_reached_by_extra_replica :
    let x : ReadExecutor Nat := { kind := .speculating, cl := .two, blockFor := 2, targets := [1, 2, 3] }
    ∃ (s₀ s s' : Read Nat Nat Nat) (tr : List (ReadEvent Nat Nat Nat)) (o : _),
      start Nat Nat x = .ok s₀ ∧ Run step (fun _ _ _ => True) s₀ tr s ∧
      s.step (.respond 1 (resultOf 7)) = .ok (s', o) ∧ s'.resolver.clPromise = some (.value (resultOf 7) true) ∧
      x.blockFor ≤ (((received (tr ++ [(.respond 1 (resultOf 7), o)])).map Prod.fst).filter
        (countsFor x.cl)).toFinset.card := by
  intro x
  have started : start Nat Nat x = .ok _ := rfl
  have run : Run step (fun _ _ _ => True)
      ⟨x, { cl := .two, blockFor := 2, targetsCount := 2 }, [(1, .data), (2, .digest)], true⟩ _ _ :=
    .snoc (.snoc .init (i := .respond 0 (resultOf 7)) trivial rfl) (i := .speculate) trivial rfl
  refine ⟨_, _, _, _, _, started, run, rfl, rfl, ?_⟩
  exact (cl_reached_by_distinct_replicas x (by decide) started run rfl rfl rfl).1 fun _ more => absurd more (by decide)

/-- Once a read is answered, with a result or a timeout, every event is taken in and none changes the answer. -/
theorem read_answer_final [DecidableEq D] [Inhabited D] {x : ReadExecutor E} {s₀ s : Read E R D}
    (started : start R D x = .ok s₀)
    (run : Run step (fun _ _ _ => True) s₀ tr s) {c : ClOutcome R D} (answered : s.resolver.clPromise = some c)
    (op : ReadOp R D) : ∃ s' o, s.step op = .ok (s', o) ∧ s'.resolver.clPromise = some c := by
  have inv := (Read.run_invariant started (fun _ _ => True) trivial (fun _ _ _ _ _ _ _ _ _ => trivial) run).1
  obtain ⟨s', o, next, -, move⟩ := Read.step_spec inv op
  refine ⟨s', o, next, ?_⟩
  obtain ⟨cl, pending, expired, -⟩ := inv
  cases move with
  | response ok => simp_all [DigestResolver.reports]
  | expire armed => simp_all
  | _ => exact answered

theorem read_answer_final_timeout : ∃ x, ∃ s₀ s : Read Nat Nat Nat, start Nat Nat x = .ok s₀ ∧
    after step s₀ [.respond 0 (resultOf 7)] = some s ∧
    ∃ s' o, s.step .timeout = .ok (s', o) ∧ s'.resolver.clPromise = some (.value (resultOf 7) true) :=
  have started : start Nat Nat ⟨.neverSpeculating, .one, 1, [1, 2]⟩ = .ok _ := rfl
  have run : Run step (fun _ _ _ => True) _ _ _ := .snoc .init (i := .respond 0 (resultOf 7)) trivial rfl
  ⟨_, _, _, started, rfl, read_answer_final started run rfl .timeout⟩

/-- Four targets of which two are enough: the last one is asked for a digest at once and, since no data have
come in, for data when the timer fires. Its two responses pass for those of two replicas. -/
theorem replica_counted_twice :
    let x : ReadExecutor Nat := { kind := .speculating, cl := .two, blockFor := 2, targets := [1, 2, 3, 4] }
    ∃ (s₀ : Read Nat Nat Nat) (tr : List (ReadEvent Nat Nat Nat)) (s : Read Nat Nat Nat),
      start Nat Nat x = .ok s₀ ∧ Run step (fun _ _ _ => True) s₀ tr s ∧
      s.resolver.clPromise = some (.value (resultOf 7) true) ∧ (received tr).map Prod.fst = [4, 4] := by
  intro x
  have run : Run step (fun _ _ _ => True) ⟨x, { cl := .two, blockFor := 2, targetsCount := 3 },
      [(1, .data), (2, .data), (3, .digest), (4, .digest)], true⟩ _ _ :=
    .snoc (.snoc (.snoc .init (i := .speculate) trivial rfl)
      (i := .respond 3 (resultOf 7)) trivial rfl) (i := .respond 3 (resultOf 7)) trivial rfl
  refine ⟨_, _, _, rfl, run, ?_, ?_⟩ <;> rfl

end ScyllaMoon.Coordinator
