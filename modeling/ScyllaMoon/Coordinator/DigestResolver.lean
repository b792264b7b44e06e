import ScyllaMoon.Coordinator.EachQuorum

/-!
# Reading at a consistency level

The coordinator of a read asks one or two replicas for the data and others for a digest of it. A
`digest_read_resolver` collects the responses: its first promise is resolved when the consistency level
is reached, together with whether the digests match, its second one when all replicas that were asked
have responded. Which replicas are asked for what is up to the executor, of which there are three; the
speculating one may ask a further replica when its timer fires.
-/

namespace ScyllaMoon.Coordinator

open Lib

variable {E DC R D : Type} [DecidableEq E] [DecidableEq DC] [Snitch E DC]

/-- `query::result`, with its digest -/
structure QueryResult (R D : Type) where
  data : R
  digest : D
  deriving DecidableEq, Repr

/-- `read_timeout_exception` -/
structure ReadTimeout where
  received : Nat
  blockFor : Nat
  dataPresent : Bool
  deriving DecidableEq, Repr

/-- What `_cl_promise` was resolved with. -/
inductive ClOutcome (R D : Type) where
  | value (result : QueryResult R D) (digestsMatch : Bool)
  | timeout (e : ReadTimeout)
  deriving DecidableEq, Repr

/-- What `_done_promise` was resolved with. -/
inductive DoneOutcome where
  | completed
  | timeout (e : ReadTimeout)
  deriving DecidableEq, Repr

inductive RequestKind where
  | data
  | digest
  deriving DecidableEq, Repr

/-- `digest_read_resolver` -/
structure DigestResolver (R D : Type) where
  cl : ConsistencyLevel
  blockFor : Nat
  targetsCount : Nat := 0
  clResponses : Nat := 0
  clReported : Bool := false
  dataResult : Option (QueryResult R D) := none
  digestResults : List D := []
  timedout : Bool := false
  timeoutArmed : Bool := true
  clPromise : Option (ClOutcome R D) := none
  donePromise : Option DoneOutcome := none

/-- `digest_read_resolver::waiting_for` -/
def waitingFor (cl : ConsistencyLevel) (ep : E) : Bool :=
  if Handler.isDatacenterLocal cl then decide (ep = Snitch.broadcastAddress) || Handler.isLocal ep else true

namespace DigestResolver

variable (r : DigestResolver R D)

/-- `_cl_promise.set_value` and `_cl_promise.set_exception` -/
def resolveCl (o : ClOutcome R D) : Except Fault (DigestResolver R D) :=
  if r.clPromise.isSome then .error .promiseSetTwice else .ok { r with clPromise := some o }

/-- `_done_promise.set_value` and `_done_promise.set_exception` -/
def resolveDone (o : DoneOutcome) : Except Fault (DigestResolver R D) :=
  if r.donePromise.isSome then .error .promiseSetTwice else .ok { r with donePromise := some o }

/-- `response_count` -/
def responseCount : Nat := r.digestResults.length

/-- `is_completed` -/
def isCompleted : Bool := decide (r.responseCount = r.targetsCount)

/-- `has_data` -/
def hasData : Bool := r.dataResult.isSome

/-- `add_wait_targets` -/
def addWaitTargets (n : Nat) : DigestResolver R D :=
  { r with targetsCount := r.targetsCount + n }

variable [DecidableEq D] (r : DigestResolver R D)

/-- `digests_match` -/
def digestsMatch : Bool :=
  match r.digestResults with
  -- excluded by an assertion
  | [] => true
  | first :: rest => rest.all fun d => decide (d = first)

variable (ep : E)

/-- `_cl_responses` with one more response, which counts if it is waited for. -/
def counted : Nat := r.clResponses + if waitingFor r.cl ep then 1 else 0

/-- The first half of `got_response`: counts the response and reports the consistency level. -/
def reportCl : Except Fault (DigestResolver R D) :=
  if r.clReported then .ok r
  else
    let r := { r with clResponses := r.counted ep }
    match r.dataResult with
    | some result =>
      if r.clResponses ≥ r.blockFor then
        { r with clReported := true, dataResult := none }.resolveCl (.value result r.digestsMatch)
      else .ok r
    | none => .ok r

/-- `got_response` -/
def gotResponse : Except Fault (DigestResolver R D) := do
  let r ← r.reportCl ep
  if r.isCompleted then ({ r with timeoutArmed := false }).resolveDone .completed else pure r

/-- `add_data`; with one target the digest is not calculated -/
def addData [Inhabited D] (result : QueryResult R D) :
    Except Fault (DigestResolver R D) :=
  if r.timedout then .ok r
  else gotResponse { r with
    digestResults := r.digestResults ++ [if r.targetsCount = 1 then default else result.digest]
    dataResult := r.dataResult.or (some result) } ep

/-- `add_digest` -/
def addDigest (digest : D) : Except Fault (DigestResolver R D) :=
  if r.timedout then .ok r
  else gotResponse { r with digestResults := r.digestResults ++ [digest] } ep

/-- The response to a request of either kind. -/
def add [Inhabited D] (kind : RequestKind) (result : QueryResult R D) :
    Except Fault (DigestResolver R D) :=
  match kind with
  | .data => r.addData ep result
  | .digest => r.addDigest ep result.digest

/-- The callback of `_timeout`. `_responses` is never counted up, so the first exception never has data. -/
def expire : Except Fault (DigestResolver R D) := do
  let r := { r with timedout := true, timeoutArmed := false }
  let r ← r.resolveDone (.timeout ⟨r.responseCount, r.targetsCount, false⟩)
  -- `on_timeout`
  let r ← if r.clReported then pure r
    else r.resolveCl (.timeout ⟨r.clResponses, r.blockFor, r.dataResult.isSome⟩)
  pure { r with dataResult := none, digestResults := [] }

end DigestResolver

/-- The classes derived from `abstract_read_executor`. -/
inductive ReadExecutorKind where
  | neverSpeculating
  | alwaysSpeculating
  | speculating
  deriving DecidableEq, Repr

/-- `abstract_read_executor` -/
structure ReadExecutor (E : Type) where
  kind : ReadExecutorKind
  cl : ConsistencyLevel
  blockFor : Nat
  targets : List E

namespace ReadExecutor

/-- The constructor of `never_speculating_read_executor` -/
def neverSpeculating (cl : ConsistencyLevel) (targets : List E) : ReadExecutor E :=
  { kind := .neverSpeculating, cl, blockFor := targets.length, targets }

/-- `make_data_requests` -/
def makeDataRequests (eps : List E) : List (E × RequestKind) := eps.map fun ep => (ep, .data)

/-- `make_digest_requests` -/
def makeDigestRequests (eps : List E) : List (E × RequestKind) := eps.map fun ep => (ep, .digest)

/-- `make_requests` of the three executors: the number of responses to wait for, and the requests. -/
def makeRequests (x : ReadExecutor E) : Except Fault (Nat × List (E × RequestKind)) :=
  match x.kind, x.targets with
  | .neverSpeculating, t :: ts => .ok (x.targets.length, makeDataRequests [t] ++ makeDigestRequests ts)
  | .alwaysSpeculating, t :: t' :: ts => .ok (x.targets.length, makeDataRequests [t, t'] ++ makeDigestRequests ts)
  | .speculating, t :: t' :: ts =>
    if x.blockFor < x.targets.length - 1 then
      -- read repair hits additional targets, so there is an extra data read to start with
      .ok (x.targets.length - 1, makeDataRequests [t, t'] ++ makeDigestRequests ts)
    else .ok (x.targets.length - 1, makeDataRequests [t] ++ makeDigestRequests (t' :: ts).dropLast)
  | _, _ => .error .endIterator

end ReadExecutor

/-- A read on its way: the executor, its resolver, the requests that are not answered yet, and whether
the speculation timer may still fire. -/
structure Read (E R D : Type) where
  executor : ReadExecutor E
  resolver : DigestResolver R D
  outstanding : List (E × RequestKind)
  speculateArmed : Bool

/-- What happens to a read: one of the outstanding requests is answered or fails, a timer fires, or the
continuation of `has_cl` runs. -/
inductive ReadOp (R D : Type) where
  | respond (i : Nat) (result : QueryResult R D)
  | fail (i : Nat)
  | speculate
  | timeout
  | gotCl

/-- An event, and the response that came in with it. -/
abbrev ReadEvent (E R D : Type) := ReadOp R D × Option (E × RequestKind × D)

namespace Read

/-- `abstract_read_executor::execute`, up to the first response -/
def start (R D : Type) (x : ReadExecutor E) : Except Fault (Read E R D) := do
  let (wait, requests) ← x.makeRequests
  let resolver : DigestResolver R D := { cl := x.cl, blockFor := x.blockFor }
  return {
    executor := x
    resolver := resolver.addWaitTargets wait
    outstanding := requests
    speculateArmed := decide (x.kind = .speculating) }

/-- One more request, to the last target, and one more response to wait for. -/
@[simp] def askLast (s : Read E R D) (kind : RequestKind) : Read E R D :=
  { s with
    speculateArmed := false
    resolver := s.resolver.addWaitTargets 1
    outstanding := s.outstanding ++ (s.executor.targets.getLast?).toList.map fun ep => (ep, kind) }

/-- The callback of `_speculate_timer` -/
def speculate (s : Read E R D) : Read E R D :=
  if s.resolver.isCompleted then { s with speculateArmed := false }
  else s.askLast (if s.resolver.hasData then .digest else .data)

/-- One event. The answer has the response that came in, if there was one. -/
def step [DecidableEq D] [Inhabited D] (s : Read E R D) : ReadOp R D →
    Except Fault (Read E R D × Option (E × RequestKind × D))
  | .respond i result => match s.outstanding[i]? with
    | none => .ok (s, none)
    | some (ep, kind) => do
      let resolver ← s.resolver.add ep kind result
      return ({ s with resolver, outstanding := s.outstanding.eraseIdx i }, some (ep, kind, result.digest))
  | .fail i => .ok ({ s with outstanding := s.outstanding.eraseIdx i }, none)
  | .speculate => .ok (if s.speculateArmed then s.speculate else s, none)
  | .timeout => do
    let resolver ← if s.resolver.timeoutArmed then s.resolver.expire else pure s.resolver
    return ({ s with resolver }, none)
  | .gotCl => .ok (if s.resolver.clPromise.isSome then { s with speculateArmed := false } else s, none)

end Read

namespace DigestResolver

variable [DecidableEq D] (r : DigestResolver R D)

omit [DecidableEq D] in
/-- Whether the next response makes the consistency level reached. -/
def reports (ep : E) : Bool :=
  !r.clReported && r.dataResult.isSome && decide (r.blockFor ≤ r.counted ep)

/-- What the first half of `got_response` does where the promise is still open. -/
@[simps] def reported (ep : E) : DigestResolver R D :=
  { r with
    clResponses := if r.clReported then r.clResponses else r.counted ep
    clReported := r.clReported || r.reports ep
    dataResult := if r.reports ep then none else r.dataResult
    clPromise := if r.reports ep then r.dataResult.map fun result => .value result r.digestsMatch else r.clPromise }

theorem reportCl_eq (ep : E) (unresolved : r.clReported = false → r.clPromise = none) :
    r.reportCl ep = .ok (r.reported ep) := by
  obtain ⟨cl, blockFor, targets, responses, clReported, data, digests, timedout, armed, promise, done⟩ := r
  cases clReported with
  | true => simp [reportCl, reported, reports]
  | false =>
    obtain rfl := unresolved rfl
    cases data with
    | none => simp [reportCl, reported, reports]
    | some result =>
      by_cases reached : blockFor ≤ counted ⟨cl, blockFor, targets, responses, false, some result,
        digests, timedout, armed, none, done⟩ ep
      · simp [reportCl, reported, reports, resolveCl, reached]
        rfl
      · simp [reportCl, reported, reports, reached]

section

omit [DecidableEq D]

/-- The second half of `got_response`, where the promise is still open. -/
@[simps] def finished : DigestResolver R D :=
  { r with
    timeoutArmed := r.timeoutArmed && !r.isCompleted
    donePromise := if r.isCompleted then some .completed else r.donePromise }

theorem finished_of_not {r : DigestResolver R D} (h : ¬r.isCompleted = true) : r.finished = r := by
  simp only [finished, h]
  simp

/-- The resolver with a response added, before `got_response`. -/
@[simps] def push [Inhabited D] (r : DigestResolver R D) (kind : RequestKind) (result : QueryResult R D) : DigestResolver R D :=
  { r with
    digestResults := r.digestResults ++ [if kind = .data ∧ r.targetsCount = 1 then default else result.digest]
    dataResult := if kind = .data then r.dataResult.or (some result) else r.dataResult }

end

variable [Inhabited D] {rs : List (E × RequestKind × D)} {r : DigestResolver R D}

theorem add_eq (r : DigestResolver R D) (ep : E) (kind : RequestKind) (result : QueryResult R D) :
    r.add ep kind result = if r.timedout then .ok r else (r.push kind result).gotResponse ep := by
  cases kind <;> simp [add, addData, addDigest, push]

/-- What holds of a resolver that got the responses `rs`. -/
structure Inv (rs : List (E × RequestKind × D)) (r : DigestResolver R D) : Prop where
  cl : r.clPromise.isSome = (r.clReported || r.timedout)
  armed : r.timeoutArmed = r.donePromise.isNone
  expired : r.timedout = true → r.donePromise.isSome = true
  completed : r.timedout = false → r.donePromise.isSome = true → r.targetsCount ≤ r.responseCount
  count : r.timedout = false → r.responseCount = rs.length
  waiting : r.timedout = false → r.clReported = false → r.clResponses = rs.countP fun p => waitingFor r.cl p.1
  data : r.timedout = false → r.clReported = false → (r.dataResult.isSome = true ↔ ∃ p ∈ rs, p.2.1 = .data)

omit [DecidableEq D] in
theorem isSome_dataResult_push (r : DigestResolver R D) (kind : RequestKind) (result : QueryResult R D) :
    (r.push kind result).dataResult.isSome = true ↔ r.dataResult.isSome = true ∨ kind = .data := by
  cases kind <;> simp [push]

/-- A response that comes in time is taken in, and no promise is resolved twice. -/
theorem Inv.add_eq (inv : Inv rs r) (ok : r.timedout = false) (ep : E) (kind : RequestKind) (result : QueryResult R D) :
    r.add ep kind result = .ok ((r.push kind result).reported ep).finished := by
  have unresolved : (r.push kind result).clReported = false → (r.push kind result).clPromise = none := by
    intro waiting
    have := inv.cl
    simp_all
  rw [DigestResolver.add_eq, ok, if_neg (by decide), gotResponse, reportCl_eq _ _ unresolved, ok_bind]
  by_cases last : ((r.push kind result).reported ep).isCompleted = true
  · have isOpen : ((r.push kind result).reported ep).donePromise = none := by
      by_contra done
      have := inv.completed ok (Option.isSome_iff_ne_none.2 done)
      simp [isCompleted, responseCount] at last this
      omega
    rw [if_pos last, resolveDone, if_neg (by simpa using isOpen)]
    simp [finished, last]
  · rw [if_neg last, finished_of_not last]
    rfl

theorem Inv.add (inv : Inv rs r) (ok : r.timedout = false) (ep : E) (kind : RequestKind) (result : QueryResult R D) :
    Inv (rs ++ [(ep, kind, result.digest)]) ((r.push kind result).reported ep).finished where
  cl := by
    have := inv.cl
    by_cases now : (r.push kind result).reports ep = true
    · have data : (r.push kind result).dataResult.isSome = true := by
        simp only [reports, Bool.and_eq_true] at now
        exact now.1.2
      rw [finished_clPromise, reported_clPromise, if_pos now, Option.isSome_map, data]
      simp [now]
    · simpa [now] using this
  armed := by
    have := inv.armed
    by_cases last : ((r.push kind result).reported ep).isCompleted = true
    · simp [last]
    · simpa [last] using this
  expired h := absurd h (by simp [ok])
  completed _ done := by
    by_cases last : ((r.push kind result).reported ep).isCompleted = true
    · exact (of_decide_eq_true last).ge
    · have before := inv.completed ok (by simpa [last] using done)
      have more : ((r.push kind result).reported ep).finished.responseCount = r.responseCount + 1 := by
        simp [responseCount]
      exact more ▸ Nat.le_succ_of_le before
  count _ := by
    have := inv.count ok
    simp only [responseCount] at this
    simp [responseCount, this]
  waiting _ waiting := by
    have before : r.clReported = false ∧ (r.push kind result).reports ep = false := by simpa using waiting
    have := inv.waiting ok before.1
    have counted : ((r.push kind result).reported ep).finished.clResponses = (r.push kind result).counted ep := by
      simp [before.1]
    rw [counted, List.countP_append, List.countP_singleton]
    exact congrArg (· + _) this
  data _ waiting := by
    have before : r.clReported = false ∧ (r.push kind result).reports ep = false := by simpa using waiting
    have := inv.data ok before.1
    rw [finished_dataResult, reported_dataResult, before.2, if_neg (by decide), isSome_dataResult_push, this]
    simp [or_and_right, exists_or]

omit [DecidableEq D] [Inhabited D] in
/-- What the timeout does where the promises are still open. -/
@[simps] def expired (r : DigestResolver R D) : DigestResolver R D :=
  { r with
    timedout := true
    timeoutArmed := false
    donePromise := some (.timeout ⟨r.responseCount, r.targetsCount, false⟩)
    clPromise := if r.clReported then r.clPromise else some (.timeout ⟨r.clResponses, r.blockFor, r.dataResult.isSome⟩)
    dataResult := none
    digestResults := [] }

omit [DecidableEq D]

omit [Inhabited D]

theorem Inv.expire_eq (inv : Inv rs r) (armed : r.timeoutArmed = true) : r.expire = .ok r.expired := by
  have isOpen : r.donePromise = none := by
    have := inv.armed
    simp_all
  have ok : r.timedout = false := by
    have := inv.expired
    simp_all
  have promise := inv.cl
  obtain ⟨cl, blockFor, targets, responses, clReported, data, digests, timedout, timeoutArmed, clPromise, done⟩ := r
  obtain rfl := isOpen
  obtain rfl := ok
  cases clReported with
  | true => rfl
  | false =>
    obtain rfl : clPromise = none := by simpa using promise
    rfl

theorem Inv.expired_inv (inv : Inv rs r) : Inv rs r.expired where
  cl := by
    have := inv.cl
    cases reported : r.clReported <;> simp_all
  armed := rfl
  expired _ := rfl
  completed h := by simp at h
  count h := by simp at h
  waiting h := by simp at h
  data h := by simp at h

theorem Inv.late (inv : Inv rs r) (late : r.timedout = true) (p : E × RequestKind × D) : Inv (rs ++ [p]) r where
  cl := inv.cl
  armed := inv.armed
  expired := inv.expired
  completed := inv.completed
  count h := by simp [late] at h
  waiting h := by simp [late] at h
  data h := by simp [late] at h

/-- One more response is waited for only while some are missing. -/
theorem Inv.addWaitTargets (inv : Inv rs r) (missing : ¬r.isCompleted = true) : Inv rs (r.addWaitTargets 1) where
  cl := inv.cl
  armed := inv.armed
  expired := inv.expired
  completed ok done := by
    have := inv.completed ok done
    simp only [isCompleted, decide_eq_true_eq] at missing
    change r.targetsCount + 1 ≤ r.responseCount
    omega
  count := inv.count
  waiting := inv.waiting
  data := inv.data

end DigestResolver

namespace Read

variable [DecidableEq D] [Inhabited D] (tr : List (ReadEvent E R D))

/-- The responses of a run. -/
def received : List (E × RequestKind × D) :=
  tr.filterMap Prod.snd

omit [DecidableEq E] [DecidableEq D] [Inhabited D] in
@[simp] theorem received_concat (op : ReadOp R D)
    (o : Option (E × RequestKind × D)) : received (tr ++ [(op, o)]) = received tr ++ o.toList := by
  cases o <;> simp [received]

/-- The requests that have been answered, or may still be. -/
def requested (s : Read E R D) : List (E × RequestKind) :=
  (received tr).map (fun p => (p.1, p.2.1)) ++ s.outstanding

omit [DecidableEq E] [DecidableEq D] [Inhabited D] in
/-- A request that is answered moves from the one part to the other. -/
theorem requested_response {tr : List (ReadEvent E R D)} {s s' : Read E R D} {i : Nat} {ep : E}
    {kind : RequestKind} {d : D} {op : ReadOp R D} (request : s.outstanding[i]? = some (ep, kind))
    (outstanding : s'.outstanding = s.outstanding.eraseIdx i) :
    (requested (tr ++ [(op, some (ep, kind, d))]) s').Perm (requested tr s) := by
  have mem : s.outstanding.Perm ((ep, kind) :: s.outstanding.eraseIdx i) := by
    obtain ⟨lt, eq⟩ := List.getElem?_eq_some_iff.1 request
    rw [← eq]
    exact (List.getElem_cons_eraseIdx_perm lt).symm
  unfold requested
  rw [received_concat, outstanding, List.map_append, List.append_assoc]
  exact List.Perm.append_left _ mem.symm

/-- What an event can do to a read. -/
inductive Move (s : Read E R D) : ReadOp R D → Read E R D → Option (E × RequestKind × D) → Prop where
  | idle (op : ReadOp R D) : Move s op s none
  | late {i : Nat} {result : QueryResult R D} {ep : E} {kind : RequestKind} (late : s.resolver.timedout = true)
      (request : s.outstanding[i]? = some (ep, kind)) :
      Move s (.respond i result) { s with outstanding := s.outstanding.eraseIdx i } (some (ep, kind, result.digest))
  | response {i : Nat} {result : QueryResult R D} {ep : E} {kind : RequestKind} (ok : s.resolver.timedout = false)
      (request : s.outstanding[i]? = some (ep, kind)) :
      Move s (.respond i result) { s with
        resolver := ((s.resolver.push kind result).reported ep).finished
        outstanding := s.outstanding.eraseIdx i } (some (ep, kind, result.digest))
  | fail (i : Nat) : Move s (.fail i) { s with outstanding := s.outstanding.eraseIdx i } none
  | spent (armed : s.speculateArmed = true) (completed : s.resolver.isCompleted = true) :
      Move s .speculate { s with speculateArmed := false } none
  | speculate (armed : s.speculateArmed = true) (missing : ¬s.resolver.isCompleted = true) (kind : RequestKind) :
      Move s .speculate (s.askLast kind) none
  | expire (armed : s.resolver.timeoutArmed = true) : Move s .timeout { s with resolver := s.resolver.expired } none
  | gotCl : Move s .gotCl { s with speculateArmed := false } none

variable {s : Read E R D} {tr : List (ReadEvent E R D)}

open DigestResolver (add_eq addWaitTargets)

/-- Every event is taken in, and no promise is resolved twice. -/
theorem step_spec (inv : s.resolver.Inv (received tr)) (op : ReadOp R D) : ∃ s' o, s.step op = .ok (s', o) ∧
    s'.resolver.Inv (received (tr ++ [(op, o)])) ∧ Move s op s' o := by
  cases op with
  | respond i result =>
    cases request : s.outstanding[i]? with
    | none => exact ⟨s, none, by simp [step, request], by simpa using inv, .idle _⟩
    | some p =>
      obtain ⟨ep, kind⟩ := p
      cases late : s.resolver.timedout with
      | true =>
        have add : s.resolver.add ep kind result = .ok s.resolver := by rw [add_eq, late, if_pos rfl]
        exact ⟨_, _, by simp [step, request, add], by simpa using inv.late late _, .late late request⟩
      | false =>
        have add := inv.add_eq late ep kind result
        exact ⟨_, _, by simp [step, request, add], by simpa using inv.add late ep kind result, .response late request⟩
  | fail i => exact ⟨_, _, rfl, by simpa using inv, .fail i⟩
  | speculate =>
    by_cases armed : s.speculateArmed = true
    · by_cases completed : s.resolver.isCompleted = true
      · refine ⟨_, none, by simp [step, armed, speculate, completed], by simpa using inv, .spent armed completed⟩
      · refine ⟨_, none, ?_, ?_, .speculate armed completed (if s.resolver.hasData then .digest else .data)⟩
        · simp [step, armed, speculate, completed]
        · simpa using inv.addWaitTargets completed
    · exact ⟨s, none, by simp [step, armed], by simpa using inv, .idle _⟩
  | timeout =>
    by_cases armed : s.resolver.timeoutArmed = true
    · exact ⟨_, none, by simp [step, armed, inv.expire_eq armed], by simpa using inv.expired_inv, .expire armed⟩
    · exact ⟨s, none, by simp [step, armed], by simpa using inv, .idle _⟩
  | gotCl =>
    by_cases resolved : s.resolver.clPromise.isSome = true
    · exact ⟨_, none, by simp [step, resolved], by simpa using inv, .gotCl⟩
    · exact ⟨s, none, by simp [step, resolved], by simpa using inv, .idle _⟩

omit [DecidableEq D] [Inhabited D] in
theorem inv_start {x : ReadExecutor E} (h : start R D x = .ok s) : s.resolver.Inv (received (E := E) (R := R) (D := D) []) := by
  obtain ⟨⟨wait, requests⟩, -, eq⟩ := bind_eq_ok.1 h
  cases eq
  exact ⟨rfl, rfl, by simp [addWaitTargets], by simp [addWaitTargets],
    by simp [addWaitTargets, DigestResolver.responseCount, received],
    by simp [addWaitTargets, received], by simp [addWaitTargets, received]⟩

/-- What holds at the start and survives every event holds after every run. -/
theorem run_invariant {x : ReadExecutor E} {s₀ : Read E R D} (h : start R D x = .ok s₀)
    (P : List (ReadEvent E R D) → Read E R D → Prop) (init : P [] s₀)
    (keep : ∀ tr s op s' o, s.resolver.Inv (received tr) → s'.resolver.Inv (received (tr ++ [(op, o)])) → P tr s →
      Move s op s' o → P (tr ++ [(op, o)]) s')
    (run : Run step (fun _ _ _ => True) s₀ tr s) : s.resolver.Inv (received tr) ∧ P tr s :=
  run.invariant (fun tr s => s.resolver.Inv (received tr) ∧ P tr s) ⟨inv_start h, init⟩ fun tr s op s' o inv _ next => by
    obtain ⟨t, o', eq, inv', move⟩ := step_spec inv.1 op
    cases next.symm.trans eq
    exact ⟨inv', keep tr s op _ _ inv.1 inv' inv.2 move⟩

end Read

end ScyllaMoon.Coordinator
