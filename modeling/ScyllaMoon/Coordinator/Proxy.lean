import ScyllaMoon.Coordinator.EachQuorum

/-!
# The coordinator

`storage_proxy` keeps the write handlers by id. An acknowledgement overwrites the commit version of its
handler and is then counted. The promise of the handler is resolved with the commit version when the
consistency level is reached, or later if writes are throttled: by `unthrottle`, or by the destructor.
-/

namespace ScyllaMoon.Coordinator

open Lib Function List

abbrev ResponseId := Nat

/-- What `_ready` was resolved with. -/
inductive Outcome where
  | value (commitVersion : UInt32)
  | timeout (acks blockFor : Nat)
  deriving DecidableEq, Repr

/-- `storage_proxy`, with the promises of all handlers it ever had. -/
structure Proxy (E DC : Type) where
  handlers : ResponseId → Option (Handler E DC) := fun _ => none
  throttledWrites : List ResponseId := []
  nextResponseId : ResponseId := 1
  ready : ResponseId → Option Outcome := fun _ => none

/-- What happens to the coordinator. `throttle` is the answer of `need_throttle_writes` when the consistency
level is reached, and `room` the number of throttled writes that it lets go on in a later `unthrottle`. -/
inductive ProxyOp (E DC : Type) where
  | create (rs : ReplicationStrategy DC) (cl : ConsistencyLevel) (targets pending : List E)
  | hint (id : ResponseId) (hints : Nat) (throttle : Bool)
  | gotResponse (id : ResponseId) (ep : E) (commitVersion : UInt32) (throttle : Bool) (room : Nat)
  | timeout (id : ResponseId) (hints : Nat) (throttle : Bool) (room : Nat)
  | unthrottle (room : Nat)

/-- An acknowledgement was counted or not, and came before or after the promise was resolved. -/
inductive ProxyAnswer where
  | created (id : ResponseId)
  | ack (counted waiting : Bool)
  | done
  deriving DecidableEq, Repr

namespace Proxy

variable {E DC : Type} (p : Proxy E DC) (id : ResponseId)

def put (h : Handler E DC) : Proxy E DC :=
  { p with handlers := update p.handlers id (some h) }

/-- `_ready.set_value` and `_ready.set_exception` -/
def resolve (o : Outcome) : Except Fault (Proxy E DC) :=
  if (p.ready id).isSome then .error .promiseSetTwice
  else .ok { p with ready := update p.ready id (some o) }

/-- `abstract_write_response_handler::unthrottle` -/
def unthrottleHandler (h : Handler E DC) : Except Fault (Proxy E DC) :=
  (p.put id { h with throttled := false }).resolve id (.value h.commitVersion)

/-- `storage_proxy::unthrottle` -/
def unthrottle (p : Proxy E DC) : Nat → Except Fault (Proxy E DC)
  | 0 => .ok p
  | room + 1 => match p.throttledWrites with
    | [] => .ok p
    | id :: rest => do
      let p := { p with throttledWrites := rest }
      let p ← match p.handlers id with
        | some h => p.unthrottleHandler id h
        | none => pure p
      p.unthrottle room

/-- What follows the counting in `signal`, for a handler that was `before` and is now `h`. -/
def signalled (before h : Handler E DC) (throttle : Bool) : Except Fault (Proxy E DC) :=
  if h.clAchieved && !before.clAchieved then
    if throttle then
      let p := p.put id { h with throttled := true }
      .ok { p with throttledWrites := p.throttledWrites ++ [id] }
    else p.unthrottleHandler id h
  else .ok (p.put id h)

/-- `storage_proxy::remove_response_handler`, with the destructor of the handler -/
def remove (id : ResponseId) (room : Nat) : Except Fault (Proxy E DC) :=
  match p.handlers id with
  | none => .ok p
  | some h =>
    let p := { p with handlers := update p.handlers id none }
    if h.clAchieved then
      if h.throttled then p.resolve id (.value h.commitVersion) else p.unthrottle room
    else if h.timedout then p.resolve id (.timeout h.clAcks h.totalBlockFor)
    else .ok p

/-- `on_timeout` -/
def onTimeout (id : ResponseId) : Proxy E DC :=
  match p.handlers id with
  | none => p
  | some h => p.put id { h with timedout := true }

/-- The callback of the expiration timer -/
def expire (id : ResponseId) (hints : Nat) (throttle : Bool) (room : Nat) : Except Fault (Proxy E DC) :=
  match p.handlers id with
  | none => .ok p
  | some h => do
    let p ← if h.clAchieved || decide (h.cl = .any) then p.signalled id h (h.signal hints) throttle else pure p
    (p.onTimeout id).remove id room

/-- `storage_proxy::hint_to_dead_endpoints(id, cl)` -/
def hintToDeadEndpoints (id : ResponseId) (hints : Nat) (throttle : Bool) : Except Fault (Proxy E DC) :=
  match p.handlers id with
  | none => .ok p
  | some h => if h.cl = .any then p.signalled id h (h.signal hints) throttle else .ok p

variable [DecidableEq E] [DecidableEq DC] [Snitch E DC]

/-- `response(from)` of the handler `h`, and the removal after the last one -/
def respond (p : Proxy E DC) (id : ResponseId) (h : Handler E DC) (ep : E) (throttle : Bool) (room : Nat) :
    Except Fault (Proxy E DC × Bool) := do
  let (h', counted) ← h.response ep
  let p ← p.signalled id h h' throttle
  let p ← if h'.targets.isEmpty then p.remove id room else pure p
  return (p, counted)

/-- `storage_proxy::got_response` -/
def gotResponse (p : Proxy E DC) (id : ResponseId) (ep : E) (commitVersion : UInt32) (throttle : Bool) (room : Nat) :
    Except Fault (Proxy E DC × ProxyAnswer) :=
  match p.handlers id with
  | none => .ok (p, .done)
  | some h => do
    let waiting := (p.ready id).isNone
    -- `set_commit_version`
    let h := { h with commitVersion }
    let (p, counted) ← (p.put id h).respond id h ep throttle room
    return (p, .ack counted waiting)

def step (p : Proxy E DC) : ProxyOp E DC → Except Fault (Proxy E DC × ProxyAnswer)
  | .create rs cl targets pending =>
    let id := p.nextResponseId
    .ok ({ p.put id (Handler.create rs cl targets pending) with nextResponseId := id + 1 }, .created id)
  | .hint id hints throttle => do return (← p.hintToDeadEndpoints id hints throttle, .done)
  | .gotResponse id ep commitVersion throttle room => p.gotResponse id ep commitVersion throttle room
  | .timeout id hints throttle room => do return (← p.expire id hints throttle room, .done)
  | .unthrottle room => do return (← p.unthrottle room, .done)

end Proxy

/-- What holds of the coordinator at all times, where `last` has the commit versions of the acknowledgements
that came last before the promises were resolved. -/
structure Proxy.Inv {E DC : Type} (last : ResponseId → UInt32) (p : Proxy E DC) : Prop where
  version : ∀ {id h}, p.handlers id = some h → p.ready id = none → h.commitVersion = last id
  value : ∀ {id u}, p.ready id = some (.value u) → u = last id
  waiting : ∀ {id h}, p.handlers id = some h → (p.ready id = none ↔ (h.clAchieved = true → h.throttled = true))
  queued : ∀ {id}, id ∈ p.throttledWrites → id < p.nextResponseId ∧
    ∀ h, p.handlers id = some h → h.clAchieved = true ∧ h.throttled = true
  nodup : p.throttledWrites.Nodup
  fresh : ∀ {id}, p.nextResponseId ≤ id → p.handlers id = none ∧ p.ready id = none ∧ last id = 0

namespace Proxy

variable {E DC : Type} {last : ResponseId → UInt32} {p : Proxy E DC} {id : ResponseId} {h before : Handler E DC}

/-- What holds of one id, by its handler, its promise and its last commit version, if it is queued or not used yet. -/
structure At (handler : Option (Handler E DC)) (ready : Option Outcome) (last : UInt32) (inQueue unused : Prop) : Prop where
  version : ∀ {h}, handler = some h → ready = none → h.commitVersion = last
  value : ∀ {u}, ready = some (.value u) → u = last
  waiting : ∀ {h}, handler = some h → (ready = none ↔ (h.clAchieved = true → h.throttled = true))
  queued : inQueue → ¬ unused ∧ ∀ h, handler = some h → h.clAchieved = true ∧ h.throttled = true
  fresh : unused → handler = none ∧ ready = none ∧ last = 0

theorem inv_iff : Inv last p ↔ p.throttledWrites.Nodup ∧ ∀ id,
    At (p.handlers id) (p.ready id) (last id) (id ∈ p.throttledWrites) (p.nextResponseId ≤ id) := by
  constructor
  · rintro ⟨version, value, waiting, queued, nodup, fresh⟩
    exact ⟨nodup, fun id => ⟨version, value, waiting, fun hq => ⟨Nat.not_le_of_lt (queued hq).1, (queued hq).2⟩, fresh⟩⟩
  · rintro ⟨nodup, all⟩
    exact ⟨(all _).version, (all _).value, (all _).waiting, fun hq => ((all _).queued hq).imp_left Nat.lt_of_not_le, nodup,
      (all _).fresh⟩

theorem at_some {ready : Option Outcome} {last : UInt32} {inQueue : Prop} {next : ResponseId} (version : ready = none → h.commitVersion = last)
    (value : ∀ {u}, ready = some (.value u) → u = last) (waiting : ready = none ↔ (h.clAchieved = true → h.throttled = true))
    (queued : inQueue → h.clAchieved = true ∧ h.throttled = true) (used : id < next) :
    At (some h) ready last inQueue (next ≤ id) where
  version := by rintro _ ⟨⟩; exact version
  value := value
  waiting := by rintro _ ⟨⟩; exact waiting
  queued hq := ⟨Nat.not_le_of_lt used, by rintro _ ⟨⟩; exact queued hq⟩
  fresh le := absurd used (Nat.not_lt_of_le le)

namespace Inv

section

variable (inv : Inv last p)
include inv

/-- Only what concerns one id changes. -/
theorem change (id : ResponseId) {p' : Proxy E DC} {last' : ResponseId → UInt32}
    (others : ∀ id', id' ≠ id → p'.handlers id' = p.handlers id' ∧ p'.ready id' = p.ready id' ∧ last' id' = last id')
    (queue : ∀ id', id' ≠ id →
      ((id' ∈ p'.throttledWrites ↔ id' ∈ p.throttledWrites) ∧ (p'.nextResponseId ≤ id' ↔ p.nextResponseId ≤ id')))
    (nodup : p'.throttledWrites.Nodup)
    (own : At (p'.handlers id) (p'.ready id) (last' id) (id ∈ p'.throttledWrites) (p'.nextResponseId ≤ id)) : Inv last' p' := by
  refine inv_iff.2 ⟨nodup, fun id' => ?_⟩
  by_cases e : id' = id
  · exact e ▸ own
  · obtain ⟨handler, ready, last⟩ := others id' e
    obtain ⟨queued, used⟩ := queue id' e
    rw [handler, ready, last, queued, used]
    exact (inv_iff.1 inv).2 id'

theorem used (found : p.handlers id = some h) : id < p.nextResponseId := by
  refine Nat.lt_of_not_le fun le => ?_
  rw [(inv.fresh le).1] at found
  cases found

/-- The handler changes, but neither its commit version nor whether it still waits. -/
theorem put (found : p.handlers id = some before) (version : h.commitVersion = before.commitVersion)
    (clAchieved : h.clAchieved = before.clAchieved) (throttled : h.throttled = before.throttled) :
    Inv last (p.put id h) := by
  refine inv.change id (fun _ ne => ⟨update_of_ne ne .., rfl, rfl⟩) (fun _ _ => ⟨.rfl, .rfl⟩) inv.nodup ?_
  dsimp only [Proxy.put]
  rw [update_self]
  refine at_some (fun hr => version.trans (inv.version found hr)) inv.value ?_ (fun hq => ?_) (inv.used found)
  · rw [clAchieved, throttled]
    exact inv.waiting found
  · rw [clAchieved, throttled]
    exact (inv.queued hq).2 before found

/-- The promise of a handler that leaves the queue is resolved with the last commit version. -/
theorem unthrottleHandler (found : p.handlers id = some before) (unresolved : p.ready id = none)
    (idle : id ∉ p.throttledWrites) (version : h.commitVersion = before.commitVersion) (clAchieved : h.clAchieved = true) :
    Safe (Inv last) (p.unthrottleHandler id h) := by
  unfold Proxy.unthrottleHandler Proxy.resolve
  rw [if_neg (by simp [Proxy.put, unresolved])]
  refine inv.change id (fun _ ne => ⟨update_of_ne ne .., update_of_ne ne .., rfl⟩) (fun _ _ => ⟨.rfl, .rfl⟩)
    inv.nodup ?_
  dsimp only [Proxy.put]
  rw [update_self, update_self]
  refine at_some nofun ?_ ⟨nofun, fun held => nomatch held clAchieved⟩ (fun hq => absurd hq idle) (inv.used found)
  rintro _ ⟨⟩
  exact version.trans (inv.version found unresolved)

/-- The rest of the queue waits on. -/
theorem pop {rest : List ResponseId} (queue : p.throttledWrites = id :: rest) :
    Inv last { p with throttledWrites := rest } ∧ id ∉ rest := by
  have nodup := inv.nodup
  rw [queue, nodup_cons] at nodup
  refine ⟨⟨inv.version, inv.value, inv.waiting, fun hq => inv.queued ?_, nodup.2, inv.fresh⟩, nodup.1⟩
  rw [queue]
  exact mem_cons_of_mem _ hq

theorem unthrottle (room : Nat) : Safe (Inv last) (p.unthrottle room) := by
  induction room generalizing p with
  | zero => exact inv
  | succ room ih =>
    unfold Proxy.unthrottle
    split
    · exact inv
    next id rest queue =>
      obtain ⟨inv', idle⟩ := inv.pop queue
      dsimp only
      cases found : p.handlers id with
      | none => exact ih inv'
      | some h =>
        obtain ⟨achieved, throttled⟩ := (inv.queued (queue ▸ mem_cons_self)).2 h found
        exact (inv'.unthrottleHandler found ((inv.waiting found).2 fun _ => throttled) idle rfl achieved).bind
          fun p' inv'' => ih inv''

/-- Counting keeps the commit version and never takes success back. -/
theorem signalled (found : p.handlers id = some before)
    (version : h.commitVersion = before.commitVersion) (throttled : h.throttled = before.throttled)
    (grows : before.clAchieved = true → h.clAchieved = true) (throttle : Bool) :
    Safe (Inv last) (p.signalled id before h throttle) := by
  unfold Proxy.signalled
  by_cases reached : h.clAchieved = true ∧ before.clAchieved = false
  · rw [if_pos (by simp [reached])]
    have unresolved : p.ready id = none := (inv.waiting found).2 fun e => by simp [reached.2] at e
    have idle : id ∉ p.throttledWrites := fun hq => by
      have := ((inv.queued hq).2 before found).1
      simp [reached.2] at this
    cases throttle with
    | false => exact inv.unthrottleHandler found unresolved idle version reached.1
    | true =>
      refine inv.change id (fun _ ne => ⟨update_of_ne ne .., rfl, rfl⟩)
        (fun id' ne => ⟨by simp [Proxy.put, ne], .rfl⟩) ?_ ?_
      · refine nodup_append.2 ⟨inv.nodup, nodup_singleton _, fun a ha b hb e => ?_⟩
        cases mem_singleton.1 hb
        exact idle (e ▸ ha)
      · dsimp only [Proxy.put]
        rw [update_self]
        exact at_some (fun hr => version.trans (inv.version found hr)) inv.value ⟨fun _ _ => rfl, fun _ => unresolved⟩
          (fun _ => ⟨reached.1, rfl⟩) (inv.used found)
  · rw [if_neg (by simpa using reached)]
    refine inv.put found version ?_ throttled
    cases hb : before.clAchieved with
    | true => exact grows hb
    | false => simpa [hb] using reached

/-- The promise of a handler that is gone is resolved. -/
theorem resolve (gone : p.handlers id = none) (unresolved : p.ready id = none)
    (used : id < p.nextResponseId) {o : Outcome} (value : ∀ u, o = .value u → u = last id) :
    Safe (Inv last) (p.resolve id o) := by
  unfold Proxy.resolve
  rw [if_neg (by simp [unresolved])]
  refine inv.change id (fun _ ne => ⟨rfl, update_of_ne ne .., rfl⟩) (fun _ _ => ⟨.rfl, .rfl⟩) inv.nodup ?_
  dsimp only
  rw [update_self, gone]
  exact ⟨nofun, fun hr => value _ (Option.some.inj hr), nofun, fun _ => ⟨Nat.not_le_of_lt used, nofun⟩,
    fun le => absurd used (Nat.not_lt_of_le le)⟩

theorem erase (id : ResponseId) : Inv last { p with handlers := update p.handlers id none } := by
  refine inv.change id (fun _ ne => ⟨update_of_ne ne .., rfl, rfl⟩) (fun _ _ => ⟨.rfl, .rfl⟩) inv.nodup ?_
  dsimp only
  rw [update_self]
  exact ⟨nofun, inv.value, nofun, fun hq => ⟨Nat.not_le_of_lt (inv.queued hq).1, nofun⟩, fun le => ⟨rfl, (inv.fresh le).2⟩⟩

theorem remove (id : ResponseId) (room : Nat) : Safe (Inv last) (p.remove id room) := by
  unfold Proxy.remove
  split
  · exact inv
  next h found =>
    have inv' := inv.erase id
    have gone : update p.handlers id none id = none := update_self ..
    split_ifs with achieved throttled timedout
    · have unresolved := (inv.waiting found).2 fun _ => throttled
      refine inv'.resolve gone unresolved (inv.used found) fun u hu => ?_
      cases hu
      exact inv.version found unresolved
    · exact inv'.unthrottle room
    · have unresolved := (inv.waiting found).2 fun e => absurd e achieved
      exact inv'.resolve gone unresolved (inv.used found) fun u hu => nomatch hu
    · exact inv'

theorem onTimeout (id : ResponseId) : Inv last (p.onTimeout id) := by
  unfold Proxy.onTimeout
  split
  · exact inv
  next h found =>
    exact inv.put found rfl rfl rfl

theorem signal (found : p.handlers id = some h) (nr : Nat) (throttle : Bool) :
    Safe (Inv last) (p.signalled id h (h.signal nr) throttle) :=
  inv.signalled (h := h.signal nr) found rfl rfl (fun e => by simp [Handler.signal, e]) throttle

theorem hintToDeadEndpoints (id : ResponseId) (hints : Nat) (throttle : Bool) :
    Safe (Inv last) (p.hintToDeadEndpoints id hints throttle) := by
  unfold Proxy.hintToDeadEndpoints
  split
  · exact inv
  next h found =>
    split
    · exact inv.signal found hints throttle
    · exact inv

theorem expire (id : ResponseId) (hints : Nat) (throttle : Bool) (room : Nat) :
    Safe (Inv last) (p.expire id hints throttle room) := by
  unfold Proxy.expire
  split
  · exact inv
  next h found =>
    split
    · exact (inv.signal found hints throttle).bind fun p' inv' => (inv'.onTimeout id).remove id room
    · exact (inv.onTimeout id).remove id room

/-- An acknowledgement that arrives while the promise waits sets the last commit version. -/
theorem setCommitVersion (found : p.handlers id = some h) (v : UInt32) :
    Inv (if (p.ready id).isNone then update last id v else last) (p.put id { h with commitVersion := v }) := by
  refine inv.change id (fun id' ne => ⟨update_of_ne ne .., rfl, ?_⟩) (fun _ _ => ⟨.rfl, .rfl⟩) inv.nodup ?_
  · split
    · exact update_of_ne ne ..
    · rfl
  · dsimp only [Proxy.put]
    rw [update_self]
    have waiting := inv.waiting found
    refine at_some (fun hr => ?_) (fun {u} hr => ?_) waiting (fun hq => (inv.queued hq).2 h found) (inv.used found)
    · simp [hr]
    · rw [hr]
      exact inv.value hr

end

end Inv

variable [DecidableEq E] [DecidableEq DC] [Snitch E DC]

/-- The commit version of the acknowledgement in an event, if it is one for `id` that came while the promise
waited. -/
def waitingVersion (id : ResponseId) : ProxyOp E DC × ProxyAnswer → Option UInt32
  | (.gotResponse id' _ v _ _, .ack _ true) => if id' = id then some v else none
  | _ => none

variable (tr : List (ProxyOp E DC × ProxyAnswer))

/-- The commit version of the acknowledgement for `id` that came last before the promise was resolved. -/
def lastVersion (id : ResponseId) : UInt32 :=
  (tr.filterMap (waitingVersion id)).getLast?.getD 0

omit [DecidableEq E] [DecidableEq DC] [Snitch E DC] in
theorem lastVersion_concat (e : ProxyOp E DC × ProxyAnswer) (id : ResponseId) :
    lastVersion (tr ++ [e]) id = (waitingVersion id e).getD (lastVersion tr id) := by
  unfold lastVersion
  cases he : waitingVersion id e <;> simp [he]

variable {tr : List (ProxyOp E DC × ProxyAnswer)} {op : ProxyOp E DC} {o : ProxyAnswer}

section

omit [DecidableEq E] [DecidableEq DC] [Snitch E DC]

theorem lastVersion_other (other : ∀ counted, o ≠ .ack counted true) :
    lastVersion (tr ++ [(op, o)]) = lastVersion tr := by
  funext id
  rw [lastVersion_concat]
  unfold waitingVersion
  split
  next h =>
    cases h
    exact absurd rfl (other _)
  · rfl

/-- An event that is no such acknowledgement leaves the last commit versions as they are. -/
theorem Inv.quiet (inv : Inv (lastVersion tr) p) (other : ∀ counted, o ≠ .ack counted true) :
    Inv (lastVersion (tr ++ [(op, o)])) p := by
  rw [lastVersion_other other]
  exact inv

end

theorem Inv.respond (inv : Inv last p) (found : p.handlers id = some h) (ep : E) (throttle : Bool) (room : Nat) :
    Safe (fun r => Inv last r.1) (p.respond id h ep throttle room) := by
  refine (h.response_spec ep).bind ?_
  rintro ⟨h', counted⟩ ⟨version, throttled, grows, -⟩
  refine (inv.signalled found version throttled grows throttle).bind fun p' inv' => ?_
  split
  · exact (inv'.remove id room).bind fun _ inv'' => inv''
  · exact inv'

theorem Inv.gotResponse (inv : Inv (lastVersion tr) p) (id : ResponseId) (ep : E) (v : UInt32) (throttle : Bool)
    (room : Nat) :
    Safe (fun r => Inv (lastVersion (tr ++ [(.gotResponse id ep v throttle room, r.2)])) r.1)
      (p.gotResponse id ep v throttle room) := by
  unfold Proxy.gotResponse
  split
  · exact inv.quiet fun _ => ProxyAnswer.noConfusion
  next h found =>
    have set := inv.setCommitVersion found v
    have found' : (p.put id { h with commitVersion := v }).handlers id = some { h with commitVersion := v } :=
      update_self ..
    refine (set.respond found' ep throttle room).bind fun r inv' => ?_
    have last : lastVersion (tr ++ [(.gotResponse id ep v throttle room, .ack r.2 (p.ready id).isNone)]) =
        if (p.ready id).isNone then update (lastVersion tr) id v else lastVersion tr := by
      cases unresolved : (p.ready id).isNone with
      | false => exact lastVersion_other fun counted eq => by cases eq
      | true =>
        funext id'
        rw [lastVersion_concat]
        by_cases e : id = id'
        · subst e
          simp [waitingVersion]
        · simp [waitingVersion, e, update_of_ne (Ne.symm e)]
    change Inv (lastVersion _) r.1
    rw [last]
    exact inv'

omit [DecidableEq E] in
/-- A new handler waits under a new id. -/
theorem Inv.create (inv : Inv last p) (rs : ReplicationStrategy DC) (cl : ConsistencyLevel) (targets pending : List E) :
    Inv last { p.put p.nextResponseId (Handler.create rs cl targets pending) with
      nextResponseId := p.nextResponseId + 1 } := by
  obtain ⟨-, unresolved, zero⟩ := inv.fresh (Nat.le_refl _)
  refine inv.change p.nextResponseId (fun _ ne => ⟨update_of_ne ne .., rfl, rfl⟩)
    (fun id' ne => ⟨.rfl, Nat.succ_le_iff.trans ⟨Nat.le_of_lt, (Nat.lt_of_le_of_ne · ne.symm)⟩⟩) inv.nodup ?_
  dsimp only [Proxy.put]
  rw [update_self]
  refine at_some (fun _ => (Handler.commitVersion_create ..).trans zero.symm) inv.value ?_
    (fun hq => absurd (inv.queued hq).1 (Nat.lt_irrefl _)) (Nat.lt_succ_self _)
  rw [Handler.clAchieved_create]
  exact ⟨fun _ => nofun, fun _ => unresolved⟩

/-- Every request leaves the coordinator in order, and no promise is ever resolved twice. -/
theorem Inv.step (inv : Inv (lastVersion tr) p) (op : ProxyOp E DC) :
    Safe (fun r => Inv (lastVersion (tr ++ [(op, r.2)])) r.1) (p.step op) := by
  have done : ∀ {p'}, Inv (lastVersion tr) p' → Inv (lastVersion (tr ++ [(op, .done)])) p' := fun inv' =>
    inv'.quiet fun _ => ProxyAnswer.noConfusion
  cases op with
  | create rs cl targets pending => exact (inv.create rs cl targets pending).quiet fun _ => ProxyAnswer.noConfusion
  | hint id hints throttle => exact (inv.hintToDeadEndpoints id hints throttle).bind fun _ inv' => done inv'
  | gotResponse id ep v throttle room => exact inv.gotResponse id ep v throttle room
  | timeout id hints throttle room => exact (inv.expire id hints throttle room).bind fun _ inv' => done inv'
  | unthrottle room => exact (inv.unthrottle room).bind fun _ inv' => done inv'

omit [DecidableEq E] [DecidableEq DC] [Snitch E DC] in
theorem inv_init : Inv (lastVersion ([] : List (ProxyOp E DC × ProxyAnswer))) ({} : Proxy E DC) where
  version := nofun
  value := nofun
  waiting := nofun
  queued := nofun
  nodup := .nil
  fresh _ := ⟨rfl, rfl, rfl⟩

variable {p : Proxy E DC}

theorem run_inv (run : Run Proxy.step (fun _ _ _ => True) {} tr p) : Inv (lastVersion tr) p :=
  run.invariant (fun tr p => Inv (lastVersion tr) p) inv_init fun _ _ _ _ _ inv _ next => (inv.step _).of_ok next

end Proxy

/-- A promise resolved with a commit version covers the counted acknowledgements exactly when the one that
came last before it was resolved, counted or not, does. -/
theorem commit_version_covers_iff {E DC : Type} [DecidableEq E] [DecidableEq DC] [Snitch E DC]
    {tr : List (ProxyOp E DC × ProxyAnswer)} {p : Proxy E DC} (run : Run Proxy.step (fun _ _ _ => True) {} tr p)
    {id : ResponseId} {u : UInt32} (resolved : p.ready id = some (.value u)) :
    (∀ ep v throttle room, (.gotResponse id ep v throttle room, .ack true true) ∈ tr → v ≤ u) ↔
      ∀ ep v throttle room, (.gotResponse id ep v throttle room, .ack true true) ∈ tr → v ≤ Proxy.lastVersion tr id := by
  rw [(Proxy.run_inv run).value resolved]

theorem commit_version_covers_two :
    ∃ tr p, Run Proxy.step (fun _ _ _ => True) ({} : Proxy Nat Nat) tr p ∧ p.ready 1 = some (.value 5) ∧
      ∀ ep v throttle room, (.gotResponse 1 ep v throttle room, .ack true true) ∈ tr → v ≤ 5 := by
  have run : Run Proxy.step (fun _ _ _ => True) {} _ _ :=
    .snoc (.snoc (.snoc .init (i := .create (.other 2) .two [0, 1] []) trivial rfl)
      (i := .gotResponse 1 0 3 false 0) trivial rfl) (i := .gotResponse 1 1 5 false 0) trivial rfl
  refine ⟨_, _, run, rfl, (commit_version_covers_iff run rfl).2 fun ep v throttle room acked => ?_⟩
  simp only [nil_append, cons_append, mem_cons, not_mem_nil, or_false, Prod.mk.injEq,
    ProxyOp.gotResponse.injEq, reduceCtorEq, false_and, false_or] at acked
  rcases acked with ⟨⟨-, -, rfl, -⟩, -⟩ | ⟨⟨-, -, rfl, -⟩, -⟩ <;> decide

/-- Replicas report the commit versions 5 and 3, in this order: the client is told 3. -/
theorem commit_version_lost :
    ∃ tr p, Run Proxy.step (fun _ _ _ => True) ({} : Proxy Nat Nat) tr p ∧ p.ready 1 = some (.value 3) ∧
      (.gotResponse 1 0 5 false 0, .ack true true) ∈ tr := by
  have run : Run Proxy.step (fun _ _ _ => True) {} _ _ :=
    .snoc (.snoc (.snoc .init (i := .create (.other 2) .two [0, 1] []) trivial rfl)
      (i := .gotResponse 1 0 5 false 0) trivial rfl) (i := .gotResponse 1 1 3 false 0) trivial rfl
  exact ⟨_, _, run, rfl, mem_append_left _ (mem_append_right _ mem_cons_self)⟩

end ScyllaMoon.Coordinator
