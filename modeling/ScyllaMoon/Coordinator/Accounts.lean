import ScyllaMoon.Coordinator.Proxy

/-!
# The statistics of the coordinator

Each write handler is counted while it exists, and its mutation while the write goes on in the background.
Whether writes are throttled is read off these counters. A message in flight may keep a handler alive after
it was removed from the map; its destructor runs when the last of them is done.
-/

namespace ScyllaMoon.Coordinator

open Lib Function Handler Option Finset

/-- `storage_proxy::stats`, as far as the write handlers change or read it -/
structure Stats where
  writes : UInt64 := 0
  backgroundWrites : UInt64 := 0
  backgroundWriteBytes : UInt64 := 0
  queuedWriteBytes : UInt64 := 0
  throttledWrites : UInt64 := 0
  deriving DecidableEq, Repr

/-- `storage_proxy` with its statistics. `detached` has the handlers that were removed from the map while
somebody still refers to them, and `destroyed` what the others were when their destructors ran. -/
structure StorageProxy (E DC : Type) extends Proxy E DC where
  totalMemory : UInt64
  stats : Stats
  size : ResponseId → UInt64 := fun _ => 0
  detached : ResponseId → Option (Handler E DC) := fun _ => none
  destroyed : ResponseId → Option (Handler E DC) := fun _ => none

/-- What happens to the coordinator. `shared` says that a message in flight still refers to the handler. -/
inductive StorageProxyOp (E DC : Type) where
  | create (rs : ReplicationStrategy DC) (cl : ConsistencyLevel) (targets pending : List E) (size : UInt64)
  | hint (id : ResponseId) (hints : Nat)
  | gotResponse (id : ResponseId) (ep : E) (commitVersion : UInt32) (shared : Bool)
  | timeout (id : ResponseId) (hints : Nat) (shared : Bool)
  | remove (id : ResponseId) (shared : Bool)
  | release (id : ResponseId)
  | send (bytes : UInt64)
  | sent (bytes : UInt64)
  | unthrottle

/-- The handler that an event is about -/
def StorageProxyOp.id? {E DC : Type} : StorageProxyOp E DC → Option ResponseId
  | .hint id _ | .gotResponse id _ _ _ | .timeout id _ _ => some id
  | _ => none

/-- The numbers that an event called `signal` with, and whether it called `on_timeout` -/
structure StorageProxyAnswer where
  acks : List Nat
  expired : Bool
  deriving DecidableEq, Repr

def StorageProxyAnswer.none : StorageProxyAnswer where
  acks := []
  expired := false

namespace StorageProxy

variable {E DC : Type} (s : StorageProxy E DC)

/-- `need_throttle_writes` -/
def needThrottleWrites : Bool :=
  decide (s.totalMemory / 10 < s.stats.backgroundWriteBytes) || decide (6 * 1024 * 1024 < s.stats.queuedWriteBytes)

variable (id : ResponseId) (h : Handler E DC)

def put : StorageProxy E DC :=
  { s with toProxy := s.toProxy.put id h }

/-- `_ready.set_value` and `_ready.set_exception` -/
def resolve (o : Outcome) : Except Fault (StorageProxy E DC) := do
  let p ← s.toProxy.resolve id o
  return { s with toProxy := p }

/-- `abstract_write_response_handler::unthrottle` -/
def unthrottleHandler : Except Fault (StorageProxy E DC) :=
  let stats := { s.stats with
    backgroundWrites := s.stats.backgroundWrites + 1
    backgroundWriteBytes := s.stats.backgroundWriteBytes + s.size id }
  ({ s with stats }.put id { h with throttled := false }).resolve id (.value h.commitVersion)

/-- The loop of `storage_proxy::unthrottle`, at most `fuel` times -/
def unthrottleLoop (s : StorageProxy E DC) : Nat → Except Fault (StorageProxy E DC)
  | 0 => .ok s
  | fuel + 1 => if s.needThrottleWrites then .ok s else match s.throttledWrites with
    | [] => .ok s
    | id :: rest => do
      let s := { s with throttledWrites := rest }
      let s ← match s.handlers id with
        | some h => s.unthrottleHandler id h
        | none => pure s
      s.unthrottleLoop fuel

/-- `storage_proxy::unthrottle`: each iteration takes one id from the queue. -/
def unthrottle : Except Fault (StorageProxy E DC) :=
  s.unthrottleLoop s.throttledWrites.length

/-- What follows the counting in `signal`, for a handler that was `before` and is now `h`. -/
def signalled (before h : Handler E DC) : Except Fault (StorageProxy E DC) :=
  if h.clAchieved && !before.clAchieved then
    if s.needThrottleWrites then
      let s := s.put id { h with throttled := true }
      .ok { s with
        throttledWrites := s.throttledWrites ++ [id]
        stats := { s.stats with throttledWrites := s.stats.throttledWrites + 1 } }
    else s.unthrottleHandler id h
  else .ok (s.put id h)

/-- The destructor of the handler `h` -/
def destroy : Except Fault (StorageProxy E DC) :=
  let s := { s with
    destroyed := update s.destroyed id (some h)
    stats := { s.stats with writes := s.stats.writes - 1 } }
  if h.clAchieved then
    if h.throttled then s.resolve id (.value h.commitVersion)
    else
      let stats := { s.stats with
        backgroundWrites := s.stats.backgroundWrites - 1
        backgroundWriteBytes := s.stats.backgroundWriteBytes - s.size id }
      { s with stats }.unthrottle
  else if h.timedout then s.resolve id (.timeout h.clAcks h.totalBlockFor)
  else .ok s

/-- The last reference to a handler that is not in the map any more is dropped. -/
def release : Except Fault (StorageProxy E DC) :=
  match s.detached id with
  | none => .ok s
  | some h => { s with detached := update s.detached id none }.destroy id h

/-- `remove_response_handler` drops the reference that the map has. -/
def remove (shared : Bool) : Except Fault (StorageProxy E DC) :=
  match s.handlers id with
  | none => .ok s
  | some h =>
    let s := { s with
      handlers := update s.handlers id none
      detached := update s.detached id (some h) }
    if shared then .ok s else s.release id

/-- `on_timeout` -/
def onTimeout : StorageProxy E DC :=
  { s with toProxy := s.toProxy.onTimeout id }

/-- The callback of the expiration timer -/
def expire (hints : Nat) (shared : Bool) : Except Fault (StorageProxy E DC × StorageProxyAnswer) :=
  match s.handlers id with
  | none => .ok (s, .none)
  | some h => do
    let signals := h.clAchieved || decide (h.cl = .any)
    let s ← if signals then s.signalled id h (h.signal hints) else pure s
    let s ← (s.onTimeout id).remove id shared
    return (s, ⟨if signals then [hints] else [], true⟩)

/-- `storage_proxy::hint_to_dead_endpoints(id, cl)` -/
def hintToDeadEndpoints (hints : Nat) : Except Fault (StorageProxy E DC × StorageProxyAnswer) :=
  match s.handlers id with
  | none => .ok (s, .none)
  | some h => if h.cl = .any then do return (← s.signalled id h (h.signal hints), ⟨[hints], false⟩) else .ok (s, .none)

variable [DecidableEq E] [DecidableEq DC] [Snitch E DC]

/-- `storage_proxy::got_response` -/
def gotResponse (s : StorageProxy E DC) (id : ResponseId) (ep : E) (commitVersion : UInt32) (shared : Bool) :
    Except Fault (StorageProxy E DC × StorageProxyAnswer) :=
  match s.handlers id with
  | none => .ok (s, .none)
  | some h => do
    -- `set_commit_version`
    let h := { h with commitVersion }
    let (h', counted) ← h.response ep
    let s ← (s.put id h).signalled id h h'
    let s ← if h'.targets.isEmpty then s.remove id shared else pure s
    return (s, ⟨if counted then [1] else [], false⟩)

/-- The constructor of a handler, and `register_response_handler` -/
def create (s : StorageProxy E DC) (rs : ReplicationStrategy DC) (cl : ConsistencyLevel) (targets pending : List E)
    (size : UInt64) : StorageProxy E DC :=
  let id := s.nextResponseId
  { s.put id (Handler.create rs cl targets pending) with
    nextResponseId := id + 1
    size := update s.size id size
    stats := { s.stats with writes := s.stats.writes + 1 } }

def step (s : StorageProxy E DC) : StorageProxyOp E DC → Except Fault (StorageProxy E DC × StorageProxyAnswer)
  | .create rs cl targets pending size => .ok (s.create rs cl targets pending size, .none)
  | .hint id hints => s.hintToDeadEndpoints id hints
  | .gotResponse id ep commitVersion shared => s.gotResponse id ep commitVersion shared
  | .timeout id hints shared => s.expire id hints shared
  | .remove id shared => do return (← s.remove id shared, .none)
  | .release id => do return (← s.release id, .none)
  | .send bytes =>
    .ok ({ s with stats := { s.stats with queuedWriteBytes := s.stats.queuedWriteBytes + bytes } }, .none)
  | .sent bytes => do
    let stats := { s.stats with queuedWriteBytes := s.stats.queuedWriteBytes - bytes }
    return (← { s with stats }.unthrottle, .none)
  | .unthrottle => do return (← s.unthrottle, .none)

end StorageProxy

/-- The counters that have to balance: handlers, and mutations in the background with their bytes. -/
def Stats.balance (stats : Stats) : UInt64 × UInt64 × UInt64 :=
  (stats.writes, stats.backgroundWrites, stats.backgroundWriteBytes)

/-- What a handler adds to the counters as long as it exists. -/
def Handler.owed {E DC : Type} (h : Handler E DC) (size : UInt64) : UInt64 × UInt64 × UInt64 :=
  if h.clAchieved && !h.throttled then (1, 1, size) else (1, 0, 0)

variable {E DC : Type}

theorem Handler.owed_congr {h h' : Handler E DC} (clAchieved : h.clAchieved = h'.clAchieved)
    (throttled : h.throttled = h'.throttled) (size : UInt64) : h.owed size = h'.owed size := by
  rw [owed, owed, clAchieved, throttled]

theorem Handler.owed_waiting {h : Handler E DC} (waits : h.clAchieved = true → h.throttled = true)
    (size : UInt64) : h.owed size = (1, 0, 0) :=
  if_neg (by simpa using waits)

theorem Handler.owed_background {h : Handler E DC} (achieved : h.clAchieved = true)
    (free : h.throttled = false) (size : UInt64) : h.owed size = (1, 1, size) :=
  if_pos (by simp [achieved, free])

/-- A sum changes by what one of its terms does. -/
theorem sum_range_eq_add {M : Type} [AddCommGroup M] {f g : ℕ → M} {n i : ℕ} (lt : i < n)
    (others : ∀ j, j ≠ i → g j = f j) :
    ∑ j ∈ range n, g j = (∑ j ∈ range n, f j) + (g i - f i) := by
  have term : ∀ j, g j = f j + (Pi.single i (g i - f i) : ℕ → M) j := by
    intro j
    by_cases e : j = i
    · subst e
      simp
    · simp [others j e, e]
  rw [sum_congr rfl fun j _ => term j, sum_add_distrib, sum_pi_single',
    if_pos (mem_range.2 lt)]

namespace StorageProxy

variable {E DC : Type}

/-- The handler with this id, in the map or kept alive by a message in flight. -/
def alive (s : StorageProxy E DC) (id : ResponseId) : Option (Handler E DC) :=
  (s.handlers id).or (s.detached id)

def owed (s : StorageProxy E DC) (id : ResponseId) : UInt64 × UInt64 × UInt64 :=
  match s.alive id with
  | some h => h.owed (s.size id)
  | none => 0

/-- The books of the coordinator: what its counters show is what they showed at first and what the handlers
that exist add to it. -/
def Balanced (init : Stats) (s : StorageProxy E DC) : Prop :=
  s.stats.balance = init.balance + ∑ id ∈ range s.nextResponseId, s.owed id

/-- What a run says of each handler: the commit version that came last before its promise was resolved, the
acknowledgements it was signalled, and whether it timed out. -/
structure Ledger where
  last : ResponseId → UInt32
  acks : ResponseId → List Nat
  late : ResponseId → Bool

namespace Ledger

/-- The ledgers agree on all handlers but one. -/
def SameBut (id : ResponseId) (l l' : Ledger) : Prop := ∀ id', id' ≠ id →
  l'.last id' = l.last id' ∧ l'.acks id' = l.acks id' ∧ l'.late id' = l.late id'

variable (l : Ledger)

def signal (id : ResponseId) (acks : List Nat) : Ledger :=
  { l with acks := update l.acks id (l.acks id ++ acks) }

def expire (id : ResponseId) : Ledger := { l with late := update l.late id true }

theorem sameBut_signal (id : ResponseId) (acks : List Nat) : SameBut id l (l.signal id acks) :=
  fun _ ne => ⟨rfl, update_of_ne ne .., rfl⟩

@[simp]
theorem acks_signal (id : ResponseId) (acks : List Nat) : (l.signal id acks).acks id = l.acks id ++ acks :=
  update_self ..

theorem signal_nil (id : ResponseId) : l.signal id [] = l := by
  rw [signal, List.append_nil, update_eq_self]

end Ledger

/-- The promise of a handler that does not exist any more. -/
structure Settled (h : Handler E DC) (ready : Option Outcome) : Prop where
  answered : ready.isSome = true ↔ h.clAchieved = true ∨ h.timedout = true
  value : (∃ v, ready = some (.value v)) ↔ h.clAchieved = true

/-- What holds of one id, by what is kept under it. -/
structure At (id next : ResponseId) (handler detached destroyed : Option (Handler E DC)) (ready : Option Outcome)
    (last : UInt32) (acks : List Nat) (late : Bool) : Prop where
  value : ∀ {h o}, handler.or detached = some h → ready = some o → ∃ v, o = .value v
  apart : ∀ {h}, detached = some h → handler = none ∧ id < next
  waiting : ∀ {h}, detached = some h → (ready = none ↔ (h.clAchieved = true → h.throttled = true))
  version : ∀ {h}, detached = some h → ready = none → h.commitVersion = last
  tally : ∀ {h}, (handler.or detached).or destroyed = some h → h.Tally acks late
  unused : next ≤ id → acks = [] ∧ late = false
  gone : ∀ {h}, destroyed = some h → handler.or detached = none ∧ id < next
  settled : ∀ {h}, destroyed = some h → Settled h ready
  known : 1 ≤ id → id < next → (handler.or detached).isSome ∨ destroyed.isSome

/-- What holds of the coordinator at all times, with the statistics it started with. -/
structure Inv (l : Ledger) (init : Stats) (s : StorageProxy E DC) : Prop where
  proxy : Proxy.Inv l.last s.toProxy
  balanced : Balanced init s
  ids : ∀ id, At id s.nextResponseId (s.handlers id) (s.detached id) (s.destroyed id) (s.ready id) (l.last id) (l.acks id)
    (l.late id)

variable {s s' : StorageProxy E DC} {id : ResponseId} {h before : Handler E DC} {l l' : Ledger} {init : Stats}

theorem alive_of_handlers (found : s.handlers id = some h) : s.alive id = some h := by
  simp [alive, found]

theorem alive_of_detached (found : s.detached id = some h) (absent : s.handlers id = none) : s.alive id = some h := by
  simp [alive, found, absent]

theorem owed_of_alive (found : s.alive id = some h) : s.owed id = h.owed (s.size id) := by
  rw [owed, found]

theorem owed_of_gone (gone : s.alive id = none) : s.owed id = 0 := by
  rw [owed, gone]

/-- While a handler is in the map, it is neither detached nor destroyed. -/
theorem at_some_iff {next : ResponseId} {detached destroyed : Option (Handler E DC)} {ready : Option Outcome} {v : UInt32}
    {acks : List Nat} {late : Bool} (used : id < next) : At id next (some h) detached destroyed ready v acks late ↔
      detached = none ∧ destroyed = none ∧ (∀ o, ready = some o → ∃ v, o = .value v) ∧ h.Tally acks late := by
  constructor
  · intro ids
    refine ⟨eq_none_iff_forall_ne_some.2 fun _ kept => ?_, eq_none_iff_forall_ne_some.2 fun _ done => ?_,
      fun o => ids.value some_or, ids.tally rfl⟩
    · cases (ids.apart kept).1
    · cases (ids.gone done).1
  · rintro ⟨rfl, rfl, value, tally⟩
    refine ⟨fun _ => value _, nofun, nofun, nofun, ?_, fun le => absurd used (Nat.not_lt_of_le le), nofun, nofun,
      fun _ _ => .inl rfl⟩
    rintro _ ⟨⟩
    exact tally

/-- The books stay balanced when the counters move by what one handler does. -/
theorem Balanced.move (balanced : Balanced init s) (used : id < s.nextResponseId)
    (next : s'.nextResponseId = s.nextResponseId) (others : ∀ id', id' ≠ id → s'.owed id' = s.owed id')
    (moved : s'.stats.balance = s.stats.balance + (s'.owed id - s.owed id)) : Balanced init s' := by
  unfold Balanced at balanced ⊢
  rw [next, sum_range_eq_add used others, moved, balanced, add_assoc]

/-- The handler in the map changes, and with it its promise and the counters. -/
theorem Inv.change (inv : Inv l init s) (found : s.handlers id = some before)
    (proxy : Proxy.Inv l'.last s'.toProxy) (same : l.SameBut id l') (tally : h.Tally (l'.acks id) (l'.late id))
    (handlers : s'.handlers = update s.handlers id (some h))
    (ready : ∀ id', id' ≠ id → s'.ready id' = s.ready id') (value : ∀ o, s'.ready id = some o → ∃ v, o = .value v)
    (detached : s'.detached = s.detached) (destroyed : s'.destroyed = s.destroyed) (size : s'.size = s.size)
    (next : s'.nextResponseId = s.nextResponseId)
    (moved : s'.stats.balance = s.stats.balance + (h.owed (s.size id) - before.owed (s.size id))) :
    Inv l' init s' := by
  have used := inv.proxy.used found
  have others : ∀ {id'}, id' ≠ id → s'.alive id' = s.alive id' := fun ne => by
    rw [alive, alive, handlers, detached, update_of_ne ne]
  have own : s'.alive id = some h := by
    rw [alive, handlers, update_self, some_or]
  refine ⟨proxy, ?_, fun id' => ?_⟩
  · refine inv.balanced.move used next (fun id' ne => ?_) ?_
    · rw [owed, owed, others ne, size]
    · rw [moved, owed_of_alive own, owed_of_alive (alive_of_handlers found), size]
  · have old := inv.ids id'
    rw [handlers, detached, destroyed, next]
    by_cases e : id' = id
    · subst e
      rw [found, at_some_iff used] at old
      rw [update_self, at_some_iff used]
      exact ⟨old.1, old.2.1, value, tally⟩
    · obtain ⟨last, acks, late⟩ := same id' e
      rw [update_of_ne e, ready id' e, last, acks, late]
      exact old

/-- The handler changes, but neither its commit version nor whether it still waits. -/
theorem Inv.put (inv : Inv l init s) (found : s.handlers id = some before)
    (version : h.commitVersion = before.commitVersion) (clAchieved : h.clAchieved = before.clAchieved)
    (throttled : h.throttled = before.throttled) (last : l'.last = l.last) (same : l.SameBut id l')
    (tally : h.Tally (l'.acks id) (l'.late id)) : Inv l' init (s.put id h) := by
  refine inv.change found (last ▸ inv.proxy.put found version clAchieved throttled) same tally rfl (fun _ _ => rfl)
    (fun _ => (inv.ids _).value (alive_of_handlers found)) rfl rfl rfl rfl ?_
  rw [owed_congr clAchieved throttled, sub_self, add_zero]
  rfl

theorem resolve_of_none (unresolved : s.ready id = none) (o : Outcome) :
    s.resolve id o = .ok { s with ready := update s.ready id (some o) } := by
  simp [StorageProxy.resolve, Proxy.resolve, unresolved]

section

variable (inv : Inv l init s) {acks : List Nat}
include inv

/-- A handler in the map counts what was signalled. -/
theorem Inv.tally_of_handlers (found : s.handlers id = some h) : h.Tally (l.acks id) (l.late id) :=
  (inv.ids _).tally (by rw [found]; rfl)

/-- The handler stays in the map. -/
theorem Inv.unthrottleHandler (found : s.handlers id = some before)
    (unresolved : s.ready id = none) (idle : id ∉ s.throttledWrites)
    (version : h.commitVersion = before.commitVersion) (clAchieved : h.clAchieved = true)
    (tally : h.Tally (l.acks id ++ acks) (l.late id)) :
    Safe (fun s' => Inv (l.signal id acks) init s' ∧ (s'.handlers id).isSome) (s.unthrottleHandler id h) := by
  have proxy := inv.proxy.unthrottleHandler found unresolved idle version clAchieved
  unfold Proxy.unthrottleHandler Proxy.resolve at proxy
  rw [if_neg (by simp [Proxy.put, unresolved])] at proxy
  unfold StorageProxy.unthrottleHandler
  rw [resolve_of_none (by exact unresolved)]
  have waits := (inv.proxy.waiting found).1 unresolved
  have tally : Handler.Tally { h with throttled := false } ((l.signal id acks).acks id) (l.late id) := by
    rw [Ledger.acks_signal]
    exact ⟨tally.count, tally.achieved, tally.timedout⟩
  refine ⟨inv.change found proxy (l.sameBut_signal id acks) tally rfl
    (fun id' ne => update_of_ne ne ..) (fun o hr => ?_) rfl rfl rfl rfl ?_, ?_⟩
  · change update s.ready id _ id = _ at hr
    rw [update_self] at hr
    exact ⟨_, (some.inj hr).symm⟩
  · rw [owed_background (h := { h with throttled := false }) clAchieved rfl, owed_waiting waits]
    simp [Stats.balance, StorageProxy.put]
  · simp [StorageProxy.put, Proxy.put]

theorem Inv.pop {rest : List ResponseId} (queue : s.throttledWrites = id :: rest) :
    Inv l init { s with throttledWrites := rest } ∧ id ∉ rest :=
  ⟨⟨(inv.proxy.pop queue).1, inv.balanced, inv.ids⟩, (inv.proxy.pop queue).2⟩

theorem Inv.unthrottleLoop (fuel : Nat) : Safe (Inv l init) (s.unthrottleLoop fuel) := by
  induction fuel generalizing s with
  | zero => exact inv
  | succ fuel ih =>
    unfold StorageProxy.unthrottleLoop
    split_ifs
    · exact inv
    split
    · exact inv
    next id rest queue =>
      obtain ⟨inv', idle⟩ := inv.pop queue
      dsimp only
      cases found : s.handlers id with
      | none => exact ih inv'
      | some h =>
        obtain ⟨achieved, throttled⟩ := (inv.proxy.queued (queue ▸ List.mem_cons_self)).2 h found
        have tally : h.Tally (l.acks id ++ []) (l.late id) := by
          rw [List.append_nil]
          exact inv.tally_of_handlers found
        refine (inv'.unthrottleHandler found ((inv.proxy.waiting found).2 fun _ => throttled) idle rfl achieved tally).bind
          fun s' inv'' => ih ?_
        rw [← l.signal_nil id]
        exact inv''.1

theorem Inv.unthrottle : Safe (Inv l init) s.unthrottle :=
  inv.unthrottleLoop _

/-- Counting keeps the commit version and never takes success back. -/
theorem Inv.signalled (found : s.handlers id = some before)
    (version : h.commitVersion = before.commitVersion) (throttled : h.throttled = before.throttled)
    (grows : before.clAchieved = true → h.clAchieved = true) (tally : h.Tally (l.acks id ++ acks) (l.late id)) :
    Safe (fun s' => Inv (l.signal id acks) init s' ∧ (s'.handlers id).isSome) (s.signalled id before h) := by
  have proxy := inv.proxy.signalled found version throttled grows
  have tally' : h.Tally ((l.signal id acks).acks id) (l.late id) := by rwa [Ledger.acks_signal]
  unfold StorageProxy.signalled
  by_cases reached : h.clAchieved = true ∧ before.clAchieved = false
  · have unachieved : before.clAchieved = true → before.throttled = true := by simp [reached.2]
    have unresolved : s.ready id = none := (inv.proxy.waiting found).2 unachieved
    rw [if_pos (by simp [reached])]
    split_ifs
    · have proxy := proxy true
      unfold Proxy.signalled at proxy
      rw [if_pos (by simp [reached]), if_pos rfl] at proxy
      refine ⟨inv.change (h := { h with throttled := true }) found proxy (l.sameBut_signal id acks)
        ⟨tally'.count, tally'.achieved, tally'.timedout⟩ rfl (fun _ _ => rfl)
        (fun _ => (inv.ids _).value (alive_of_handlers found)) rfl rfl rfl rfl ?_, ?_⟩
      · rw [owed_waiting fun _ => rfl, owed_waiting unachieved, sub_self, add_zero]
        rfl
      · simp [StorageProxy.put, Proxy.put]
    · refine inv.unthrottleHandler found unresolved (fun queued => ?_) version reached.1 tally
      have := ((inv.proxy.queued queued).2 before found).1
      simp [reached.2] at this
  · rw [if_neg (by simpa using reached)]
    refine ⟨inv.put found version ?_ throttled rfl (l.sameBut_signal id acks) tally', by simp [StorageProxy.put, Proxy.put]⟩
    cases hb : before.clAchieved with
    | true => exact grows hb
    | false => simpa [hb] using reached

theorem Inv.signal (found : s.handlers id = some h) (nr : Nat) :
    Safe (fun s' => Inv (l.signal id [nr]) init s' ∧ (s'.handlers id).isSome) (s.signalled id h (h.signal nr)) :=
  inv.signalled found rfl rfl (fun e => by simp [Handler.signal, e]) ((inv.tally_of_handlers found).signal nr)

/-- The map drops its reference to a handler. -/
theorem Inv.detach (found : s.handlers id = some h) : Inv l init { s with
      handlers := update s.handlers id none
      detached := update s.detached id (some h) } := by
  have alive_eq : ∀ id', ((update s.handlers id none id').or (update s.detached id (some h) id')) = s.alive id' := by
    intro id'
    by_cases e : id' = id
    · subst e
      simp [alive, found]
    · simp [alive, update_of_ne e]
  refine ⟨inv.proxy.erase id, ?_, fun id' => ?_⟩
  · refine inv.balanced.move (inv.proxy.used found) rfl (fun id' ne => ?_) ?_
    · simp only [owed, alive, alive_eq]
    · have same : ∀ x : UInt64 × UInt64 × UInt64, s.stats.balance = s.stats.balance + (x - x) := by simp
      simpa only [owed, alive, alive_eq] using same _
  · dsimp only
    by_cases e : id' = id
    · subst e
      have own := inv.ids id'
      rw [found] at own
      obtain ⟨-, gone, value, tally⟩ := (at_some_iff (inv.proxy.used found)).1 own
      rw [update_self, update_self, gone]
      refine ⟨fun _ => value _, fun _ => ⟨rfl, inv.proxy.used found⟩, ?_, ?_, ?_, own.unused, nofun, nofun, fun _ _ => .inl rfl⟩
      · rintro _ ⟨⟩
        exact inv.proxy.waiting found
      · rintro _ ⟨⟩
        exact inv.proxy.version found
      · rintro _ ⟨⟩
        exact tally
    · rw [update_of_ne e, update_of_ne e]
      exact inv.ids id'

/-- A handler that was removed from the map ceases to exist, and its promise is settled. -/
theorem Inv.bury (found : s.detached id = some h) (proxy : Proxy.Inv l.last s'.toProxy)
    (handlers : s'.handlers = s.handlers) (ready : ∀ id', id' ≠ id → s'.ready id' = s.ready id')
    (settled : Settled h (s'.ready id)) (detached : s'.detached = update s.detached id none)
    (destroyed : s'.destroyed = update s.destroyed id (some h)) (size : s'.size = s.size)
    (next : s'.nextResponseId = s.nextResponseId)
    (moved : s'.stats.balance = s.stats.balance - h.owed (s.size id)) : Inv l init s' := by
  obtain ⟨absent, used⟩ := (inv.ids _).apart found
  have others : ∀ {id'}, id' ≠ id → s'.alive id' = s.alive id' := fun ne => by
    rw [alive, alive, handlers, detached, update_of_ne ne]
  have own : s'.alive id = none := by
    rw [alive, handlers, absent, detached, update_self, or_none]
  refine ⟨proxy, ?_, fun id' => ?_⟩
  · refine inv.balanced.move used next (fun id' ne => ?_) ?_
    · rw [owed, owed, others ne, size]
    · rw [moved, owed_of_gone own, owed_of_alive (alive_of_detached found absent), zero_sub, sub_eq_add_neg]
  · rw [handlers, detached, destroyed, next]
    by_cases e : id' = id
    · subst e
      rw [update_self, update_self, absent]
      refine ⟨nofun, nofun, nofun, nofun, ?_, (inv.ids _).unused, fun _ => ⟨rfl, used⟩, ?_, fun _ _ => .inr rfl⟩
      · rintro _ ⟨⟩
        exact (inv.ids _).tally (by rw [absent, found]; rfl)
      · rintro _ ⟨⟩
        exact settled
    · rw [update_of_ne e, update_of_ne e, ready id' e]
      exact inv.ids id'

/-- A handler that ceases to exist while it waits resolves its promise. -/
theorem Inv.settle (found : s.detached id = some h) (waits : h.clAchieved = true → h.throttled = true) (o : Outcome)
    (value : ∀ u, o = .value u → u = l.last id) (settled : Settled h (some o)) :
    Safe (Inv l init) (StorageProxy.resolve { s with
      detached := update s.detached id none
      destroyed := update s.destroyed id (some h)
      stats := { s.stats with writes := s.stats.writes - 1 } } id o) := by
  obtain ⟨absent, used⟩ := (inv.ids _).apart found
  have unresolved := ((inv.ids _).waiting found).2 waits
  have proxy := inv.proxy.resolve absent unresolved used value
  unfold Proxy.resolve at proxy
  rw [if_neg (by simp [unresolved])] at proxy
  rw [resolve_of_none (by exact unresolved)]
  refine inv.bury found proxy rfl (fun id' ne => update_of_ne ne ..) ?_ rfl rfl rfl rfl ?_
  · change Settled h (update s.ready id _ id)
    rwa [update_self]
  · rw [owed_waiting waits]
    simp [Stats.balance]

variable (id : ResponseId)

theorem Inv.release : Safe (Inv l init) (s.release id) := by
  unfold StorageProxy.release
  split
  · exact inv
  rename_i h found
  obtain ⟨absent, used⟩ := (inv.ids _).apart found
  have alive := alive_of_detached found absent
  unfold StorageProxy.destroy
  split_ifs with achieved throttled timedout
  · refine inv.settle found (fun _ => throttled) _ (fun u hu => ?_) ⟨by simp [achieved], by simp [achieved]⟩
    cases hu
    exact (inv.ids _).version found (((inv.ids _).waiting found).2 fun _ => throttled)
  · have free : h.throttled = false := by simpa using throttled
    refine Inv.unthrottle ?_
    have resolved : s.ready id ≠ none := fun unresolved => throttled (((inv.ids _).waiting found).1 unresolved achieved)
    obtain ⟨o, ho⟩ := ne_none_iff_exists'.1 resolved
    obtain ⟨v, rfl⟩ := (inv.ids _).value alive ho
    refine inv.bury found inv.proxy rfl (fun _ _ => rfl) ⟨?_, ?_⟩ rfl rfl rfl rfl ?_
    · simp [ho, achieved]
    · simp [ho, achieved]
    · rw [owed_background achieved free]
      simp [Stats.balance]
  · exact inv.settle found (fun e => absurd e achieved) _ nofun ⟨by simp [timedout], by simp [achieved]⟩
  · have waits : h.clAchieved = true → h.throttled = true := fun e => absurd e achieved
    have unresolved := ((inv.ids _).waiting found).2 waits
    refine inv.bury found inv.proxy rfl (fun _ _ => rfl) ⟨?_, ?_⟩ rfl rfl rfl rfl ?_
    · simp [unresolved, achieved, timedout]
    · simp [unresolved, achieved]
    · rw [owed_waiting waits]
      simp [Stats.balance]

theorem Inv.remove (shared : Bool) : Safe (Inv l init) (s.remove id shared) := by
  unfold StorageProxy.remove
  split
  · exact inv
  next h found =>
    split_ifs
    · exact inv.detach found
    · exact (inv.detach found).release id

theorem Inv.onTimeout (found : (s.handlers id).isSome) : Inv (l.expire id) init (s.onTimeout id) := by
  obtain ⟨h, found⟩ := isSome_iff_exists.1 found
  have tally := inv.tally_of_handlers found
  unfold StorageProxy.onTimeout Proxy.onTimeout
  rw [found]
  exact inv.put (h := { h with timedout := true }) found rfl rfl rfl rfl (fun _ ne => ⟨rfl, rfl, update_of_ne ne ..⟩)
    ⟨tally.count, tally.achieved, (update_self id true l.late).symm⟩

omit inv

variable (tr : List (StorageProxyOp E DC × StorageProxyAnswer))

/-- What was signalled to a handler in a run, and whether it timed out -/
def acksOf (id : ResponseId) : List Nat :=
  tr.flatMap fun e => if e.1.id? = some id then e.2.acks else []

@[inherit_doc acksOf]
def expiredIn (id : ResponseId) : Bool :=
  tr.any fun e => decide (e.1.id? = some id) && e.2.expired

/-- Some acknowledgement was the last one for each promise. -/
def Orderly (init : Stats) (tr : List (StorageProxyOp E DC × StorageProxyAnswer)) (s : StorageProxy E DC) : Prop :=
  ∃ last, Inv ⟨last, acksOf tr, expiredIn tr⟩ init s

variable {tr : List (StorageProxyOp E DC × StorageProxyAnswer)} {op : StorageProxyOp E DC} {last : ResponseId → UInt32}

/-- An event that signals nothing -/
theorem Inv.quiet (inv : Inv ⟨last, acksOf tr, expiredIn tr⟩ init s) : Orderly init (tr ++ [(op, .none)]) s := by
  refine ⟨last, ?_⟩
  have acks : acksOf (tr ++ [(op, .none)]) = acksOf tr := funext fun id => by simp [acksOf, StorageProxyAnswer.none]
  have late : expiredIn (tr ++ [(op, .none)]) = expiredIn tr := funext fun id => by simp [expiredIn, StorageProxyAnswer.none]
  rwa [acks, late]

/-- An event that signals a handler, and calls `on_timeout` or does not -/
theorem Inv.signals {acks : List Nat} (expired : Bool) (about : op.id? = some id) (inv : Inv (bif expired then
      (Ledger.signal ⟨last, acksOf tr, expiredIn tr⟩ id acks).expire id
      else Ledger.signal ⟨last, acksOf tr, expiredIn tr⟩ id acks) init s) :
    Orderly init (tr ++ [(op, ⟨acks, expired⟩)]) s := by
  refine ⟨last, ?_⟩
  have acks' : acksOf (tr ++ [(op, ⟨acks, expired⟩)]) = update (acksOf tr) id (acksOf tr id ++ acks) := funext fun id' => by
    by_cases e : id' = id
    · subst e
      simp [acksOf, about]
    · simp [acksOf, about, Ne.symm e, e]
  have late : expiredIn (tr ++ [(op, ⟨acks, expired⟩)]) =
      bif expired then update (expiredIn tr) id true else expiredIn tr := funext fun id' => by
    by_cases e : id' = id
    · subst e
      cases expired <;> simp [expiredIn, about]
    · cases expired <;> simp [expiredIn, about, Ne.symm e, e]
  rw [acks', late]
  cases expired <;> exact inv

theorem Inv.expire (inv : Inv ⟨last, acksOf tr, expiredIn tr⟩ init s) (id : ResponseId) (hints : Nat) (shared : Bool) :
    Safe (fun r => Orderly init (tr ++ [(.timeout id hints shared, r.2)]) r.1) (s.expire id hints shared) := by
  unfold StorageProxy.expire
  split
  · exact inv.quiet
  next h found =>
    have expired {acks : List Nat} {s' : StorageProxy E DC}
        (inv' : Inv (Ledger.signal ⟨last, acksOf tr, expiredIn tr⟩ id acks) init s') (found : (s'.handlers id).isSome) :
        Safe (fun r => Orderly init (tr ++ [(.timeout id hints shared, r.2)]) r.1)
          ((s'.onTimeout id).remove id shared >>= fun s => .ok (s, ⟨acks, true⟩)) :=
      ((inv'.onTimeout id found).remove id shared).bind fun _ inv'' => Inv.signals id true rfl inv''
    dsimp only
    split
    · exact (inv.signal found hints).bind fun s' inv' => expired inv'.1 inv'.2
    · refine expired ?_ (by rw [found]; rfl)
      rw [Ledger.signal_nil]
      exact inv

theorem Inv.hintToDeadEndpoints (inv : Inv ⟨last, acksOf tr, expiredIn tr⟩ init s) (id : ResponseId) (hints : Nat) :
    Safe (fun r => Orderly init (tr ++ [(.hint id hints, r.2)]) r.1) (s.hintToDeadEndpoints id hints) := by
  unfold StorageProxy.hintToDeadEndpoints
  split
  · exact inv.quiet
  next h found =>
    split
    · exact (inv.signal found hints).bind fun s' inv' => Inv.signals id false rfl inv'.1
    · exact inv.quiet

end

variable [DecidableEq E] [DecidableEq DC] [Snitch E DC]

theorem Inv.gotResponse (inv : Inv ⟨last, acksOf tr, expiredIn tr⟩ init s) (id : ResponseId) (ep : E)
    (commitVersion : UInt32) (shared : Bool) :
    Safe (fun r => Orderly init (tr ++ [(.gotResponse id ep commitVersion shared, r.2)]) r.1)
      (s.gotResponse id ep commitVersion shared) := by
  unfold StorageProxy.gotResponse
  split
  · exact inv.quiet
  rename_i h found
  have tally := inv.tally_of_handlers found
  have set : Inv ⟨if (s.ready id).isNone then update last id commitVersion else last, acksOf tr, expiredIn tr⟩ init
      (s.put id { h with commitVersion }) := by
    refine inv.change (h := { h with commitVersion }) found (inv.proxy.setCommitVersion found commitVersion)
      (fun id' ne => ⟨?_, rfl, rfl⟩) ⟨tally.count, tally.achieved, tally.timedout⟩ rfl (fun _ _ => rfl)
      (fun _ => (inv.ids _).value (alive_of_handlers found)) rfl rfl rfl rfl ?_
    · dsimp only
      split
      · exact update_of_ne ne ..
      · rfl
    · have same : Handler.owed { h with commitVersion } (s.size id) = h.owed (s.size id) := rfl
      rw [same, sub_self, add_zero]
      rfl
  have found' : (s.put id { h with commitVersion }).handlers id = some { h with commitVersion } :=
    update_self ..
  refine (response_spec { h with commitVersion } ep).bind ?_
  rintro ⟨h', counted⟩ ⟨version, throttled, grows, tallies⟩
  refine (set.signalled found' version throttled grows (tallies _ _ (set.tally_of_handlers found'))).bind fun s' inv' => ?_
  dsimp only
  split
  · exact (inv'.1.remove id shared).bind fun _ inv'' => Inv.signals id false rfl inv''
  · exact Inv.signals id false rfl inv'.1

omit [DecidableEq E] in
/-- A new handler exists under a new id. -/
theorem Inv.create (inv : Inv l init s) (rs : ReplicationStrategy DC) (cl : ConsistencyLevel)
    (targets pending : List E) (size : UInt64) : Inv l init (s.create rs cl targets pending size) := by
  obtain ⟨absent, unresolved, -⟩ := inv.proxy.fresh (Nat.le_refl s.nextResponseId)
  have others : ∀ {id'}, id' ≠ s.nextResponseId → (s.create rs cl targets pending size).alive id' = s.alive id' :=
    fun ne => by
      change (update s.handlers _ _ _).or _ = _
      rw [update_of_ne ne]
      rfl
  have own : (s.create rs cl targets pending size).alive s.nextResponseId = some (Handler.create rs cl targets pending) := by
    change (update s.handlers _ _ _).or _ = _
    rw [update_self, some_or]
  refine ⟨inv.proxy.create rs cl targets pending, ?_, fun id' => ?_⟩
  · change Stats.balance _ = init.balance + ∑ id ∈ range (s.nextResponseId + 1), _
    have old : ∀ id' ∈ range s.nextResponseId, (s.create rs cl targets pending size).owed id' = s.owed id' := by
      intro id' lt
      have ne := (mem_range.1 lt).ne
      rw [owed, owed, others ne]
      change (match s.alive id' with | some h => h.owed (update s.size _ _ _) | none => 0) = _
      rw [update_of_ne ne]
    have new : (s.create rs cl targets pending size).owed s.nextResponseId = (1, 0, 0) := by
      rw [owed_of_alive own, owed_waiting fun e => by simp [clAchieved_create] at e]
    have balanced := inv.balanced
    rw [sum_range_succ, sum_congr rfl old, new, ← add_assoc, ← balanced]
    simp [Stats.balance, StorageProxy.create, StorageProxy.put]
  · have old := inv.ids id'
    change At id' (s.nextResponseId + 1) (update s.handlers _ _ id') _ _ _ _ _ _
    by_cases e : id' = s.nextResponseId
    · subst e
      obtain ⟨acks, late⟩ := old.unused le_rfl
      have detached : s.detached s.nextResponseId = none :=
        eq_none_iff_forall_ne_some.2 fun _ kept => (old.apart kept).2.ne rfl
      have destroyed : s.destroyed s.nextResponseId = none :=
        eq_none_iff_forall_ne_some.2 fun _ done => (old.gone done).2.ne rfl
      rw [update_self, at_some_iff (Nat.lt_succ_self _), acks, late]
      refine ⟨detached, destroyed, fun o ready => ?_, tally_create rs cl targets pending⟩
      cases unresolved.symm.trans ready
    · rw [update_of_ne e]
      exact { old with
        apart := fun kept => (old.apart kept).imp_right Nat.lt_succ_of_lt
        unused := fun le => old.unused (Nat.le_of_succ_le le)
        gone := fun done => (old.gone done).imp_right Nat.lt_succ_of_lt
        known := fun pos lt => old.known pos (Nat.lt_of_le_of_ne (Nat.le_of_lt_succ lt) e) }

/-- Every request leaves the books balanced, and no promise is ever resolved twice. -/
theorem Orderly.step (orderly : Orderly init tr s) (op : StorageProxyOp E DC) :
    Safe (fun r => Orderly init (tr ++ [(op, r.2)]) r.1) (s.step op) := by
  obtain ⟨last, inv⟩ := orderly
  cases op with
  | create rs cl targets pending size => exact (inv.create rs cl targets pending size).quiet
  | hint id hints => exact inv.hintToDeadEndpoints id hints
  | gotResponse id ep v shared => exact inv.gotResponse id ep v shared
  | timeout id hints shared => exact inv.expire id hints shared
  | remove id shared => exact (inv.remove id shared).bind fun _ inv' => inv'.quiet
  | release id => exact (inv.release id).bind fun _ inv' => inv'.quiet
  | send bytes =>
    have inv' : Inv _ init { s with
        stats := { s.stats with queuedWriteBytes := s.stats.queuedWriteBytes + bytes } } := { inv with }
    exact inv'.quiet
  | sent bytes =>
    have inv' : Inv _ init { s with
        stats := { s.stats with queuedWriteBytes := s.stats.queuedWriteBytes - bytes } } := { inv with }
    exact inv'.unthrottle.bind fun _ inv'' => inv''.quiet
  | unthrottle => exact inv.unthrottle.bind fun _ inv' => inv'.quiet

omit [DecidableEq E] [DecidableEq DC] [Snitch E DC] in
theorem orderly_init (totalMemory : UInt64) (init : Stats) :
    Orderly init [] ({ totalMemory, stats := init } : StorageProxy E DC) := by
  refine ⟨fun _ => 0, ⟨nofun, nofun, nofun, nofun, .nil, fun _ => ⟨rfl, rfl, rfl⟩⟩, ?_, fun id => ?_⟩
  · simp [Balanced, owed, alive]
  · exact ⟨nofun, nofun, nofun, nofun, nofun, fun _ => ⟨rfl, rfl⟩, nofun, nofun, fun pos lt => absurd pos (Nat.not_le_of_lt lt)⟩

theorem run_orderly {totalMemory : UInt64} {init : Stats} {s : StorageProxy E DC}
    (run : Run StorageProxy.step (fun _ _ _ => True) { totalMemory, stats := init } tr s) : Orderly init tr s :=
  run.invariant (fun tr s => Orderly init tr s) (orderly_init totalMemory init) fun _ _ i _ _ orderly _ next =>
    (orderly.step i).of_ok next

end StorageProxy

open StorageProxy (acksOf expiredIn)

/-- Write handlers answer once and balance their books. No request resolves a promise twice. As long as a handler
exists, its promise waits until enough acknowledgements were signalled to it, and on while it is throttled, and is only
resolved with a value. When it does not exist any more, its promise is resolved exactly if enough of them were or it
timed out, and with a value exactly if enough were. When no handler exists, the counters are what they were at first. -/
theorem write_handlers_answer_once [DecidableEq E] [DecidableEq DC] [Snitch E DC] {totalMemory : UInt64}
    {init : Stats} {tr : List (StorageProxyOp E DC × StorageProxyAnswer)} {s : StorageProxy E DC}
    (run : Run StorageProxy.step (fun _ _ _ => True) { totalMemory, stats := init } tr s) :
    (∀ op, s.step op ≠ .error .promiseSetTwice) ∧
    (∀ id h, s.alive id = some h → (s.ready id = none ↔ (h.Reached (acksOf tr id) → h.throttled = true)) ∧
      ∀ o, s.ready id = some o → ∃ v, o = .value v) ∧
    (∀ id, 1 ≤ id → id < s.nextResponseId → s.alive id = none → ∃ h, s.destroyed id = some h ∧
      ((s.ready id).isSome = true ↔ h.Reached (acksOf tr id) ∨ expiredIn tr id = true) ∧
      ((∃ v, s.ready id = some (.value v)) ↔ h.Reached (acksOf tr id))) ∧
    ((∀ id, s.alive id = none) → s.stats.writes = init.writes ∧ s.stats.backgroundWrites = init.backgroundWrites ∧
      s.stats.backgroundWriteBytes = init.backgroundWriteBytes) := by
  obtain ⟨last, inv⟩ := StorageProxy.run_orderly run
  refine ⟨fun op twice => ?_, fun id h alive => ⟨?_, fun o => (inv.ids _).value alive⟩, fun id pos lt none => ?_, fun none => ?_⟩
  · have safe := (StorageProxy.run_orderly run).step op
    rw [twice] at safe
    exact safe rfl
  · have tally : h.Tally (acksOf tr id) (expiredIn tr id) := (inv.ids id).tally (or_eq_some_iff.2 (.inl alive))
    rw [← tally.achieved]
    cases mapped : s.handlers id with
    | some h' =>
      cases (StorageProxy.alive_of_handlers mapped).symm.trans alive
      exact inv.proxy.waiting mapped
    | none =>
      rw [StorageProxy.alive, mapped, none_or] at alive
      exact (inv.ids _).waiting alive
  · have known : (s.alive id).isSome ∨ (s.destroyed id).isSome := (inv.ids id).known pos lt
    rw [none] at known
    obtain ⟨h, done⟩ := isSome_iff_exists.1 (known.resolve_left nofun)
    have tally : h.Tally (acksOf tr id) (expiredIn tr id) :=
      (inv.ids id).tally (or_eq_some_iff.2 (.inr ⟨none, done⟩))
    refine ⟨h, done, ?_⟩
    rw [← tally.achieved, ← tally.timedout]
    exact ⟨((inv.ids _).settled done).answered, ((inv.ids _).settled done).value⟩
  · have balanced := inv.balanced
    unfold StorageProxy.Balanced at balanced
    rw [sum_eq_zero fun id _ => StorageProxy.owed_of_gone (none id), add_zero] at balanced
    exact ⟨congrArg (·.1) balanced, congrArg (·.2.1) balanced, congrArg (·.2.2) balanced⟩

/-- A write of two replicas is throttled, goes on when a message is sent, and ends when both have answered. -/
theorem write_handlers_answer_throttled : ∃ tr s, Run StorageProxy.step (fun _ _ _ => True)
        ({ totalMemory := 1000, stats := {} } : StorageProxy Nat Nat) tr s ∧
      acksOf tr 1 = [1, 1] ∧ s.ready 1 = some (.value 5) ∧ s.alive 1 = none ∧ s.stats.backgroundWriteBytes = 0 := by
  have run : Run StorageProxy.step (fun _ _ _ => True)
      ({ totalMemory := 1000, stats := {} } : StorageProxy Nat Nat) _ _ :=
    .snoc (.snoc (.snoc (.snoc (.snoc .init (i := .create (.other 2) .one [0, 1] [] 200) trivial rfl)
      (i := .send 7000000) trivial rfl)
      (i := .gotResponse 1 0 5 false) trivial rfl)
      (i := .sent 7000000) trivial rfl)
      (i := .gotResponse 1 1 7 false) trivial rfl
  exact ⟨_, _, run, rfl, rfl, rfl, ((write_handlers_answer_once run).2.2.2 fun | 0 | 1 | _ + 2 => rfl).2.2⟩

end ScyllaMoon.Coordinator
