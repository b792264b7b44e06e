import ScyllaMoon.Ycsb.Moon.System

/-!
# YCSB-moon is serializable

All operations that took effect can be put in one order that agrees with the order of each client and in
which every transaction returns what was written last. The order goes by version. At one version come the
writes that were rejected because it was there already, then the write that is stored under it, then the
transactions that read at it.
-/

namespace ScyllaMoon.Ycsb

open Lib Mutation Mvcc Client Function List

/-- What a read of all columns returns of a write. -/
def Insert.payload (i : Insert) : List (ColumnId × Bytes) := i.values.take sliceCount

theorem Insert.payload_stored (i : Insert) (n : UInt32) : (i.stored n).map (fun c => (c.id, c.value)) = i.payload := by
  simp [stored, payload, map_take, comp_def]

namespace Moon

variable {Cl K S Pos : Type} [DecidableEq K]

namespace Operation

def client : Operation Cl K → Cl
  | .write c _ _ _ => c
  | .read c _ _ _ => c

/-- The place of an operation in the order. -/
def rank : Operation Cl K → Nat
  | .write _ _ _ r => 3 * r.commitVersion.toNat + if r.accepted then 1 else 0
  | .read _ _ version _ => 3 * version.toNat + 2

/-- What the operation writes to `k`. -/
def writes (k : K) : Operation Cl K → Option Insert
  | .write _ k' i _ => if k' = k then some i else none
  | .read .. => none

end Operation

/-- The last write to `k` among the operations; before all of them the table was loaded. -/
def lastWrite (load : K → Insert) (k : K) (ops : List (Operation Cl K)) : Insert :=
  (ops.filterMap (Operation.writes k)).getLast?.getD (load k)

open ClientView (versionCap)

/-- `VERSION_CAP` as a version number. -/
def cap : Nat := versionCap.toNat

/-- The highest rank an operation of the client can have. -/
def Thread.bound (t : Thread K) : Nat :=
  match t.pending with
  | .written commitVersion => max (3 * t.view.currentVersionToRead.toNat) (3 * commitVersion.toNat) + 2
  | _ => 3 * t.view.currentVersionToRead.toNat + 2

/-- What a client relies on. -/
structure Thread.Ok (regs : K → Register (List Column)) (t : Thread K) : Prop where
  view : 1 ≤ t.view.currentVersionToRead ∧ t.view.currentVersionToRead < versionCap
  pending : match t.pending with
    | .idle => True
    | .writing _ _ version => version = t.view.currentVersionToRead + 1
    | .written commitVersion => commitVersion.toNat < cap
    | .reading _ version fetched => version = t.view.currentVersionToRead ∧
        ∀ e ∈ fetched, ∃ n, (regs e.1).Fixed version.toNat (n, e.2)

variable {t : Thread K}

omit [DecidableEq K] in
theorem Thread.Ok.mono {regs regs' : K → Register (List Column)} (h : t.Ok regs)
    (later : ∀ k, (regs k).Extends (regs' k)) : t.Ok regs' := by
  refine ⟨h.view, ?_⟩
  have pending := h.pending
  split <;> rename_i eq <;> simp only [eq] at pending
  · trivial
  · exact pending
  · exact pending
  · exact pending.imp_right fun fixed e he => (fixed e he).imp fun n hn => (later e.1).fixed _ _ hn

/-- The registers hold what the operations so far wrote, and the transactions read what is fixed in them. -/
structure Inv [Position Pos] (now : Int) (load : K → Insert) (ops : List (Operation Cl K)) (s : State Cl K S Pos)
    (regs : K → Register (List Column)) : Prop where
  table : Table now s.entries regs
  loaded : ∀ k, (1, (load k).stored 1) ∈ (regs k).versions
  below : ∀ k, (regs k).read < cap ∧ (regs k).written < cap
  versions : ∀ k, ∀ v ∈ (regs k).versions, v = (1, (load k).stored 1) ∨
    ∃ c i n, .write c k i ⟨true, n⟩ ∈ ops ∧ v = (n.toNat, i.stored n)
  writes : ∀ c k i r, .write c k i r ∈ ops → 2 ≤ r.commitVersion.toNat ∧
    (∃ v ∈ (regs k).versions, v.1 = r.commitVersion.toNat) ∧
    (r.accepted = true → (r.commitVersion.toNat, i.stored r.commitVersion) ∈ (regs k).versions)
  reads : ∀ c keys t result, .read c keys t result ∈ ops → (∀ k ∈ keys, k ∈ result.map Prod.fst) ∧
    ∀ e ∈ result, ∃ n, (regs e.1).Fixed t.toNat (n, e.2)
  clients : ∀ c, (s.clients c).Ok regs
  order : ∀ c, (ops.Pairwise fun a b => a.client = c → b.client = c → a.rank ≤ b.rank)
  bound : ∀ d ∈ ops, d.rank ≤ (s.clients d.client).bound

section Steps

variable [Position Pos] {schema : S} {now : Int} {load : K → Insert} {ops : List (Operation Cl K)}
  {s s' : State Cl K S Pos} {regs regs' : K → Register (List Column)}

omit [DecidableEq K] in
/-- What an event has to respect. -/
theorem Inv.advance {new : Option (Operation Cl K)} (inv : Inv now load ops s regs) (table : Table now s'.entries regs')
    (later : ∀ k, (regs k).Extends (regs' k)) (below : ∀ k, (regs' k).read < cap ∧ (regs' k).written < cap)
    (versions : ∀ k, ∀ v ∈ (regs' k).versions, v ∈ (regs k).versions ∨
      ∃ c i n, new = some (.write c k i ⟨true, n⟩) ∧ v = (n.toNat, i.stored n))
    (write : ∀ c k i r, new = some (.write c k i r) → 2 ≤ r.commitVersion.toNat ∧
      (∃ v ∈ (regs' k).versions, v.1 = r.commitVersion.toNat) ∧
      (r.accepted = true → (r.commitVersion.toNat, i.stored r.commitVersion) ∈ (regs' k).versions))
    (read : ∀ c keys t result, new = some (.read c keys t result) → (∀ k ∈ keys, k ∈ result.map Prod.fst) ∧
      ∀ e ∈ result, ∃ n, (regs' e.1).Fixed t.toNat (n, e.2))
    (clients : ∀ c, (s'.clients c).Ok regs') (grows : ∀ c, (s.clients c).bound ≤ (s'.clients c).bound)
    (latest : ∀ d, new = some d → (s.clients d.client).bound ≤ d.rank ∧ d.rank ≤ (s'.clients d.client).bound) :
    Inv now load (ops ++ new.toList) s' regs' where
  table := table
  loaded k := (later k).versions _ (inv.loaded k)
  below := below
  versions k v hv := by
    rcases versions k v hv with old | ⟨c, i, n, rfl, eq⟩
    · rcases inv.versions k v old with loaded | ⟨c, i, n, mem, eq⟩
      · exact .inl loaded
      · exact .inr ⟨c, i, n, mem_append_left _ mem, eq⟩
    · exact .inr ⟨c, i, n, mem_append_right _ mem_cons_self, eq⟩
  writes c k i r mem := by
    rcases mem_append.1 mem with mem | mem
    · obtain ⟨two, ⟨v, hv, eq⟩, accepted⟩ := inv.writes c k i r mem
      exact ⟨two, ⟨v, (later k).versions v hv, eq⟩, fun acc => (later k).versions _ (accepted acc)⟩
    · exact write c k i r (Option.mem_toList.1 mem)
  reads c keys t result mem := by
    rcases mem_append.1 mem with mem | mem
    · obtain ⟨all, fixed⟩ := inv.reads c keys t result mem
      exact ⟨all, fun e he => (fixed e he).imp fun n hn => (later e.1).fixed _ _ hn⟩
    · exact read c keys t result (Option.mem_toList.1 mem)
  clients := clients
  order c := by
    refine pairwise_append.2 ⟨inv.order c, ?_, fun a ha b hb hac hbc => ?_⟩
    · cases new with
      | none => exact .nil
      | some d => exact pairwise_singleton ..
    · have := inv.bound a ha
      rw [hac, ← hbc] at this
      exact Nat.le_trans this (latest b (Option.mem_toList.1 hb)).1
  bound d hd := by
    rcases mem_append.1 hd with hd | hd
    · exact Nat.le_trans (inv.bound d hd) (grows d.client)
    · exact (latest d (Option.mem_toList.1 hd)).2

variable {clients : Cl → Thread K}

omit [DecidableEq K] in
theorem Inv.quiet (inv : Inv now load ops s regs) (ok : ∀ c, (clients c).Ok regs)
    (grows : ∀ c, (s.clients c).bound ≤ (clients c).bound) : Inv now load (ops ++ none.toList) { s with clients } regs :=
  inv.advance inv.table (fun _ => .refl _) inv.below (fun _ _ hv => .inl hv) nofun nofun ok grows nofun

variable [DecidableEq Cl] {c : Cl}

omit [DecidableEq K] in
theorem ok_update (h : ∀ c, (clients c).Ok regs)
    (later : ∀ k, (regs k).Extends (regs' k)) (ok : t.Ok regs') (c' : Cl) : (update clients c t c').Ok regs' := by
  by_cases hc : c' = c
  · subst hc
    simpa using ok
  · simpa [hc] using (h c').mono later

omit [DecidableEq K] in
theorem bound_update (le : (clients c).bound ≤ t.bound) (c' : Cl) :
    (clients c').bound ≤ (update clients c t c').bound := by
  by_cases hc : c' = c
  · subst hc
    simpa using le
  · simp [hc]

open UInt32 (ofNat)

variable {version : Int}

omit [DecidableEq K] in
/-- The version of a write or a read as the server sees it. -/
theorem toNat_version (pos : 1 ≤ version) (small : version ≤ versionCap) :
    ((ofNat version.toNat).toNat : Int) = version ∧ ofNat version.toNat ≠ 0 := by
  have size : (ofNat version.toNat).toNat = version.toNat := by
    rw [UInt32.toNat_ofNat']
    unfold versionCap at small
    omega
  refine ⟨by omega, fun h0 => ?_⟩
  rw [h0] at size
  simp at size
  omega

/-- There is room for every version, and all of them are below `VERSION_CAP`. -/
def State.Permitted (s : State Cl K S Pos) : Event Cl K → Prop
  | .arrive c => ∀ k i version, (s.clients c).pending = .writing k i version →
      ofNat version.toNat ≤ (s.entries k).entry.highestVersionWritten ∨
      (s.entries k).entry.numVersions < 100 ∧
        (promotedVersion (s.entries k).entry.highestVersionRead (s.entries k).entry.highestVersionWritten
          (ofNat version.toNat)).toNat < cap
  | _ => True

variable [SchemaOps S Cell] {w : Heap S (MutationPartition Pos Cell)}

theorem Inv.arrive (inv : Inv now load ops s regs) {k : K} {i : Insert}
    {r : WriteResult} (pending : (s.clients c).pending = .writing k i version)
    (next : (s.entries k).step (.applyView schema i.view schema (ofNat version.toNat)) = .ok (w, .write r))
    (permitted : s.Permitted (.arrive c)) : ∃ regs', Inv now load (ops ++ (some (.write c k i r : Operation Cl K)).toList)
      (State.update ⟨update s.entries k w, s.clients⟩ c ⟨(s.clients c).view, .written r.commitVersion⟩) regs' := by
  have permitted := permitted k i version pending
  have hcap : cap = 10000000 := rfl
  have hcap' : versionCap = 10000000 := rfl
  obtain ⟨⟨one, small⟩, sent⟩ := inv.clients c
  simp only [pending] at sent
  obtain ⟨size, ne⟩ := toNat_version (by omega : 1 ≤ version) (by omega)
  obtain ⟨unread, unwritten⟩ := inv.below k
  have bound : (s.clients c).bound = 3 * (s.clients c).view.currentVersionToRead.toNat + 2 := by
    simp only [Thread.bound, pending]
  have room : Room (s.entries k).entry (ofNat version.toNat) := by
    rcases permitted with le | ⟨few, -⟩
    · exact .inl ⟨ne, le⟩
    · refine .inr ⟨few, by omega, fun h0 => absurd h0 ne, fun _ _ => ?_⟩
      rw [(inv.table.shows k).read]
      omega
  have answered : ∀ m acc, version ≤ m.toNat → m.toNat < cap →
      (s.clients c).bound ≤ (⟨(s.clients c).view, .written m⟩ : Thread K).bound ∧
      (s.clients c).bound ≤ (.write c k i ⟨acc, m⟩ : Operation Cl K).rank ∧
      (.write c k i ⟨acc, m⟩ : Operation Cl K).rank ≤ (⟨(s.clients c).view, .written m⟩ : Thread K).bound := by
    intro m acc le lt
    rw [bound]
    simp only [Thread.bound, Operation.rank]
    split <;> omega
  rcases inv.table.write next room (.inl ne) with ⟨ho, -, le, table⟩ | ⟨n, new, ho, kept, hn, tagged, -, table⟩
  · have written := (inv.table.shows k).written
    cases ho
    have below : (s.entries k).entry.highestVersionWritten.toNat < cap := written ▸ unwritten
    obtain ⟨grows, latest⟩ := answered _ false (by omega) below
    refine ⟨regs, inv.advance table (fun _ => .refl _) inv.below (fun _ _ hv => .inl hv) ?_ nofun
      (ok_update inv.clients (fun _ => .refl _) ⟨⟨one, small⟩, below⟩) (bound_update grows) ?_⟩
    · intro c' k' i' r' eq
      cases eq
      refine ⟨by dsimp only; omega, ?_, nofun⟩
      rw [written]
      exact (regs k).exists_written (ne_nil_of_mem (inv.loaded k))
    · intro d eq
      cases eq
      simpa only [Operation.client, State.update, update_self] using latest
  · cases ho
    have below : n.toNat < cap := by
      rcases permitted with le | ⟨-, lt⟩
      · exact absurd ⟨ne, le⟩ kept
      · exact hn ▸ lt
    obtain ⟨above, proposed⟩ := tagged ne
    have later := extends_update (Register.extends_push (a := i.stored n) new above)
    have self : update regs k ((regs k).push n.toNat (i.stored n) new) k =
        (regs k).push n.toNat (i.stored n) new := update_self ..
    have mem : (n.toNat, i.stored n) ∈ ((regs k).push n.toNat (i.stored n) new).versions := mem_cons_self
    obtain ⟨grows, latest⟩ := answered n true (by omega) below
    refine ⟨_, inv.advance table later (fun k' => ?_) (fun k' v hv => ?_) ?_ nofun
      (ok_update inv.clients later ⟨⟨one, small⟩, below⟩) (bound_update grows) ?_⟩
    · by_cases hk : k' = k
      · subst hk
        rw [self]
        exact ⟨unread, below⟩
      · simpa [hk] using inv.below k'
    · by_cases hk : k' = k
      · subst hk
        rw [self, Register.mem_push] at hv
        rcases hv with rfl | hv
        · exact .inr ⟨c, i, n, rfl, rfl⟩
        · exact .inl hv
      · exact .inl (by simpa [hk] using hv)
    · intro c' k' i' r' eq
      cases eq
      rw [self]
      exact ⟨by dsimp only; omega, ⟨_, mem, rfl⟩, fun _ => mem⟩
    · intro d eq
      cases eq
      simpa only [Operation.client, State.update, update_self] using latest

theorem Inv.fetch (inv : Inv now load ops s regs) {k : K} {keys : List K} {fetched : List (K × List Column)}
    {snapshot : SnapshotId} {n : UInt32} {p : MutationPartition Pos Cell}
    (pending : (s.clients c).pending = .reading keys version fetched)
    (next : (s.entries k).step (.read schema defaultPhase (ofNat version.toNat)) = .ok (w, .snapshot snapshot n p)) :
    ∃ regs', Inv now load (ops ++ (none : Option (Operation Cl K)).toList) (State.update ⟨update s.entries k w, s.clients⟩ c
      ⟨(s.clients c).view, .reading keys version (fetched ++ [(k, columns now p)])⟩) regs' := by
  have hcap : cap = 10000000 := rfl
  have hcap' : versionCap = 10000000 := rfl
  obtain ⟨⟨one, small⟩, current⟩ := inv.clients c
  simp only [pending] at current
  obtain ⟨rfl, fixed⟩ := current
  obtain ⟨size, ne⟩ := toNat_version one (Int.le_of_lt small)
  obtain ⟨table, _, _, _, ho, -, newest⟩ := inv.table.read next
  cases ho
  have version : (ofNat (s.clients c).view.currentVersionToRead.toNat).toNat =
      (s.clients c).view.currentVersionToRead.toNat := by omega
  have found := newest ne ⟨_, inv.loaded k, by dsimp only; omega⟩
  rw [version] at found table
  have later := extends_update (Register.extends_note (regs k) (s.clients c).view.currentVersionToRead.toNat)
  have bound : (s.clients c).bound = 3 * (s.clients c).view.currentVersionToRead.toNat + 2 := by
    simp only [Thread.bound, pending]
  refine ⟨_, inv.advance table later (fun k' => ?_) (fun k' v hv => ?_) nofun nofun
    (ok_update inv.clients later ⟨⟨one, small⟩, rfl, fun e he => ?_⟩) (bound_update bound.le) nofun⟩
  · by_cases hk : k' = k
    · subst hk
      rw [update_self, Register.written_note]
      exact ⟨Nat.max_lt.2 ⟨(inv.below k').1, by omega⟩, (inv.below k').2⟩
    · simpa [hk] using inv.below k'
  · by_cases hk : k' = k
    · subst hk
      rw [update_self] at hv
      exact .inl hv
    · exact .inl (by simpa [hk] using hv)
  · rcases mem_append.1 he with he | he
    · exact (fixed e he).imp fun n hn => (later e.1).fixed _ _ hn
    · rw [mem_singleton.1 he]
      refine ⟨n.toNat, ?_⟩
      rw [update_self]
      exact ⟨found, Register.closed_note⟩

variable [HashCode K]

theorem State.Transition.inv {e : Event Cl K} {o : Option (Operation Cl K)} (h : s.Transition schema now e s' o)
    (inv : Inv now load ops s regs) (permitted : s.Permitted e) : ∃ regs', Inv now load (ops ++ o.toList) s' regs' := by
  have hcap : cap = 10000000 := rfl
  have hcap' : versionCap = 10000000 := rfl
  cases h with
  | @startWrite c k i pending =>
    refine ⟨regs, inv.quiet (ok_update inv.clients (fun _ => .refl _) ⟨(inv.clients c).view, rfl⟩) (bound_update ?_)⟩
    simp only [Thread.bound, pending]
    exact Nat.le_refl _
  | @arrive c k i version w r pending next => exact inv.arrive pending next permitted
  | @acknowledge c commitVersion pending =>
    obtain ⟨⟨one, below⟩, small⟩ := inv.clients c
    simp only [pending] at small
    have version : javaInt commitVersion = commitVersion.toNat := by
      unfold javaInt
      rw [if_pos (by omega)]
    have current : ((s.clients c).view.setCurrentVersionToRead (javaInt commitVersion)).currentVersionToRead =
        max (s.clients c).view.currentVersionToRead commitVersion.toNat := by
      rw [ClientView.currentVersionToRead_set, version, if_pos (by omega)]
    refine ⟨regs, inv.quiet (ok_update inv.clients (fun _ => .refl _) ⟨?_, trivial⟩) (bound_update ?_)⟩
    · rw [current]
      omega
    · simp only [Thread.bound, pending, current]
      omega
  | @startRead c keys pending =>
    obtain ⟨⟨one, below⟩, -⟩ := inv.clients c
    obtain ⟨version, le⟩ := (s.clients c).view.getVersionToRead_spec keys
    have small := (s.clients c).view.getVersionToRead_lt keys below
    refine ⟨regs, inv.quiet (ok_update inv.clients (fun _ => .refl _) ⟨?_, version, nofun⟩) (bound_update ?_)⟩
    · rw [← version]
      exact ⟨Int.le_trans one le, small⟩
    · simp only [Thread.bound, pending, ← version]
      omega
  | fetch pending key next => exact inv.fetch pending next
  | @finish c keys version fetched pending all =>
    obtain ⟨⟨one, below⟩, current⟩ := inv.clients c
    simp only [pending] at current
    obtain ⟨rfl, fixed⟩ := current
    have same := ClientView.currentVersionToRead_foldl (s.clients c).view (fetched.map versions)
    refine ⟨regs, inv.advance inv.table (fun _ => .refl _) inv.below (fun _ _ hv => .inl hv) nofun ?_
      (ok_update inv.clients (fun _ => .refl _) ⟨?_, trivial⟩) (bound_update ?_) ?_⟩
    · intro c' keys' t result eq
      cases eq
      exact ⟨all, fixed⟩
    · rw [same]
      exact ⟨one, below⟩
    · simp only [Thread.bound, pending, same]
      exact Nat.le_refl _
    · intro d eq
      cases eq
      simp only [Operation.client, Operation.rank, State.update, update_self, Thread.bound, same, pending]
      exact ⟨Nat.le_refl _, Nat.le_refl _⟩
  | @drop k snapshot w o next =>
    exact ⟨regs, inv.advance (inv.table.drop next) (fun _ => .refl _) inv.below (fun _ _ hv => .inl hv) nofun nofun
      inv.clients (fun _ => Nat.le_refl _) nofun⟩

end Steps

section Order

variable {load : K → Insert} {k : K}

/-- The operations of a run that took effect. -/
def operations (tr : List (Event Cl K × Option (Operation Cl K))) : List (Operation Cl K) :=
  tr.filterMap Prod.snd

variable {ops : List (Operation Cl K)}

/-- The last write is the one of the highest rank. -/
theorem payload_lastWrite (sorted : ops.Pairwise fun a b => a.rank ≤ b.rank) {ρ : Nat}
    {payload : List (ColumnId × Bytes)}
    (all : ∀ d ∈ ops, ∀ i, d.writes k = some i → d.rank ≤ ρ ∧ (d.rank = ρ → i.payload = payload))
    (some : ∃ d ∈ ops, (d.writes k).isSome ∧ d.rank = ρ) : (lastWrite load k ops).payload = payload := by
  induction ops using reverseRecOn with
  | nil =>
    obtain ⟨d, hd, -⟩ := some
    cases hd
  | append_singleton ops d ih =>
    obtain ⟨before, -, last⟩ := pairwise_append.1 sorted
    obtain ⟨all, here⟩ := forall_mem_append.1 all
    cases hw : d.writes k with
    | none =>
      obtain ⟨x, hx, writes, rank⟩ := some
      have mem : x ∈ ops := (mem_append.1 hx).resolve_right fun h => by
        rw [mem_singleton.1 h, hw] at writes
        cases writes
      have same : lastWrite load k (ops ++ [d]) = lastWrite load k ops := by simp [lastWrite, hw]
      rw [same]
      exact ih before all ⟨x, mem, writes, rank⟩
    | some i =>
      obtain ⟨le, equal⟩ := here d mem_cons_self i hw
      have same : lastWrite load k (ops ++ [d]) = i := by simp [lastWrite, hw]
      rw [same]
      obtain ⟨x, hx, writes, rank⟩ := some
      rcases mem_append.1 hx with hx | hx
      · exact equal (Nat.le_antisymm le (rank ▸ last x hx d mem_cons_self))
      · exact equal (mem_singleton.1 hx ▸ rank)

theorem lastWrite_of_none (none : ∀ d ∈ ops, d.writes k = none) :
    lastWrite load k ops = load k := by
  have empty : ops.filterMap (Operation.writes k) = [] := filterMap_eq_nil_iff.2 none
  rw [lastWrite, empty]
  rfl

theorem Operation.of_writes {d : Operation Cl K} {i : Insert} (h : d.writes k = some i) : ∃ c r, d = .write c k i r := by
  cases d with
  | read => cases h
  | write c k' i' r =>
    obtain ⟨rfl, rfl⟩ : k' = k ∧ i' = i := by simpa [writes] using h
    exact ⟨c, r, rfl⟩

/-- In the order of ranks a transaction returns what was written last before it. -/
theorem Inv.read_last [Position Pos] {now : Int} {ops order : List (Operation Cl K)} {s : State Cl K S Pos}
    {regs : K → Register (List Column)} (inv : Inv now load ops s regs) (perm : order.Perm ops)
    (sorted : order.Pairwise fun a b => a.rank ≤ b.rank) {before after : List (Operation Cl K)} {c : Cl} {keys : List K}
    {t : Int} {result : List (K × List Column)} (parts : order = before ++ .read c keys t result :: after)
    {cols : List Column} (mem : (k, cols) ∈ result) :
    cols.map (fun c => (c.id, c.value)) = (lastWrite load k before).payload := by
  subst parts
  obtain ⟨first, rest, between⟩ := pairwise_append.1 sorted
  have this : Operation.read c keys t result ∈ ops :=
    perm.subset (mem_append_right _ mem_cons_self)
  obtain ⟨n, get, -⟩ := (inv.reads c keys t result this).2 _ mem
  obtain ⟨version, -, greatest⟩ := Register.get_eq_some.1 get
  have le := by simpa using find?_some get
  dsimp only at version le greatest get
  -- the writes to `k` that come before the transaction have no version above the one that was read
  have below : ∀ d ∈ before, ∀ i, d.writes k = some i → ∃ c' r, d = .write c' k i r ∧ .write c' k i r ∈ ops ∧
      r.commitVersion.toNat ≤ n := by
    intro d hd i hw
    obtain ⟨c', r, rfl⟩ := Operation.of_writes hw
    have hd' : Operation.write c' k i r ∈ ops := perm.subset (mem_append_left _ hd)
    have rank := between _ hd _ mem_cons_self
    obtain ⟨-, ⟨v, hv, eq⟩, -⟩ := inv.writes c' k i r hd'
    refine ⟨c', r, rfl, hd', ?_⟩
    rw [← eq]
    refine greatest v hv ?_
    simp only [Operation.rank] at rank
    omega
  rcases inv.versions k _ version with loaded | ⟨c₀, i₀, m, hw, eq⟩
  · cases loaded
    rw [lastWrite_of_none fun d hd => ?_, Insert.payload_stored]
    refine Option.eq_none_iff_forall_ne_some.2 fun i hw => ?_
    obtain ⟨c', r, rfl, hd', small⟩ := below d hd i hw
    have := (inv.writes c' k i r hd').1
    omega
  · cases eq
    refine (payload_lastWrite (ρ := 3 * m.toNat + 1) first (fun d hd i hi => ?_) ?_).symm
    · obtain ⟨c', r, rfl, hd', small⟩ := below d hd i hi
      obtain ⟨-, -, accepted⟩ := inv.writes c' k i r hd'
      simp only [Operation.rank]
      refine ⟨by split <;> omega, fun rank => ?_⟩
      split at rank
      next acc =>
        have same : r.commitVersion = m := UInt32.toNat_inj.1 (by omega)
        have mem := accepted acc
        rw [same] at mem
        rw [← Insert.payload_stored i m, Register.eq_of_mem mem version, Insert.payload_stored]
      · omega
    · refine ⟨.write c₀ k i₀ ⟨true, m⟩, ?_, by simp [Operation.writes], rfl⟩
      rcases mem_append.1 (perm.symm.subset hw) with hb | hb
      · exact hb
      · rcases mem_cons.1 hb with hb | hb
        · cases hb
        · have rank := (pairwise_cons.1 rest).1 _ hb
          simp only [Operation.rank] at rank
          split at rank <;> omega

end Order

section Serializable

variable [Position Pos] [SchemaOps S Cell] {entries : K → Heap S (MutationPartition Pos Cell)}

/-- Every key holds the version 1 that loaded it, and the clients have done nothing yet. -/
theorem Inv.start {schema : S} (now : Int) {load : K → Insert} {addr : K → EntryAddr}
    (loaded : ∀ k, ∃ o, (Heap.ofPartition (addr k) {}).step (.applyView schema (load k).view schema 1) = .ok (entries k, o)) :
    ∃ regs, Inv now load ([] : List (Operation Cl K)) ⟨entries, fun _ => {}⟩ regs := by
  have fresh : ∀ k, ∃ r : Register (List Column), (entries k).Shows (columns now) r ∧
      (∀ v ∈ r.versions, columnsTs v.2 = v.1) ∧ r.versions = [(1, (load k).stored 1)] ∧ r.read = 0 := by
    intro k
    obtain ⟨o, next⟩ := loaded k
    have room : Room {} 1 := .inr (by decide)
    have first : promotedVersion 0 0 1 = 1 := by decide
    rcases (Table.ofPartition now addr).write next room (.inl (by decide)) with
      ⟨-, -, le, -⟩ | ⟨n, new, -, -, hn, -, -, table⟩
    · exact absurd le (by decide)
    · have one : n = 1 := hn.trans first
      subst one
      have shows := table.shows k
      have stamped := table.stamped k
      rw [update_self] at shows stamped
      rw [update_self] at shows
      exact ⟨_, shows, stamped, rfl, rfl⟩
  choose regs shows stamped versions read using fresh
  refine ⟨regs, ⟨shows, stamped⟩, fun k => ?_, fun k => ?_, fun k v hv => ?_, ?_, ?_, fun c => ?_, fun c => .nil, ?_⟩
  · rw [versions]
    exact mem_cons_self
  · have head : (regs k).versions.head? = some (1, (load k).stored 1) := by rw [versions]; rfl
    rw [read, Register.written_of_head head]
    exact (by decide : 0 < cap ∧ 1 < cap)
  · rw [versions] at hv
    exact .inl (mem_singleton.1 hv)
  · exact nofun
  · exact nofun
  · exact ⟨(by decide : (1 : Int) ≤ 1 ∧ 1 < versionCap), trivial⟩
  · exact nofun

variable [DecidableEq Cl] [HashCode K]

/-- There is one order of all operations that keeps the order of each client and in which every transaction
returns, for each of its keys, what the last write to that key before it wrote. -/
theorem moon_serializable (schema : S) (now : Int) (load : K → Insert) (addr : K → EntryAddr)
    (loaded : ∀ k, ∃ o, (Heap.ofPartition (addr k) {}).step (.applyView schema (load k).view schema 1) = .ok (entries k, o))
    {tr : List (Event Cl K × Option (Operation Cl K))} {s : State Cl K S Pos}
    (run : Run (State.step schema now) (fun _ s e => s.Permitted e) ⟨entries, fun _ => {}⟩ tr s) :
    ∃ order : List (Operation Cl K), order.Perm (operations tr) ∧
      (∀ c, order.filter (fun d => d.client = c) = (operations tr).filter fun d => d.client = c) ∧
      ∀ before after c keys t result, order = before ++ .read c keys t result :: after →
        ∀ k ∈ keys, k ∈ result.map Prod.fst ∧ ∀ cols, (k, cols) ∈ result →
          cols.map (fun c => (c.id, c.value)) = (lastWrite load k before).payload := by
  obtain ⟨regs, inv⟩ : ∃ regs, Inv now load (operations tr) s regs := by
    refine Run.invariant (fun tr s => ∃ regs, Inv now load (operations tr) s regs) (Inv.start now loaded) ?_ run
    rintro tr s e s' o ⟨regs, inv⟩ permitted next
    obtain ⟨regs', inv'⟩ := (State.transition next).inv inv permitted
    refine ⟨regs', ?_⟩
    have ops : operations (tr ++ [(e, o)]) = operations tr ++ o.toList := by
      cases o <;> simp [operations]
    rwa [ops]
  obtain ⟨order, perm, sorted, stable⟩ := exists_stable_sort Operation.rank (operations tr)
  refine ⟨order, perm, fun c => stable _ ?_, fun before after c keys t result parts k hk => ⟨?_, fun cols mem => ?_⟩⟩
  · rw [pairwise_filter]
    exact (inv.order c).imp fun h ha hb => h (of_decide_eq_true ha) (of_decide_eq_true hb)
  · have mem : Operation.read c keys t result ∈ operations tr :=
      perm.subset (parts ▸ mem_append_right _ mem_cons_self)
    exact (inv.reads c keys t result mem).1 k hk
  · exact inv.read_last perm sorted parts mem

end Serializable

section Concrete

/-- A client writes one of two keys and reads both. -/
theorem moon_serializable_read_own_write : ∃ (result : List (Nat × List Column)) (order : List (Operation Nat Nat)),
      order.Perm [.write 0 1 (putByte 9) ⟨true, 2⟩, .read 0 [0, 1] 2 result] ∧
      ∀ before after c keys t result, order = before ++ .read c keys t result :: after →
        ∀ k ∈ keys, k ∈ result.map Prod.fst ∧ ∀ cols, (k, cols) ∈ result →
          cols.map (fun c => (c.id, c.value)) = (lastWrite (fun k => putByte (.ofNat k)) k before).payload := by
  let entry : Nat → Usertable := fun k => entryAfter [.applyView usertable (putByte (.ofNat k)).view usertable 1]
  have loaded : ∀ k, ∃ o, (Heap.ofPartition 0 {}).step
      (.applyView usertable (putByte (.ofNat k)).view usertable 1) = .ok (entry k, o) := fun k => ⟨_, rfl⟩
  have run : Run (State.step usertable 0) (fun _ s e => s.Permitted e) ⟨entry, fun _ => {}⟩ _ _ :=
    .snoc (.snoc (.snoc (.snoc (.snoc (.snoc (.snoc .init (i := Event.startWrite 0 1 (putByte 9)) trivial rfl)
      (i := Event.arrive 0) (fun k i version pending => by cases pending; exact .inr (by decide)) rfl)
      (i := Event.acknowledge 0) trivial rfl)
      (i := Event.startRead 0 [0, 1]) trivial rfl)
      (i := Event.fetch 0 1) trivial rfl) (i := Event.fetch 0 0) trivial rfl) (i := Event.finish 0) trivial rfl
  obtain ⟨order, perm, -, reads⟩ := moon_serializable usertable 0 _ (fun _ => 0) loaded run
  exact ⟨_, order, perm, reads⟩

end Concrete

end Moon

end ScyllaMoon.Ycsb
