import ScyllaMoon.Ycsb.Table
import ScyllaMoon.Ycsb.TwoRounds.Read

/-!
# Two-round transactions read a snapshot

The versions of the first round close their registers, because no write is numbered below another one; those
of the second round do, because the read is noted and tagged writes are numbered above it. Untagged writes
are not: they are numbered by `highest_version_written` alone, and outside the table `data` their versions
are not returned to the reader at all.
-/

namespace ScyllaMoon.Ycsb.TwoRounds

open Lib Mutation Mvcc List

section

variable {K S Pos : Type} [DecidableEq K] [Position Pos] [SchemaOps S Cell]

namespace State

/-- There is room for every version, and the transaction starts when all its keys have one. -/
def Permitted (keys : List K) (s : State K S Pos) : Event K → Prop
  | .write k _ v => Room (s.entries k).entry v
  | .start => ∀ k ∈ keys, ∃ n ∈ (s.entries k).numbers, n ≠ 0
  | _ => True

/-- A write is tagged, or goes to the table `data` and to a key that was not read above its newest version. -/
def Versioned (schema : S) (s : State K S Pos) : Event K → Prop
  | .write k _ v => v ≠ 0 ∨ SchemaOps.cfName Cell schema = "data" ∧
      (s.entries k).entry.highestVersionRead ≤ (s.entries k).entry.highestVersionWritten
  | _ => True

end State

section Check

omit [DecidableEq K]

variable {fetched : List (K × List Column)}

/-- The loop from `keys_ts` and `inconsistent` on. -/
theorem check_loop (stamped : ∀ e ∈ fetched, 0 < columnsTs e.2) {ts : Int} {b : Bool}
    (pos : 0 ≤ ts) {r : Int × Bool} (h : fetched.foldl (fun acc e =>
      let colsTs := columnsTs e.2
      (if colsTs > acc.1 then colsTs else acc.1, acc.2 || (colsTs != acc.1 && acc.1 != 0))) (ts, b) = r) :
    ts ≤ r.1 ∧ (∀ e ∈ fetched, columnsTs e.2 ≤ r.1) ∧ (r.1 = ts ∨ ∃ e ∈ fetched, columnsTs e.2 = r.1) ∧
      (r.2 = false → b = false ∧ (ts ≠ 0 → r.1 = ts) ∧ ∀ e ∈ fetched, columnsTs e.2 = r.1) := by
  induction fetched generalizing ts b with
  | nil =>
    subst h
    exact ⟨Int.le_refl _, nofun, .inl rfl, fun hb => ⟨hb, fun _ => rfl, nofun⟩⟩
  | cons e fetched ih =>
    obtain ⟨first, stamped⟩ := forall_mem_cons.1 stamped
    have least : ts ≤ (if columnsTs e.2 > ts then columnsTs e.2 else ts) ∧
        columnsTs e.2 ≤ (if columnsTs e.2 > ts then columnsTs e.2 else ts) := by
      split <;> omega
    obtain ⟨grows, all, some, consistent⟩ := ih stamped (Int.le_trans pos least.1) h
    refine ⟨Int.le_trans least.1 grows, forall_mem_cons.2 ⟨Int.le_trans least.2 grows, all⟩, ?_, fun hr => ?_⟩
    · rcases some with same | ⟨x, hx, same⟩
      · split at same
        · exact .inr ⟨e, mem_cons_self, same.symm⟩
        · exact .inl same
      · exact .inr ⟨x, mem_cons_of_mem _ hx, same⟩
    · obtain ⟨hb, fixed, same⟩ := consistent hr
      obtain ⟨hb, equal⟩ := Bool.or_eq_false_iff.1 hb
      have fixed := fixed (by omega)
      -- either this is the first key, or it agrees with those before
      have both : columnsTs e.2 = ts ∨ ts = 0 := by
        by_cases h0 : ts = 0
        · exact .inr h0
        · exact .inl (by simpa [h0] using equal)
      refine ⟨hb, fun h0 => ?_, forall_mem_cons.2 ⟨?_, same⟩⟩
      · rw [fixed, both.resolve_right h0]
        simp
      · rw [fixed]
        split <;> omega

/-- What the check of the first round finds out, if the columns of every key are stamped. -/
theorem check_spec (stamped : ∀ e ∈ fetched, 0 < columnsTs e.2) {ts : Int} {b : Bool} (h : check fetched = (ts, b)) :
    0 ≤ ts ∧ (∀ e ∈ fetched, columnsTs e.2 ≤ ts) ∧ (ts = 0 ∨ ∃ e ∈ fetched, columnsTs e.2 = ts) ∧
      (b = false → ∀ e ∈ fetched, columnsTs e.2 = ts) := by
  obtain ⟨pos, all, some, consistent⟩ := check_loop stamped (Int.le_refl 0) h
  exact ⟨pos, all, some, fun hb => (consistent hb).2.2⟩

end Check

/-- What the registers of the keys have to do with where the reader is. -/
def Round (keys : List K) (regs : K → Register (List Column)) : Phase K → Prop
  | .first _ fetched => (∀ k ∈ keys, (regs k).versions ≠ []) ∧
      ∀ e ∈ fetched, ∃ n, 0 < n ∧ (regs e.1).Fixed n (n, e.2)
  | .second _ keysTs fetched => ∃ t : Nat, keysTs = t ∧ 0 < t ∧ t < 4294967296 ∧
      (∀ k ∈ keys, ∃ v ∈ (regs k).versions, v.1 ≤ t) ∧ ∀ e ∈ fetched, ∃ n, (regs e.1).Fixed t (n, e.2)
  | .ok result => (∀ k ∈ keys, k ∈ result.map Prod.fst) ∧
      ∃ t < 4294967296, ∀ e ∈ result, ∃ n, (regs e.1).Fixed t (n, e.2)
  | _ => True

section Steps

variable {schema : S} {now : Int} {keys : List K} {s s' : State K S Pos} {regs regs' : K → Register (List Column)}

omit [DecidableEq K] in
theorem Round.mono {phase : Phase K} (h : Round keys regs phase) (later : ∀ k, (regs k).Extends (regs' k)) :
    Round keys regs' phase := by
  cases phase with
  | first turns fetched =>
    obtain ⟨loaded, fixed⟩ := h
    refine ⟨fun k hk => ?_, fun e he => ?_⟩
    · obtain ⟨v, vs, hv⟩ := exists_cons_of_ne_nil (loaded k hk)
      exact ne_nil_of_mem ((later k).versions v (hv ▸ mem_cons_self))
    · obtain ⟨n, pos, hn⟩ := fixed e he
      exact ⟨n, pos, (later e.1).fixed _ _ hn⟩
  | second turns keysTs fetched =>
    obtain ⟨t, ht, pos, small, old, fixed⟩ := h
    refine ⟨t, ht, pos, small, fun k hk => ?_, fun e he => ?_⟩
    · obtain ⟨v, hv, le⟩ := old k hk
      exact ⟨v, (later k).versions v hv, le⟩
    · exact (fixed e he).imp fun n hn => (later e.1).fixed _ _ hn
  | ok result =>
    obtain ⟨all, t, small, fixed⟩ := h
    exact ⟨all, t, small, fun e he => (fixed e he).imp fun n hn => (later e.1).fixed _ _ hn⟩
  | ready => trivial
  | error => trivial

omit [DecidableEq K] in
theorem fixed_append {t : Nat} {k : K} {cols : List Column} {n : Nat} {fetched : List (K × List Column)}
    (later : ∀ k, (regs k).Extends (regs' k)) (fixed : ∀ e ∈ fetched, ∃ n, (regs e.1).Fixed t (n, e.2))
    (new : (regs' k).Fixed t (n, cols)) : ∀ e ∈ fetched ++ [(k, cols)], ∃ n, (regs' e.1).Fixed t (n, e.2) := by
  intro e he
  rcases mem_append.1 he with he | he
  · exact (fixed e he).imp fun n hn => (later e.1).fixed _ _ hn
  · rw [mem_singleton.1 he]
    exact ⟨n, new⟩

/-- An event leaves later registers; an accepted write is above everything that is closed. -/
structure Advances (s' : State K S Pos) (now : Int) (keys : List K) (regs regs' : K → Register (List Column))
    (e : Event K) (o : Option WriteResult) : Prop where
  table : Table now s'.entries regs'
  later : ∀ k, (regs k).Extends (regs' k)
  round : Round keys regs' s'.phase
  above : ∀ k i v r, e = .write k i v → o = some r → r.accepted = true → ∀ t, (regs k).Closed t →
    t < r.commitVersion.toNat

omit [DecidableEq K] [SchemaOps S Cell] in
theorem Advances.of_phase {e : Event K} {phase : Phase K} (table : Table now s.entries regs)
    (round : Round keys regs phase) (other : ∀ k i v, e ≠ .write k i v) :
    Advances { s with phase } now keys regs regs e none :=
  ⟨table, fun _ => .refl _, round, fun k i v _ h => absurd h (other k i v)⟩

section Events

variable {k : K} {w : Heap S (MutationPartition Pos Cell)} {turns : Nat} {keysTs : Int} {fetched : List (K × List Column)}
  (table : Table now s.entries regs)

include table

theorem Advances.write {i : Insert} {v : UInt32} {r : WriteResult} (round : Round keys regs s.phase)
    (permitted : s.Permitted keys (.write k i v)) (versioned : s.Versioned schema (.write k i v))
    (next : (s.entries k).step (.applyView schema i.view schema v) = .ok (w, .write r)) :
    ∃ regs', Advances { s with entries := Function.update s.entries k w } now keys regs regs' (.write k i v) (some r) := by
  have stamps : v ≠ 0 ∨ SchemaOps.cfName Cell schema = "data" := versioned.imp_right And.left
  rcases table.write next permitted stamps with ⟨ho, -, -, table'⟩ | ⟨n, new, ho, -, -, tagged, plain, table'⟩
  · refine ⟨regs, table', fun _ => .refl _, round, fun _ _ _ r' _ hr acc => ?_⟩
    cases ho
    cases hr
    cases acc
  · cases ho
    have unread : (regs k).read < n.toNat := by
      by_cases hv : v = 0
      · have le := UInt32.le_iff_toNat_le.1 (versioned.resolve_left (not_not_intro hv)).2
        rw [(table.shows k).read, (table.shows k).written] at le
        have := plain hv
        omega
      · exact (tagged hv).1
    have later := extends_update (Register.extends_push (a := i.stored n) new unread)
    refine ⟨_, table', later, round.mono later, fun k' i' v' r' he hr acc t closed => ?_⟩
    cases he
    cases hr
    exact closed.lt new unread

omit [DecidableEq K] [SchemaOps S Cell]

variable (round : Round keys regs (.first turns fetched))
include round

/-- What is fetched in the first round is the newest version. -/
theorem Round.fetchFirst {n : Nat} {cols : List Column}
    (head : (regs k).versions.head? = some (n, cols)) (later : ∀ k, (regs k).Extends (regs' k)) :
    Round keys regs' (.first turns (fetched ++ [(k, cols)])) := by
  obtain ⟨loaded, fixed⟩ := round.mono later
  refine ⟨loaded, fun e he => ?_⟩
  rcases mem_append.1 he with he | he
  · exact fixed e he
  · rw [mem_singleton.1 he]
    have closed : (regs k).Closed n := .inl (Register.written_of_head head).ge
    exact ⟨n, (table.shows k).positive (mem_of_head? head), (later k).fixed _ _ ⟨Register.get_head head, closed⟩⟩

/-- In the first round the newest version of the columns is their version. -/
theorem Round.stamps {e : K × List Column} (he : e ∈ fetched) :
    ∃ n : Nat, 0 < n ∧ n < 4294967296 ∧ columnsTs e.2 = n ∧ (regs e.1).Fixed n (n, e.2) := by
  obtain ⟨n, pos, hn⟩ := round.2 e he
  have mem := Register.mem_of_get hn.get
  exact ⟨n, pos, (table.shows e.1).lt_size mem, table.stamped e.1 _ mem, hn⟩

theorem Round.stamped : ∀ e ∈ fetched, 0 < columnsTs e.2 := by
  intro e he
  obtain ⟨n, pos, -, ts, -⟩ := Round.stamps table round he
  omega

/-- The second round is at the newest of the versions of the first one. -/
theorem Round.again (all : ∀ k ∈ keys, k ∈ fetched.map Prod.fst)
    (checked : check fetched = (keysTs, true)) : Round keys regs (.second turns keysTs []) := by
  have stamped := Round.stamped table round
  obtain ⟨-, le, some, -⟩ := check_spec stamped checked
  obtain ⟨x, hx⟩ : ∃ x, x ∈ fetched := by
    cases fetched with
    | nil => cases checked
    | cons x fetched => exact ⟨x, mem_cons_self⟩
  have pos : 0 < keysTs := Int.lt_of_lt_of_le (stamped x hx) (le x hx)
  obtain ⟨y, hy, ts⟩ := some.resolve_left (Int.ne_of_gt pos)
  obtain ⟨t, -, small, ht, -⟩ := Round.stamps table round hy
  obtain rfl : keysTs = t := ts.symm.trans ht
  refine ⟨t, rfl, by omega, small, fun k hk => ?_, nofun⟩
  obtain ⟨e, he, rfl⟩ := mem_map.1 (all k hk)
  obtain ⟨n, -, -, hn, fixed⟩ := Round.stamps table round he
  have := le e he
  exact ⟨_, Register.mem_of_get fixed.get, by dsimp only; omega⟩

/-- Without a second round, all columns are of one version. -/
theorem Round.accept (all : ∀ k ∈ keys, k ∈ fetched.map Prod.fst)
    (checked : check fetched = (keysTs, false)) : Round keys regs (.ok fetched) := by
  obtain ⟨-, -, some, same⟩ := check_spec (Round.stamped table round) checked
  refine ⟨all, keysTs.toNat, ?_, fun e he => ?_⟩
  · rcases some with rfl | ⟨y, hy, ts⟩
    · decide
    · obtain ⟨t, -, small, ht, -⟩ := Round.stamps table round hy
      omega
  · obtain ⟨n, -, -, hn, fixed⟩ := Round.stamps table round he
    have : keysTs.toNat = n := by
      have := same rfl e he
      omega
    rw [this]
    exact ⟨n, fixed⟩

end Events

theorem State.Transition.advances {e : Event K} {o : Option WriteResult} (h : s.Transition schema now keys e s' o)
    (table : Table now s.entries regs) (round : Round keys regs s.phase) (permitted : s.Permitted keys e)
    (versioned : s.Versioned schema e) : ∃ regs', Advances s' now keys regs regs' e o := by
  cases h with
  | write next => exact Advances.write table round permitted versioned next
  | @read k version w o next =>
    have later := extends_update (Register.extends_note (regs k) version.toNat)
    exact ⟨_, (table.read next).1, later, round.mono later, fun _ _ _ _ he => by cases he⟩
  | drop next => exact ⟨regs, table.drop next, fun _ => .refl _, round, fun _ _ _ _ he => by cases he⟩
  | start phase =>
    refine ⟨regs, .of_phase table ⟨fun k hk => ?_, nofun⟩ nofun⟩
    obtain ⟨n, hn, pos⟩ := permitted k hk
    obtain ⟨v, hv, -⟩ := (table.shows k).exists_version hn pos
    exact ne_nil_of_mem hv
  | @fetchFirst k turns fetched w snapshot n p phase key next =>
    rw [phase] at round
    obtain ⟨table', _, n', p', ho, newest, -⟩ := table.read next
    cases ho
    have later := extends_update (Register.extends_note (regs k) (0 : UInt32).toNat)
    exact ⟨_, table', later, .fetchFirst table round (newest rfl (round.1 k key)) later, fun _ _ _ _ he => by cases he⟩
  | @fetchSecond k turns keysTs fetched w snapshot n p phase key next =>
    rw [phase] at round
    obtain ⟨t, rfl, pos, small, old, fixed⟩ := round
    obtain ⟨table', _, n', p', ho, -, newest⟩ := table.read next
    cases ho
    have size : (UInt32.ofNat (t : Int).toNat).toNat = t := by
      exact Nat.mod_eq_of_lt small
    have ne : UInt32.ofNat (t : Int).toNat ≠ 0 := fun h0 => by
      rw [h0] at size
      exact absurd size.symm (Nat.ne_of_gt pos)
    rw [size] at newest table'
    have later := extends_update (Register.extends_note (regs k) t)
    have new : (Function.update regs k ((regs k).note t) k).Fixed t (n.toNat, columns now p) := by
      rw [Function.update_self]
      exact ⟨newest ne (old k key), Register.closed_note⟩
    refine ⟨_, table', later, ⟨t, rfl, pos, small, fun k' hk => ?_, fixed_append later fixed new⟩,
      fun _ _ _ _ he => by cases he⟩
    obtain ⟨v, hv, le⟩ := old k' hk
    exact ⟨v, (later k').versions v hv, le⟩
  | again phase all checked => exact ⟨regs, .of_phase table (.again table (phase ▸ round) all checked) nofun⟩
  | accept phase all checked => exact ⟨regs, .of_phase table (.accept table (phase ▸ round) all checked) nofun⟩
  | @done turns keysTs fetched phase all =>
    rw [phase] at round
    obtain ⟨t, -, -, small, -, fixed⟩ := round
    exact ⟨regs, .of_phase table ⟨all, t, small, fixed⟩ nofun⟩
  | retry | giveUp => exact ⟨regs, .of_phase table trivial nofun⟩

end Steps

/-- In every continuation of the run the payload returned for each key is that of the newest version up to `t`,
and no write to one of the keys is accepted under a number up to `t`. -/
def Snapshot (schema : S) (now : Int) (keys : List K) (allowed : State K S Pos → Event K → Prop) (s : State K S Pos)
    (result : List (K × List Column)) (t : UInt32) : Prop :=
  ∀ tr s', Run (State.step schema now keys) (fun _ s e => allowed s e) s tr s' → ∀ k ∈ keys,
    (∃ cols n p, (k, cols) ∈ result ∧ (s'.entries k).newestUpTo t = some (n, p) ∧ n ≠ 0 ∧ cols = columns now p) ∧
    ∀ i v r, (.write k i v, some r) ∈ tr → r.accepted = true → t < r.commitVersion

/-- A table without data, and a reader that has not started. -/
def State.init (addr : K → EntryAddr) (turns : Nat) : State K S Pos :=
  ⟨fun k => Heap.ofPartition (addr k) {}, .ready turns⟩

/-- A two-round transaction reads a snapshot, if writes are stamped and none is numbered below a read. -/
theorem two_rounds_snapshot (schema : S) (now : Int) (keys : List K) (addr : K → EntryAddr) (turns : Nat)
    {tr : List (Event K × Option WriteResult)} {s : State K S Pos} {result : List (K × List Column)}
    (run : Run (State.step schema now keys) (fun _ s e => s.Permitted keys e ∧ s.Versioned schema e)
      (State.init addr turns) tr s) (ok : s.phase = .ok result) :
    ∃ t, Snapshot schema now keys (fun s e => s.Permitted keys e ∧ s.Versioned schema e) s result t := by
  have inv : ∃ regs, Table now s.entries regs ∧ Round keys regs s.phase := by
    have start : ∃ regs, Table now (State.init addr turns : State K S Pos).entries regs ∧
        Round keys regs (State.init addr turns : State K S Pos).phase :=
      ⟨fun _ => .empty, .ofPartition now addr, trivial⟩
    refine Run.invariant (fun _ s => ∃ regs, Table now s.entries regs ∧ Round keys regs s.phase) start ?_ run
    rintro tr s e s' o ⟨regs, table, round⟩ ⟨permitted, versioned⟩ next
    obtain ⟨regs', advances⟩ := (State.transition next).advances table round permitted versioned
    exact ⟨regs', advances.table, advances.round⟩
  obtain ⟨regs, table, round⟩ := inv
  have here := round
  rw [ok] at here
  obtain ⟨all, t, small, fixed⟩ := here
  have size : (UInt32.ofNat t).toNat = t := by
    exact Nat.mod_eq_of_lt small
  refine ⟨UInt32.ofNat t, fun tr' s' run' k hk => ?_⟩
  obtain ⟨⟨k, cols⟩, mem, rfl⟩ := mem_map.1 (all k hk)
  -- what is fixed in `s` stays so
  have later : ∃ regs', Table now s'.entries regs' ∧ Round keys regs' s'.phase ∧
      (∃ n, (regs' k).Fixed t (n, cols)) ∧ ∀ i v r, (.write k i v, some r) ∈ tr' → r.accepted = true →
        t < r.commitVersion.toNat := by
    refine Run.invariant (fun tr' s' => ∃ regs', Table now s'.entries regs' ∧ Round keys regs' s'.phase ∧
      (∃ n, (regs' k).Fixed t (n, cols)) ∧ ∀ i v r, (.write k i v, some r) ∈ tr' → r.accepted = true →
        t < r.commitVersion.toNat)
      ⟨regs, table, round, fixed _ mem, nofun⟩ ?_ run'
    rintro tr' s e s' o ⟨regs, table, round, ⟨n, fixed⟩, above⟩ ⟨permitted, versioned⟩ next
    obtain ⟨regs', advances⟩ := (State.transition next).advances table round permitted versioned
    refine ⟨regs', advances.table, advances.round, ⟨n, (advances.later k).fixed _ _ fixed⟩, fun i v r hm acc => ?_⟩
    rcases mem_append.1 hm with hm | hm
    · exact above i v r hm acc
    · obtain ⟨rfl, rfl⟩ := Prod.mk.inj (mem_singleton.1 hm)
      exact advances.above k i v r rfl rfl acc t fixed.closed
  obtain ⟨regs', table', -, ⟨n, fixed'⟩, above⟩ := later
  refine ⟨?_, fun i v r hm acc => ?_⟩
  · obtain ⟨m, p, newest, -, pos, cols'⟩ := (table'.shows k).newestUpTo (by rw [size]; exact fixed'.get)
    exact ⟨cols, m, p, mem, newest, pos, cols'.symm⟩
  · rw [UInt32.lt_iff_toNat_lt, size]
    exact above i v r hm acc

end

section Concrete

open Event (write start fetch endFirst)

open State (step init)

theorem two_rounds_snapshot_consistent :
    ∃ (s : State Nat TableSchema Nat) (result : List (Nat × List Column)) (t : UInt32), s.phase = .ok result ∧
      Snapshot usertable 0 [0, 1] (fun s e => s.Permitted [0, 1] e ∧ s.Versioned usertable e) s result t := by
  have room : ∀ e : PartitionEntry, e.numVersions = 0 → e.highestVersionRead = 0 → Room e 1 := by
    intro e num read
    right
    rw [num, read]
    exact ⟨by decide, by decide, fun h => absurd h (by decide), by decide⟩
  have run : Run (step usertable 0 [0, 1]) (fun _ s e => s.Permitted [0, 1] e ∧ s.Versioned usertable e)
      (init id 1 : State Nat TableSchema Nat) _ _ :=
    .snoc (.snoc (.snoc (.snoc (.snoc (.snoc .init
      (i := write 0 (putByte 7) 1) ⟨room _ rfl rfl, .inl (by decide)⟩ rfl)
      (i := write 1 (putByte 8) 1) ⟨room _ rfl rfl, .inl (by decide)⟩ rfl)
      (i := start) ⟨by unfold State.Permitted; decide, trivial⟩ rfl)
      (i := fetch 0) ⟨trivial, trivial⟩ rfl) (i := fetch 1) ⟨trivial, trivial⟩ rfl)
      (i := endFirst) ⟨trivial, trivial⟩ rfl
  obtain ⟨t, snapshot⟩ := two_rounds_snapshot usertable 0 [0, 1] id 1 run rfl
  exact ⟨_, _, t, rfl, snapshot⟩

/-- The column family of YCSB. -/
def dataTable : TableSchema := { usertable with cfName := "data" }

/-- The version of the key 0 that was read is numbered 2, and a write to the key 1 can still be numbered 2. -/
theorem no_snapshot {schema : TableSchema} {s s' : State Nat TableSchema Nat} {result : List (Nat × List Column)}
    {i : Insert} {v : UInt32} {p₀ p₁ : MutationPartition Nat Cell}
    (run : Run (step schema 0 [0, 1]) (fun _ s e => s.Permitted [0, 1] e) s [(.write 1 i v, some ⟨true, 2⟩)] s')
    (zero : (s.entries 0).newestUpTo 0 = some (0, p₀)) (one : (s.entries 0).newestUpTo 1 = some (1, p₁))
    (other : (0, columns 0 p₁) ∉ result) (t : UInt32) :
    ¬Snapshot schema 0 [0, 1] (fun s e => s.Permitted [0, 1] e) s result t := by
  intro snapshot
  have lt : t < 2 := (snapshot _ _ run 1 (by decide)).2 i v _ mem_cons_self rfl
  obtain ⟨cols, n, p, mem, newest, pos, rfl⟩ := (snapshot _ _ .init 0 (by decide)).1
  have cases : t = 0 ∨ t = 1 := by
    simp only [← UInt32.toNat_inj]
    exact Nat.le_one_iff_eq_zero_or_eq_one.1 (Nat.le_of_lt_succ lt)
  rcases cases with rfl | rfl
  · cases zero.symm.trans newest
    exact pos rfl
  · cases one.symm.trans newest
    exact other mem

/-- Untagged writes break the snapshot: in the table `data` one is stored at the version that was read, and in
another table the reader does not see that the versions of its keys differ. -/
theorem untagged_breaks_snapshot :
    (∃ tr s result, Run (step dataTable 0 [0, 1]) (fun _ s e => s.Permitted [0, 1] e)
        (init id 1 : State Nat TableSchema Nat) tr s ∧ s.phase = .ok result ∧
      ∀ t, ¬Snapshot dataTable 0 [0, 1] (fun s e => s.Permitted [0, 1] e) s result t) ∧
    ∃ tr s result, Run (step usertable 0 [0, 1]) (fun _ s e => s.Permitted [0, 1] e)
        (init id 1 : State Nat TableSchema Nat) tr s ∧ s.phase = .ok result ∧
      ∀ t, ¬Snapshot usertable 0 [0, 1] (fun s e => s.Permitted [0, 1] e) s result t := by
  have room : ∀ e : PartitionEntry, e.numVersions < 100 → e.highestVersionWritten < 100 → Room e 0 := by
    intro e num written
    exact .inr ⟨num, by decide, fun _ => Nat.lt_trans (Nat.add_lt_add_right written 1) (by decide), absurd rfl⟩
  constructor
  · have run : Run (step dataTable 0 [0, 1]) (fun _ s e => s.Permitted [0, 1] e)
        (init id 1 : State Nat TableSchema Nat) _ _ :=
      .snoc (.snoc (.snoc (.snoc (.snoc (.snoc (.snoc (.snoc (.snoc (.snoc .init
        (i := write 0 (putByte 7) 0) (room _ (by decide) (by decide)) rfl)
        (i := write 0 (putByte 8) 0) (room _ (by decide) (by decide)) rfl)
        (i := write 1 (putByte 9) 0) (room _ (by decide) (by decide)) rfl)
        (i := start) (by unfold State.Permitted; decide) rfl)
        (i := fetch 0) trivial rfl) (i := fetch 1) trivial rfl) (i := endFirst) trivial rfl)
        (i := fetch 0) trivial rfl) (i := fetch 1) trivial rfl) (i := Event.endSecond) trivial rfl
    refine ⟨_, _, _, run, rfl, no_snapshot (.snoc .init (i := write 1 (putByte 5) 0)
      (room _ (by decide) (by decide)) rfl) rfl rfl (by decide)⟩
  · have run : Run (step usertable 0 [0, 1]) (fun _ s e => s.Permitted [0, 1] e)
        (init id 1 : State Nat TableSchema Nat) _ _ :=
      .snoc (.snoc (.snoc (.snoc (.snoc (.snoc (.snoc .init
        (i := write 0 (putByte 7) 0) (room _ (by decide) (by decide)) rfl)
        (i := write 0 (putByte 8) 0) (room _ (by decide) (by decide)) rfl)
        (i := write 1 (putByte 9) 0) (room _ (by decide) (by decide)) rfl)
        (i := start) (by unfold State.Permitted; decide) rfl)
        (i := fetch 0) trivial rfl) (i := fetch 1) trivial rfl) (i := endFirst) trivial rfl
    exact ⟨_, _, _, run, rfl, no_snapshot (.snoc .init (i := write 1 (putByte 5) 0)
      (room _ (by decide) (by decide)) rfl) rfl rfl (by decide)⟩

end Concrete

end ScyllaMoon.Ycsb.TwoRounds
