import ScyllaMoon.Table.ColumnFamily

/-!
# The entries of the memtables

Each request does one thing to the entry of one key: it brings the entry to the schema of the memtable, or
creates it, and lets it serve a request of its own. `Stores` connects an entry with the list of its versions,
and the invariants of memtables are stated of these lists.
-/

namespace ScyllaMoon.Table

open Lib Mvcc

variable {K S V P : Type}

/-- The entry stores `c`, and the snapshots on its versions have the schema of the entry. -/
structure MemtableEntry.Stores (e : MemtableEntry S P) (c : Chain S P) : Prop where
  sim : ∃ l, Sim e.pe l c
  pinned : c.PinnedWith e.schema

namespace MemtableEntry.Stores

variable {e : MemtableEntry S P} {c : Chain S P}

theorem ofPartition (schema : S) (a : EntryAddr) (mp : P) :
    (⟨schema, .ofPartition a mp⟩ : MemtableEntry S P).Stores (.ofPartition mp) where
  sim := ⟨_, .ofPartition a mp⟩
  pinned e he s hs := by
    cases List.mem_singleton.1 he
    cases hs

theorem fresh (h : e.Stores c) : c.snapshots c.nextSnapshot = none := by
  obtain ⟨l, sim⟩ := h.sim
  rw [← sim.next]
  exact sim.snapshots_none (sim.pins.fresh (Nat.le_refl _))

variable [PartitionOps S V P]

theorem step (h : e.Stores c) {op : Op S V P} {pe : Heap S P} {o : Answer P} (next : e.pe.step op = .ok (pe, o))
    (own : ∀ schema phase t, op = .read schema phase t → schema = e.schema)
    (keeps : ∀ fromSchema toSchema, op ≠ .upgrade fromSchema toSchema) :
    ∃ c', (⟨e.schema, pe⟩ : MemtableEntry S P).Stores c' ∧ c.Transition op c' o := by
  obtain ⟨l, sim⟩ := h.sim
  obtain ⟨c', l', sim', transition, -⟩ := sim.transition next
  exact ⟨c', ⟨⟨l', sim'⟩, transition.pinnedWith own keeps h.fresh h.pinned⟩, transition⟩

theorem upgrade (h : e.Stores c) {schema : S} {pe : Heap S P} (next : e.pe.upgrade e.schema schema = .ok pe) :
    ∃ c', (⟨schema, pe⟩ : MemtableEntry S P).Stores c' ∧ c.Transition (.upgrade e.schema schema) c' .done := by
  have served : e.pe.step (.upgrade e.schema schema) = .ok (pe, .done) := by
    simp only [Heap.step, next, ok_bind, pure_eq_ok]
  obtain ⟨l, sim⟩ := h.sim
  obtain ⟨c', l', sim', transition, -⟩ := sim.transition served
  refine ⟨c', ⟨⟨l', sim'⟩, ?_⟩, transition⟩
  cases transition with
  | upgrade =>
    intro x hx s hs
    cases List.mem_singleton.1 hx
    cases hs

theorem read (h : e.Stores c) (t : UInt32) : ∃ pe s c', e.pe.read e.schema defaultPhase t = .ok (pe, s) ∧
    pe.snapshotVersions s = .ok (e.schema, c.served t) ∧ (⟨e.schema, pe⟩ : MemtableEntry S P).Stores c' ∧
    c'.stored = c.stored ∧ ∃ o, c.Transition (.read e.schema defaultPhase t) c' o := by
  obtain ⟨l, sim⟩ := h.sim
  obtain ⟨pe, s, n, p, c', next, versions, sim', stored, transition⟩ := sim.read_served h.pinned defaultPhase t
  have pinned := transition.pinnedWith (fun _ _ _ eq => by cases eq; rfl) (fun _ _ eq => by cases eq) h.fresh h.pinned
  refine ⟨pe, s, c', ?_, versions, ⟨⟨l, sim'⟩, pinned⟩, stored, _, transition⟩
  obtain ⟨⟨pe', s'⟩, hr, next⟩ := bind_eq_ok.1 next
  obtain ⟨v, -, next⟩ := bind_eq_ok.1 next
  cases next
  exact hr

end MemtableEntry.Stores

namespace Memtable

variable [DecidableEq K] {m m' : Memtable K S P} {k k' : K} {e : MemtableEntry S P}

theorem lookup_put_self (m : Memtable K S P) (k : K) (e : MemtableEntry S P) : (m.put k e).partitions.lookup k = some e :=
  AList.lookup_insert _

theorem lookup_put_of_ne (m : Memtable K S P) (e : MemtableEntry S P) (h : k' ≠ k) :
    (m.put k e).partitions.lookup k' = m.partitions.lookup k' :=
  AList.lookup_insert_ne h

/-- Every entry stores good partitions. -/
def Ok (Good : P → Prop) (m : Memtable K S P) : Prop :=
  ∀ k e, m.partitions.lookup k = some e → ∃ c, e.Stores c ∧ c.Contents Good

/-- The memtable does not have `k` and `Q none`, or its entry has the memtable's schema and stores a chain
that is as `Q` says. -/
def At (k : K) (Q : Option (Chain S P) → Prop) (m : Memtable K S P) : Prop :=
  match m.partitions.lookup k with
  | none => Q none
  | some e => e.schema = m.schema ∧ ∃ c, e.Stores c ∧ Q (some c)

variable {Q : Option (Chain S P) → Prop}

theorem at_of_none (found : m.partitions.lookup k = none) : m.At k Q ↔ Q none := by
  rw [At, found]

theorem at_of_some (found : m.partitions.lookup k = some e) :
    m.At k Q ↔ e.schema = m.schema ∧ ∃ c, e.Stores c ∧ Q (some c) := by
  rw [At, found]

variable {c : Chain S P}

theorem at_put_self (schema : e.schema = m.schema) (stores : e.Stores c) (h : Q (some c)) : (m.put k e).At k Q :=
  (at_of_some (m.lookup_put_self k e)).2 ⟨schema, c, stores, h⟩

theorem at_put_of_ne (h : m.At k' Q) (ne : k' ≠ k) : (m.put k e).At k' Q := by
  unfold At at h ⊢
  rwa [m.lookup_put_of_ne e ne]

theorem Ok.put {Good : P → Prop} (h : m.Ok Good) (stores : e.Stores c) (contents : c.Contents Good) :
    (m.put k e).Ok Good := by
  intro k' e' found
  by_cases hk : k' = k
  · subst hk
    rw [m.lookup_put_self] at found
    cases found
    exact ⟨c, stores, contents⟩
  · rw [m.lookup_put_of_ne e hk] at found
    exact h k' e' found

variable [DecidableEq S] [PartitionOps S V P]

omit [DecidableEq K] in
theorem upgradeEntry_of_eq (h : e.schema = m.schema) : m.upgradeEntry e = .ok e := by
  rw [upgradeEntry, if_neg (not_not.2 h)]
  rfl

variable {e' : MemtableEntry S P}

omit [DecidableEq K] in
/-- An entry that is brought to the schema of the memtable. -/
theorem upgradeEntry_ok (stores : e.Stores c) (next : m.upgradeEntry e = .ok e') :
    e'.schema = m.schema ∧ ∃ c', e'.Stores c' ∧
      (c' = c ∨ c.Transition (.upgrade e.schema m.schema : Op S V P) c' .done) := by
  by_cases h : e.schema = m.schema
  · rw [upgradeEntry_of_eq h] at next
    cases next
    exact ⟨h, c, stores, .inl rfl⟩
  · rw [upgradeEntry, if_pos h] at next
    obtain ⟨pe, hu, next⟩ := bind_eq_ok.1 next
    cases next
    obtain ⟨c', stores', transition⟩ := stores.upgrade hu
    exact ⟨rfl, c', stores', .inr transition⟩

/-- What happens to a memtable that only serves readers. -/
inductive Reads (m : Memtable K S P) : Memtable K S P → Prop where
  | absent : Reads m m
  | read {k e e' t pe s} : m.partitions.lookup k = some e → m.upgradeEntry e = .ok e' →
      e'.pe.read e'.schema defaultPhase t = .ok (pe, s) → Reads m (m.put k ⟨e'.schema, pe⟩)
  | drop {k e s pe} : m.partitions.lookup k = some e → e.pe.dropSnapshot s = .ok pe →
      Reads m (m.put k ⟨e.schema, pe⟩)

variable {r : Option (S × List P)} {t : UInt32}

theorem makeFlatReader_ok (next : m.makeFlatReader k t = .ok (m', r)) :
    m.partitions.lookup k = none ∧ m' = m ∧ r = none ∨
      ∃ e e' pe s vs, m.partitions.lookup k = some e ∧ m.upgradeEntry e = .ok e' ∧
        e'.pe.read e'.schema defaultPhase t = .ok (pe, s) ∧ pe.snapshotVersions s = .ok vs ∧
        m' = m.put k ⟨e'.schema, pe⟩ ∧ r = some vs := by
  unfold makeFlatReader at next
  cases found : m.partitions.lookup k with
  | none =>
    rw [found] at next
    cases next
    exact .inl ⟨rfl, rfl, rfl⟩
  | some e =>
    rw [found] at next
    obtain ⟨e', hu, next⟩ := bind_eq_ok.1 next
    obtain ⟨⟨pe, s⟩, hr, next⟩ := bind_eq_ok.1 next
    obtain ⟨vs, hv, next⟩ := bind_eq_ok.1 next
    cases next
    exact .inr ⟨e, e', pe, s, vs, rfl, hu, hr, hv, rfl, rfl⟩

theorem reads_of_makeFlatReader (next : m.makeFlatReader k t = .ok (m', r)) : m.Reads m' := by
  rcases makeFlatReader_ok next with ⟨-, rfl, -⟩ | ⟨e, e', pe, s, vs, found, hu, hr, -, rfl, -⟩
  · exact .absent
  · exact .read found hu hr

theorem reads_of_drop {s : SnapshotId} (next : m.drop k s = .ok m') : m.Reads m' := by
  unfold drop at next
  cases found : m.partitions.lookup k with
  | none =>
    rw [found] at next
    cases next
  | some e =>
    rw [found] at next
    obtain ⟨pe, hd, next⟩ := bind_eq_ok.1 next
    cases next
    exact .drop found hd

theorem Reads.schema_eq (h : m.Reads m') : m'.schema = m.schema := by
  cases h <;> rfl

/-- Reads and drops keep what does not depend on the snapshots. -/
theorem Reads.at (h : m.Reads m') (inv : m.At k Q) (keeps : ∀ c c' (op : Op S V P) o, c.Transition op c' o →
      ((∃ schema phase t, op = .read schema phase t) ∨ ∃ s, op = .drop s) → Q (some c) → Q (some c')) :
    m'.At k Q := by
  cases h with
  | absent => exact inv
  | @read k' e e' t pe s found hu hr =>
    by_cases hk : k = k'
    · subst hk
      obtain ⟨schema, c, stores, hq⟩ := (at_of_some found).1 inv
      rw [upgradeEntry_of_eq schema] at hu
      cases hu
      obtain ⟨pe', s', c', hr', -, stores', -, o, transition⟩ := stores.read t
      cases hr.symm.trans hr'
      exact at_put_self schema stores' (keeps _ _ _ _ transition (.inl ⟨_, _, _, rfl⟩) hq)
    · exact at_put_of_ne inv hk
  | @drop k' e s pe found hd =>
    by_cases hk : k = k'
    · subst hk
      obtain ⟨schema, c, stores, hq⟩ := (at_of_some found).1 inv
      have served : e.pe.step (.drop s) = .ok (pe, .done) := by simp only [Heap.step, hd, ok_bind, pure_eq_ok]
      obtain ⟨c', stores', transition⟩ := stores.step served (fun _ _ _ eq => by cases eq) fun _ _ eq => by cases eq
      exact at_put_self schema stores' (keeps _ _ _ _ transition (.inr ⟨_, rfl⟩) hq)
    · exact at_put_of_ne inv hk

section Good

variable {GoodView : V → Prop} {Good : P → Prop}

section

variable (inv : ContentInvariant GoodView Good)
include inv

omit [DecidableEq K] in
theorem upgradeEntry_good {c : Chain S P} (stores : e.Stores c)
    (contents : c.Contents Good) (next : m.upgradeEntry e = .ok e') :
    e'.schema = m.schema ∧ ∃ c', e'.Stores c' ∧ c'.Contents Good := by
  obtain ⟨schema, c', stores', rfl | transition⟩ := upgradeEntry_ok stores next
  · exact ⟨schema, c', stores', contents⟩
  · exact ⟨schema, c', stores', transition.contents inv trivial contents⟩

theorem Reads.ok (h : m.Reads m') (ok : m.Ok Good) : m'.Ok Good := by
  cases h with
  | absent => exact ok
  | @read k e e' t pe s found hu hr =>
    obtain ⟨c, stores, contents⟩ := ok k e found
    obtain ⟨-, c', stores', contents'⟩ := upgradeEntry_good inv stores contents hu
    obtain ⟨pe', s', c'', hr', -, stores'', -, o, transition⟩ := stores'.read t
    cases hr.symm.trans hr'
    exact ok.put stores'' (transition.contents inv trivial contents')
  | @drop k e s pe found hd =>
    obtain ⟨c, stores, contents⟩ := ok k e found
    have served : e.pe.step (.drop s) = .ok (pe, .done) := by simp only [Heap.step, hd, ok_bind, pure_eq_ok]
    obtain ⟨c', stores', transition⟩ := stores.step served (fun _ _ _ eq => by cases eq) fun _ _ eq => by cases eq
    exact ok.put stores' (transition.contents inv trivial contents)

/-- The first reader of a memtable leaves an entry that serves the same again. -/
theorem at_of_makeFlatReader (ok : m.Ok Good) {r : Option (S × List P)} (next : m.makeFlatReader k t = .ok (m', r)) :
    m'.At k fun c => (∀ d, c = some d → d.Contents Good) ∧ r = c.map fun d => (m.schema, d.served t) := by
  rcases makeFlatReader_ok next with ⟨found, rfl, rfl⟩ | ⟨e, e', pe, s, vs, found, hu, hr, hv, rfl, rfl⟩
  · exact (at_of_none found).2 ⟨nofun, rfl⟩
  · obtain ⟨c, stores, contents⟩ := ok k e found
    obtain ⟨schema, c', stores', contents'⟩ := upgradeEntry_good inv stores contents hu
    obtain ⟨pe', s', c'', hr', hv', stores'', stored, o, transition⟩ := stores'.read t
    cases hr.symm.trans hr'
    cases hv.symm.trans hv'
    refine at_put_self schema stores'' ⟨?_, ?_⟩
    · rintro d ⟨⟩
      exact transition.contents inv trivial contents'
    · rw [Option.map_some, schema, Chain.served_congr stored]

end

/-- A memtable whose entry is current always has a reader. -/
theorem At.makeFlatReader (h : m.At k Q) (t : UInt32) :
    ∃ m' c, m.makeFlatReader k t = .ok (m', c.map fun d => (m.schema, d.served t)) ∧ Q c ∧ ∀ d, c = some d → d.elems ≠ [] := by
  cases found : m.partitions.lookup k with
  | none =>
    refine ⟨m, none, ?_, (at_of_none found).1 h, nofun⟩
    rw [Memtable.makeFlatReader, found]
    rfl
  | some e =>
    obtain ⟨schema, c, stores, hq⟩ := (at_of_some found).1 h
    obtain ⟨pe, s, c', hr, hv, -, -, -⟩ := stores.read t
    refine ⟨m.put k ⟨e.schema, pe⟩, some c, ?_, hq, ?_⟩
    · simp only [Memtable.makeFlatReader, found, upgradeEntry_of_eq schema, ok_bind, hr, hv, pure_eq_ok, ← schema,
        Option.map_some]
    · rintro d ⟨⟩
      obtain ⟨l, sim⟩ := stores.sim
      exact sim.elems_ne_nil

end Good

theorem findOrCreatePartition_ok (next : m.findOrCreatePartition k = .ok e) :
    m.partitions.lookup k = none ∧ e = ⟨m.schema, .ofPartition 0 (PartitionOps.empty m.schema)⟩ ∨
      ∃ e₀, m.partitions.lookup k = some e₀ ∧ m.upgradeEntry e₀ = .ok e := by
  unfold findOrCreatePartition at next
  cases found : m.partitions.lookup k with
  | none =>
    rw [found] at next
    cases next
    exact .inl ⟨rfl, rfl⟩
  | some e₀ =>
    rw [found] at next
    exact .inr ⟨e₀, rfl, next⟩

theorem apply_ok {mpv : V} {mpSchema : S} {v : UInt32} {r : WriteResult}
    (next : m.apply k mpv mpSchema v = .ok (m', r)) : ∃ e pe, m.findOrCreatePartition k = .ok e ∧
      e.pe.step (.applyView m.schema mpv mpSchema v) = .ok (pe, .write r) ∧ m' = m.put k ⟨e.schema, pe⟩ := by
  obtain ⟨e, found, next⟩ := bind_eq_ok.1 next
  obtain ⟨⟨pe, r'⟩, ha, next⟩ := bind_eq_ok.1 next
  cases next
  exact ⟨e, pe, found, by simp only [Heap.step, ha, ok_bind, pure_eq_ok], rfl⟩

theorem applyMutation_ok {mp : P} {mpSchema : S} (next : m.applyMutation k mp mpSchema = .ok m') :
    ∃ e pe, m.findOrCreatePartition k = .ok e ∧
      e.pe.step (.apply m.schema mp mpSchema) = .ok (pe, .done) ∧ m' = m.put k ⟨e.schema, pe⟩ := by
  obtain ⟨e, found, next⟩ := bind_eq_ok.1 next
  obtain ⟨pe, ha, next⟩ := bind_eq_ok.1 next
  cases next
  exact ⟨e, pe, found, by simp only [Heap.step, ha, ok_bind, pure_eq_ok], rfl⟩

end Memtable

namespace ColumnFamily

variable [DecidableEq K] [DecidableEq S] [PartitionOps S V P] {cf cf' : ColumnFamily K S P}

/-- One successful request against the table. -/
inductive Transition (cf : ColumnFamily K S P) : Request K S V P → ColumnFamily K S P → Prop where
  | apply {k mpv mpSchema v e pe r} : cf.active.findOrCreatePartition k = .ok e →
      e.pe.step (.applyView cf.active.schema mpv mpSchema v) = .ok (pe, .write r) →
      Transition cf (.apply k mpv mpSchema v) { cf with active := cf.active.put k ⟨e.schema, pe⟩ }
  | applyMutation {k mp mpSchema e pe} : cf.active.findOrCreatePartition k = .ok e →
      e.pe.step (.apply cf.active.schema mp mpSchema) = .ok (pe, .done) →
      Transition cf (.applyMutation k mp mpSchema) { cf with active := cf.active.put k ⟨e.schema, pe⟩ }
  | reads {req flushing active} : List.Forall₂ Memtable.Reads cf.flushing flushing → cf.active.Reads active →
      Transition cf req { cf with flushing, active }
  | sealed : Transition cf .sealActive
      { cf with flushing := cf.flushing ++ [cf.active], active := { schema := cf.schema } }
  | setSchema {s} : Transition cf (.setSchema s)
      { schema := s, flushing := cf.flushing.map fun m => { m with schema := s }, active := { cf.active with schema := s } }

variable {m : Memtable K S P} {ms ms' : List (Memtable K S P)}

theorem makeReaders_cons {k : K} {t : UInt32} {rs : List (S × List P)}
    (next : makeReaders k t (m :: ms) = .ok (ms', rs)) :
    ∃ m₁ r ms₁ rs₁, m.makeFlatReader k t = .ok (m₁, r) ∧ makeReaders k t ms = .ok (ms₁, rs₁) ∧
      ms' = m₁ :: ms₁ ∧ rs = r.toList ++ rs₁ := by
  obtain ⟨⟨m₁, r⟩, hm, next⟩ := bind_eq_ok.1 next
  obtain ⟨⟨ms₁, rs₁⟩, hms, next⟩ := bind_eq_ok.1 next
  cases next
  exact ⟨m₁, r, ms₁, rs₁, hm, hms, rfl, rfl⟩

theorem reads_of_makeReaders {k : K} {t : UInt32} : ∀ {ms' : List (Memtable K S P)}
    {rs : List (S × List P)}, makeReaders k t ms = .ok (ms', rs) → List.Forall₂ Memtable.Reads ms ms' := by
  induction ms with
  | nil =>
    rintro ms' rs ⟨⟩
    exact .nil
  | cons m ms ih =>
    intro ms' rs next
    obtain ⟨m₁, r, ms₁, rs₁, hm, hms, rfl, -⟩ := makeReaders_cons next
    exact .cons (Memtable.reads_of_makeFlatReader hm) (ih hms)

theorem forall₂_reads_refl (ms : List (Memtable K S P)) : List.Forall₂ Memtable.Reads ms ms :=
  List.forall₂_same.2 fun _ _ => .absent

theorem forall₂_reads_set {m' : Memtable K S P} (reads : m.Reads m') : ∀ {ms : List (Memtable K S P)} {i : Nat},
    ms[i]? = some m → List.Forall₂ Memtable.Reads ms (ms.set i m')
  | _ :: ms, 0, h => by
    cases h
    exact .cons reads (forall₂_reads_refl ms)
  | _ :: _, i + 1, h => .cons .absent (forall₂_reads_set reads (i := i) h)

theorem forall_of_reads {Q : Memtable K S P → Prop} (keeps : ∀ m m', m.Reads m' → Q m → Q m')
    (reads : List.Forall₂ Memtable.Reads ms ms') (h : ∀ m ∈ ms, Q m) :
    ∀ m' ∈ ms', Q m' := by
  induction reads with
  | nil => exact nofun
  | cons hm _ ih =>
    obtain ⟨first, rest⟩ := List.forall_mem_cons.1 h
    exact List.forall_mem_cons.2 ⟨keeps _ _ hm first, ih rest⟩

/-- One of the memtables serves a reader. -/
theorem onMemtable_reads {α : Type} {i : Option Nat} {f : Memtable K S P → Except Fault (Memtable K S P × α)}
    (reads : ∀ m m' a, f m = .ok (m', a) → m.Reads m') {a : α} (next : cf.onMemtable i f = .ok (cf', a)) :
    ∃ flushing active, cf' = { cf with flushing, active } ∧
      List.Forall₂ Memtable.Reads cf.flushing flushing ∧ cf.active.Reads active := by
  cases i with
  | none =>
    obtain ⟨⟨active, a'⟩, hf, next⟩ := bind_eq_ok.1 next
    cases next
    exact ⟨_, _, rfl, forall₂_reads_refl _, reads _ _ _ hf⟩
  | some i =>
    unfold onMemtable at next
    cases found : cf.flushing[i]? with
    | none =>
      simp only [found] at next
      cases next
    | some m =>
      simp only [found] at next
      obtain ⟨⟨m', a'⟩, hf, next⟩ := bind_eq_ok.1 next
      cases next
      exact ⟨_, _, rfl, forall₂_reads_set (reads _ _ _ hf) found, .absent⟩

/-- Every successful request is one of the transitions. -/
theorem transition {req : Request K S V P} {o : Response S P} (next : cf.step req = .ok (cf', o)) :
    cf.Transition req cf' := by
  cases req with
  | apply k mpv mpSchema v =>
    obtain ⟨⟨active, r⟩, ha, next⟩ := bind_eq_ok.1 next
    cases next
    obtain ⟨e, pe, found, served, rfl⟩ := Memtable.apply_ok ha
    exact .apply found served
  | applyMutation k mp mpSchema =>
    obtain ⟨active, ha, next⟩ := bind_eq_ok.1 next
    cases next
    obtain ⟨e, pe, found, served, rfl⟩ := Memtable.applyMutation_ok ha
    exact .applyMutation found served
  | read k t =>
    obtain ⟨⟨flushing, rs⟩, hf, next⟩ := bind_eq_ok.1 next
    obtain ⟨⟨active, r⟩, ha, next⟩ := bind_eq_ok.1 next
    cases next
    exact .reads (reads_of_makeReaders hf) (Memtable.reads_of_makeFlatReader ha)
  | scan i k =>
    obtain ⟨⟨cf₁, r⟩, hm, next⟩ := bind_eq_ok.1 next
    cases next
    obtain ⟨flushing, active, rfl, hf, ha⟩ := onMemtable_reads (fun _ _ _ => Memtable.reads_of_makeFlatReader) hm
    exact .reads hf ha
  | drop i k s =>
    have reads : ∀ (m m' : Memtable K S P) (a : Response S P), (m.drop k s >>= fun m => .ok (m, .done)) = .ok (m', a) →
        m.Reads m' := by
      intro m m' a hd
      obtain ⟨m₁, dropped, eq⟩ := bind_eq_ok.1 hd
      cases eq
      exact Memtable.reads_of_drop dropped
    obtain ⟨flushing, active, rfl, hf, ha⟩ := onMemtable_reads reads next
    exact .reads hf ha
  | sealActive =>
    simp only [step] at next
    split at next <;> cases next
    · exact .reads (forall₂_reads_refl _) .absent
    · exact .sealed
  | setSchema s =>
    cases next
    exact .setSchema

end ColumnFamily

end ScyllaMoon.Table
