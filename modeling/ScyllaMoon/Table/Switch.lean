import ScyllaMoon.Reader.Combined
import ScyllaMoon.Table.Entries

/-!
# Versioned reads across a memtable switch

After the active memtable is sealed, writes go to a new `partition_entry`, which knows neither the versions
nor the reads of the old one. It numbers them from 1 again, and where none of its versions is old enough a
read gets the newest one. So a read at `t` that was answered before the switch keeps its answer only as long
as the later writes add nothing to it.
-/

namespace ScyllaMoon.Table

open Lib Mvcc Mutation Reader Memtable List

variable {K S Pos C : Type} [DecidableEq K] [DecidableEq S] [Position Pos] [CellOps C] [SchemaOps S C]

/-- What the request brings is well-formed. -/
def Request.Brings : Request K S (MutationPartitionView Pos C) (MutationPartition Pos C) → Prop
  | .apply _ mpv _ _ => mpv.WellFormed
  | .applyMutation _ mp _ => mp.WellFormed
  | _ => True

namespace ColumnFamily

variable {cf cf' : ColumnFamily K S (MutationPartition Pos C)}

/-- All memtables have the schema of the table and well-formed partitions. -/
structure Ok (cf : ColumnFamily K S (MutationPartition Pos C)) : Prop where
  flushing : ∀ m ∈ cf.flushing, m.schema = cf.schema ∧ m.Ok MutationPartition.WellFormed
  active : cf.active.schema = cf.schema ∧ cf.active.Ok MutationPartition.WellFormed

omit [DecidableEq S] [CellOps C] [SchemaOps S C] in
theorem ok_ofSchema (s : S) : (ofSchema s : ColumnFamily K S (MutationPartition Pos C)).Ok where
  flushing := nofun
  active := ⟨rfl, nofun⟩

variable {k : K} {e : MemtableEntry S (MutationPartition Pos C)} {m : Memtable K S (MutationPartition Pos C)}

theorem findOrCreatePartition_good (ok : m.Ok MutationPartition.WellFormed) (next : m.findOrCreatePartition k = .ok e) :
    e.schema = m.schema ∧ ∃ c, e.Stores c ∧ c.Contents MutationPartition.WellFormed := by
  rcases findOrCreatePartition_ok next with ⟨-, rfl⟩ | ⟨e₀, found, hu⟩
  · refine ⟨rfl, _, .ofPartition _ _ _, ?_, nofun⟩
    exact forall_mem_singleton.2 MutationPartition.wellFormed_empty
  · obtain ⟨c, stores, contents⟩ := ok k e₀ found
    exact upgradeEntry_good contentInvariant stores contents hu

variable {req : Request K S (MutationPartitionView Pos C) (MutationPartition Pos C)}

theorem Transition.ok (h : cf.Transition req cf') (brings : req.Brings) (ok : cf.Ok) : cf'.Ok := by
  obtain ⟨flushing, schema, active⟩ := ok
  cases h with
  | apply found served | applyMutation found served =>
    obtain ⟨-, c, stores, contents⟩ := findOrCreatePartition_good active found
    obtain ⟨c', stores', transition⟩ := stores.step served (fun _ _ _ eq => by cases eq) fun _ _ eq => by cases eq
    exact ⟨flushing, schema, active.put stores' (transition.contents contentInvariant brings contents)⟩
  | reads hf ha =>
    refine ⟨?_, ha.schema_eq.trans schema, ha.ok contentInvariant active⟩
    exact forall_of_reads (fun m m' hr hm => ⟨hr.schema_eq.trans hm.1, hr.ok contentInvariant hm.2⟩) hf flushing
  | sealed =>
    refine ⟨fun m hm => ?_, rfl, nofun⟩
    rcases mem_append.1 hm with hm | hm
    · exact flushing m hm
    · rw [mem_singleton.1 hm]
      exact ⟨schema, active⟩
  | setSchema =>
    refine ⟨fun m' hm' => ?_, rfl, active⟩
    obtain ⟨m, hm, rfl⟩ := mem_map.1 hm'
    exact ⟨rfl, (flushing m hm).2⟩

/-- The memtable has the schema of the table and its entry of `k` is as `Q` says. -/
def Holds (schema : S) (k : K) (m : Memtable K S (MutationPartition Pos C))
    (Q : Option (Chain S (MutationPartition Pos C)) → Prop) : Prop :=
  m.schema = schema ∧ m.At k Q

/-- A memtable that was read: a read at `t` gets `r` from it. -/
def Served (schema : S) (t : UInt32) (r : Option (S × List (MutationPartition Pos C)))
    (c : Option (Chain S (MutationPartition Pos C))) : Prop :=
  (∀ d, c = some d → d.Contents MutationPartition.WellFormed) ∧ r = c.map fun d => (schema, d.served t)

/-- A memtable that adds nothing to `p`. -/
def Silent (ckRanges : List (ClusteringRange Pos)) (p : MutationPartition Pos C)
    (c : Option (Chain S (MutationPartition Pos C))) : Prop :=
  ∀ d, c = some d → d.Contents fun q => q.WellFormed ∧ AddsNothing ckRanges p q

variable {ms : List (Memtable K S (MutationPartition Pos C))}

open Option (toList map_some)

/-- The first read leaves memtables that serve the same again. -/
theorem holds_of_makeReaders {schema : S} {t : UInt32} : ∀ {ms' rs}, makeReaders k t ms = .ok (ms', rs) →
      (∀ m ∈ ms, m.schema = schema ∧ m.Ok MutationPartition.WellFormed) →
      ∃ os : List (Option (S × List (MutationPartition Pos C))), rs = os.flatMap toList ∧
        List.Forall₂ (Holds schema k) ms' (os.map (Served schema t)) := by
  induction ms with
  | nil =>
    rintro ms' rs ⟨⟩ -
    exact ⟨[], rfl, .nil⟩
  | cons m ms ih =>
    intro ms' rs next ok
    obtain ⟨m₁, r, ms₁, rs₁, hm, hms, rfl, rfl⟩ := makeReaders_cons next
    obtain ⟨⟨hs, hok⟩, ok⟩ := forall_mem_cons.1 ok
    obtain ⟨os, rfl, holds⟩ := ih hms ok
    have first := at_of_makeFlatReader contentInvariant hok hm
    rw [hs] at first
    exact ⟨r :: os, rfl, .cons ⟨(reads_of_makeFlatReader hm).schema_eq.trans hs, first⟩ holds⟩

/-- What a later read gets from memtables that hold `Qs`. -/
theorem makeReaders_of_holds {schema : S} (t : UInt32) {Qs : List (Option (Chain S (MutationPartition Pos C)) → Prop)}
    (holds : List.Forall₂ (Holds schema k) ms Qs) :
    ∃ ms' cs, makeReaders k t ms = .ok (ms', cs.flatMap fun c => (c.map fun d => (schema, d.served t)).toList) ∧
      List.Forall₂ (fun Q c => Q c ∧ ∀ d, c = some d → d.elems ≠ []) Qs cs := by
  induction holds with
  | nil => exact ⟨[], [], rfl, .nil⟩
  | @cons m Q ms Qs hm _ ih =>
    obtain ⟨schema', held⟩ := hm
    obtain ⟨m', c, reader, hq, nonempty⟩ := held.makeFlatReader t
    obtain ⟨ms', cs, readers, all⟩ := ih
    refine ⟨m' :: ms', c :: cs, ?_, .cons ⟨hq, nonempty⟩ all⟩
    simp only [makeReaders, reader, readers, ok_bind, pure_eq_ok, schema', flatMap_cons]

section Window

variable {schema : S} {k : K} {t : UInt32} {os : List (Option (S × List (MutationPartition Pos C)))}
  {ckRanges : List (ClusteringRange Pos)} {p : MutationPartition Pos C}

/-- The request adds nothing to what the memtables had of `k` when they showed `p`: a write of `k` that is not
rejected stores a version that adds nothing to `p`, and the schema stays. -/
def Harmless (k : K) (ckRanges : List (ClusteringRange Pos)) (p : MutationPartition Pos C)
    (cf : ColumnFamily K S (MutationPartition Pos C)) :
    Request K S (MutationPartitionView Pos C) (MutationPartition Pos C) → Prop
  | .apply k' mpv mpSchema v => k' = k →
      (∀ e, cf.active.partitions.lookup k = some e → ¬(v ≠ 0 ∧ v ≤ e.pe.entry.highestVersionWritten)) →
      mpv.WellFormed ∧ ∀ n mp, writtenPartition cf.schema mpv mpSchema v n = .ok mp → AddsNothing ckRanges p mp
  | .applyMutation k' _ _ => k' ≠ k
  | .setSchema _ => False
  | _ => True

/-- After the switch: the memtables that were read serve the same again, the newer ones add nothing. -/
structure Window (schema : S) (k : K) (t : UInt32) (os : List (Option (S × List (MutationPartition Pos C))))
    (ckRanges : List (ClusteringRange Pos)) (p : MutationPartition Pos C)
    (cf : ColumnFamily K S (MutationPartition Pos C)) : Prop where
  own : cf.schema = schema
  flushing : ∃ n, List.Forall₂ (Holds schema k) cf.flushing
    (os.map (Served schema t) ++ replicate n (Silent ckRanges p))
  active : Holds schema k cf.active (Silent ckRanges p)

variable {m m' : Memtable K S (MutationPartition Pos C)}

theorem Holds.served {r : Option (S × List (MutationPartition Pos C))} (h : Holds schema k m (Served schema t r))
    (reads : m.Reads m') : Holds schema k m' (Served schema t r) := by
  refine ⟨reads.schema_eq.trans h.1, reads.at h.2 fun c c' op o transition quiet ⟨contents, served⟩ => ⟨?_, ?_⟩⟩
  · rintro d ⟨⟩
    refine transition.contents contentInvariant ?_ (contents c rfl)
    rcases quiet with ⟨_, _, _, rfl⟩ | ⟨_, rfl⟩ <;> trivial
  · rw [served, map_some, map_some, Chain.served_congr (transition.stored_eq quiet)]

theorem Holds.silent (h : Holds schema k m (Silent ckRanges p)) (reads : m.Reads m') :
    Holds schema k m' (Silent ckRanges p) := by
  refine ⟨reads.schema_eq.trans h.1, reads.at h.2 fun c c' op o transition quiet contents => ?_⟩
  rintro d ⟨⟩
  refine transition.contents_of_builds (fun q builds => ?_) (contents c rfl)
  rcases quiet with ⟨_, _, _, rfl⟩ | ⟨_, rfl⟩ <;> cases builds

theorem forall₂_holds_of_reads {ms ms' : List (Memtable K S (MutationPartition Pos C))} (n : Nat)
    (reads : List.Forall₂ Memtable.Reads ms ms') :
    ∀ {os : List (Option (S × List (MutationPartition Pos C)))},
      List.Forall₂ (Holds schema k) ms (os.map (Served schema t) ++ replicate n (Silent ckRanges p)) →
      List.Forall₂ (Holds schema k) ms' (os.map (Served schema t) ++ replicate n (Silent ckRanges p)) := by
  induction reads generalizing n with
  | nil => exact fun h => h
  | cons hm _ ih =>
    intro os h
    cases os with
    | cons o os =>
      obtain ⟨first, rest⟩ := forall₂_cons.1 h
      exact .cons (first.served hm) (ih n rest)
    | nil =>
      cases n with
      | zero => cases h
      | succ n =>
        obtain ⟨first, rest⟩ := forall₂_cons.1 h
        exact .cons (first.silent hm) (@ih n [] rest)

theorem Holds.apply (h : Holds schema k m (Silent ckRanges p)) (empty : AddsNothing ckRanges p {})
    (found : m.findOrCreatePartition k = .ok e) {mpv : MutationPartitionView Pos C} {mpSchema : S} {v : UInt32}
    {pe : Heap S (MutationPartition Pos C)} {r : WriteResult}
    (served : e.pe.step (.applyView m.schema mpv mpSchema v) = .ok (pe, .write r))
    (harmless : (∀ e, m.partitions.lookup k = some e → ¬(v ≠ 0 ∧ v ≤ e.pe.entry.highestVersionWritten)) →
      mpv.WellFormed ∧ ∀ n mp, writtenPartition schema mpv mpSchema v n = .ok mp → AddsNothing ckRanges p mp) :
    Holds schema k (m.put k ⟨e.schema, pe⟩) (Silent ckRanges p) := by
  obtain ⟨rfl, held⟩ := h
  -- the entry before the write
  obtain ⟨own, c, stores, contents, accepts⟩ : e.schema = m.schema ∧ ∃ c, e.Stores c ∧
      (c.Contents fun q => q.WellFormed ∧ AddsNothing ckRanges p q) ∧
      (¬c.rejects v → ∀ e, m.partitions.lookup k = some e → ¬(v ≠ 0 ∧ v ≤ e.pe.entry.highestVersionWritten)) := by
    rcases findOrCreatePartition_ok found with ⟨none, rfl⟩ | ⟨e₀, some, hu⟩
    · refine ⟨rfl, _, .ofPartition _ _ _, ⟨?_, nofun⟩, fun _ e he => ?_⟩
      · exact forall_mem_singleton.2 ⟨MutationPartition.wellFormed_empty, empty⟩
      · rw [none] at he
        cases he
    · obtain ⟨own, c, stores, silent⟩ := (at_of_some some).1 held
      rw [upgradeEntry_of_eq own] at hu
      cases hu
      refine ⟨own, c, stores, silent c rfl, fun kept e' he' rejected => kept ?_⟩
      rw [some] at he'
      cases he'
      obtain ⟨l, sim⟩ := stores.sim
      exact ⟨rejected.1, sim.hvw ▸ rejected.2⟩
  obtain ⟨c', stores', transition⟩ := stores.step served (fun _ _ _ eq => by cases eq) fun _ _ eq => by cases eq
  refine ⟨rfl, at_put_self own stores' ?_⟩
  rintro d ⟨⟩
  refine transition.contents_of_builds (fun q builds => ?_) contents
  cases builds with
  | written kept written =>
    obtain ⟨wf, adds⟩ := harmless (accepts kept)
    exact ⟨contentInvariant.writtenPartition wf written, adds _ _ written⟩

theorem Transition.window
    (h : cf.Transition req cf') (harmless : cf.Harmless k ckRanges p req) (empty : AddsNothing ckRanges p {})
    (window : Window schema k t os ckRanges p cf) : Window schema k t os ckRanges p cf' := by
  obtain ⟨own, ⟨n, flushing⟩, active⟩ := window
  cases h with
  | @apply k' mpv mpSchema v e pe r found served =>
    refine ⟨own, ⟨n, flushing⟩, ?_⟩
    by_cases hk : k' = k
    · subst hk
      exact active.apply empty found served (own ▸ harmless rfl)
    · exact ⟨active.1, at_put_of_ne active.2 (Ne.symm hk)⟩
  | applyMutation found served =>
    exact ⟨own, ⟨n, flushing⟩, active.1, at_put_of_ne active.2 (Ne.symm harmless)⟩
  | reads hf ha => exact ⟨own, ⟨n, forall₂_holds_of_reads n hf flushing⟩, active.silent ha⟩
  | sealed =>
    refine ⟨own, ⟨n + 1, ?_⟩, own, fun d hd => by cases hd⟩
    rw [replicate_succ', ← append_assoc]
    exact rel_append flushing (.cons active .nil)
  | setSchema => exact harmless.elim

/-- What the first read and the switch leave. -/
theorem window_of_read (ok : cf.Ok) {cf₁ cf₂ : ColumnFamily K S (MutationPartition Pos C)}
    {rs : List (S × List (MutationPartition Pos C))} {o : Response S (MutationPartition Pos C)}
    (first : cf.step (.read k t : Request K S (MutationPartitionView Pos C) _) = .ok (cf₁, .readers rs))
    (switch : cf₁.step (.sealActive : Request K S (MutationPartitionView Pos C) _) = .ok (cf₂, o)) :
    ∃ os : List (Option (S × List (MutationPartition Pos C))), rs = os.flatMap toList ∧
      Window cf.schema k t os ckRanges p cf₂ := by
  obtain ⟨⟨flushing, rs₁⟩, hf, next⟩ := bind_eq_ok.1 first
  obtain ⟨⟨active, r⟩, ha, next⟩ := bind_eq_ok.1 next
  cases next
  obtain ⟨os, rfl, holds⟩ := holds_of_makeReaders hf ok.flushing
  have schema := (reads_of_makeFlatReader ha).schema_eq.trans ok.active.1
  have last := at_of_makeFlatReader contentInvariant ok.active.2 ha
  rw [ok.active.1] at last
  simp only [step] at switch
  split at switch
  · -- nothing was written since the last switch
    rename_i empty
    cases switch
    have absent : active.partitions.lookup k = none := by
      rw [AList.lookup, isEmpty_iff.1 empty]
      rfl
    obtain ⟨-, rfl⟩ := (at_of_none absent).1 last
    refine ⟨os, append_nil _, rfl, ⟨0, ?_⟩, schema, (at_of_none absent).2 fun d hd => by cases hd⟩
    rwa [replicate_zero, append_nil]
  · cases switch
    refine ⟨os ++ [r], by simp, rfl, ⟨0, ?_⟩, rfl, fun d hd => by cases hd⟩
    rw [map_append, replicate_zero, append_nil]
    exact rel_append holds (.cons ⟨schema, last⟩ .nil)

section Readers

variable {s : S} {c : Option (Chain S (MutationPartition Pos C))} {r : Option (S × List (MutationPartition Pos C))}

omit [DecidableEq S]

omit [DecidableEq K]

open SchemaOps (version)

omit [CellOps C] in
theorem Served.current (h : Served schema t r c) (nonempty : ∀ d, c = some d → d.elems ≠ [])
    (current : version C schema = version C s) : ∀ x ∈ r.toList, Current s x := by
  obtain ⟨contents, rfl⟩ := h
  intro x hx
  obtain ⟨d, rfl, rfl⟩ := Option.map_eq_some_iff.1 (Option.mem_toList.1 hx)
  exact ⟨current, Chain.served_ne_nil (nonempty d rfl) t, (contents d rfl).served t⟩

theorem Silent.current (h : Silent ckRanges p c) (nonempty : ∀ d, c = some d → d.elems ≠ [])
    (current : version C schema = version C s) :
    ∀ x ∈ (c.map fun d => (schema, d.served t)).toList, Current s x ∧ ∀ q ∈ x.2, AddsNothing ckRanges p q := by
  intro x hx
  obtain ⟨d, rfl, rfl⟩ := Option.map_eq_some_iff.1 (Option.mem_toList.1 hx)
  have good := (h d rfl).served t
  exact ⟨⟨current, Chain.served_ne_nil (nonempty d rfl) t, fun q hq => (good q hq).1⟩, fun q hq => (good q hq).2⟩

/-- The readers of the memtables that were read before, and of the newer ones. -/
theorem readers_split (n : Nat) (current : version C schema = version C s) :
    ∀ {os : List (Option (S × List (MutationPartition Pos C)))} {cs : List (Option (Chain S (MutationPartition Pos C)))},
      List.Forall₂ (fun Q c => Q c ∧ ∀ d, c = some d → d.elems ≠ [])
        (os.map (Served schema t) ++ replicate n (Silent ckRanges p)) cs →
      ∃ new, cs.flatMap (fun c => (c.map fun d => (schema, d.served t)).toList) = os.flatMap toList ++ new ∧
        (∀ x ∈ os.flatMap toList, Current s x) ∧
        ∀ x ∈ new, Current s x ∧ ∀ q ∈ x.2, AddsNothing ckRanges p q := by
  intro os
  induction os with
  | nil =>
    induction n with
    | zero =>
      rintro cs ⟨⟩
      exact ⟨[], rfl, nofun, nofun⟩
    | succ n ih =>
      rintro (_ | ⟨c, cs⟩) h
      · cases h
      · obtain ⟨⟨silent, nonempty⟩, rest⟩ := forall₂_cons.1 h
        obtain ⟨new, eq, old, adds⟩ := ih rest
        refine ⟨(c.map fun d => (schema, d.served t)).toList ++ new, ?_, old, fun x hx => ?_⟩
        · rw [flatMap_cons, eq]
          rfl
        · rcases mem_append.1 hx with hx | hx
          · exact silent.current nonempty current x hx
          · exact adds x hx
  | cons o os ih =>
    rintro (_ | ⟨c, cs⟩) h
    · cases h
    · obtain ⟨⟨served, nonempty⟩, rest⟩ := forall₂_cons.1 h
      obtain ⟨new, eq, old, adds⟩ := ih rest
      refine ⟨new, ?_, fun x hx => ?_, adds⟩
      · rw [flatMap_cons, flatMap_cons, eq, append_assoc, ← served.2]
      · rcases mem_append.1 hx with hx | hx
        · exact served.current nonempty current x hx
        · exact old x hx

end Readers

/-- A read after the switch gets what the first read got, and from the newer memtables what adds nothing. -/
theorem Window.read (window : Window schema k t os ckRanges p cf) {s : S}
    (current : SchemaOps.version C schema = SchemaOps.version C s) :
    ∃ cf' new, cf.step (.read k t : Request K S (MutationPartitionView Pos C) _) =
        .ok (cf', .readers (os.flatMap toList ++ new)) ∧
      (∀ r ∈ os.flatMap toList, Current s r) ∧
      ∀ r ∈ new, Current s r ∧ ∀ q ∈ r.2, AddsNothing ckRanges p q := by
  obtain ⟨own, ⟨n, flushing⟩, rfl, held⟩ := window
  obtain ⟨ms', cs, readers, all⟩ := makeReaders_of_holds t flushing
  obtain ⟨m', c, reader, silent, nonempty⟩ := held.makeFlatReader t
  obtain ⟨new, eq, old, adds⟩ := readers_split n current all
  refine ⟨{ cf with flushing := ms', active := m' }, new ++ (c.map fun d => (cf.active.schema, d.served t)).toList, ?_,
    old, fun r hr => ?_⟩
  · simp only [step, readers, reader, ok_bind, pure_eq_ok, eq, append_assoc]
  · rcases mem_append.1 hr with hr | hr
    · exact adds r hr
    · exact silent.current nonempty current r hr

end Window

/-- In every table history, if the reads use the schema of the table and every request after the switch is
harmless to what the memtables showed before it, the second read returns exactly what the first one did. -/
theorem read_survives_switch [LawfulCellOps C] {top : Reader.Iterators Pos C → Nat} (isTop : Reader.IsTop top)
    {ckRanges : List (ClusteringRange Pos)} (disjoint : ckRanges.Pairwise fun a b => a.stop ≤ b.start)
    (cached : MutationPartition Pos C) (s₀ s : S) {tr₁ tr₂ : List (Request K S (MutationPartitionView Pos C)
      (MutationPartition Pos C) × Response S (MutationPartition Pos C))}
    {cf₁ cf₂ cf₃ cf₄ : ColumnFamily K S (MutationPartition Pos C)}
    (history : Run step (fun _ _ req => req.Brings) (ofSchema s₀) tr₁ cf₁)
    (current : SchemaOps.version C cf₁.schema = SchemaOps.version C s) {k : K} {t : UInt32}
    {rs : List (S × List (MutationPartition Pos C))} {o : Response S (MutationPartition Pos C)}
    (first : cf₁.step (.read k t : Request K S (MutationPartitionView Pos C) _) = .ok (cf₂, .readers rs))
    (switch : cf₂.step (.sealActive : Request K S (MutationPartitionView Pos C) _) = .ok (cf₃, o))
    (later : Run step (fun _ cf req => cf.Harmless k ckRanges (sumOf ckRanges rs) req) cf₃ tr₂ cf₄)
    {p : MutationPartition Pos C} (returned : Combined top s ckRanges cached rs p) :
    ∃ cf₅ rs', cf₄.step (.read k t : Request K S (MutationPartitionView Pos C) _) = .ok (cf₅, .readers rs') ∧
      ∀ q, Combined top s ckRanges cached rs' q ↔ q = p := by
  have ok : cf₁.Ok := Run.invariant (fun _ cf => cf.Ok) (ok_ofSchema s₀)
    (fun _ _ _ _ _ ok brings next => (transition next).ok brings ok) history
  obtain ⟨os, hos, window⟩ : ∃ os : List (Option (S × List (MutationPartition Pos C))), rs = os.flatMap toList ∧
      Window cf₁.schema k t os ckRanges (sumOf ckRanges rs) cf₃ := window_of_read ok first switch
  have old : ∀ r ∈ rs, Current s r := by
    obtain ⟨_, _, -, old, -⟩ := window.read current
    rwa [hos]
  have empty := addsNothing_empty (tombstone_sumOf old ckRanges) ckRanges
  have window₄ : Window cf₁.schema k t os ckRanges (sumOf ckRanges rs) cf₄ :=
    Run.invariant (fun _ cf => Window cf₁.schema k t os ckRanges (sumOf ckRanges rs) cf) window
      (fun _ _ _ _ _ window harmless next => (transition next).window harmless empty window) later
  obtain ⟨cf₅, new, second, -, added⟩ := window₄.read current
  rw [← hos] at second
  refine ⟨cf₅, rs ++ new, second, fun q => ?_⟩
  rw [combined_iff isTop disjoint old] at returned
  have current' : ∀ r ∈ rs ++ new, Current s r := fun r hr =>
    (mem_append.1 hr).elim (old r) fun hr => (added r hr).1
  rw [combined_iff isTop disjoint current', returned,
    sumOf_append (fun r hr => (added r hr).1) fun r hr => (added r hr).2]

section Concrete

abbrev UsertableRequest := Request Nat TableSchema (MutationPartitionView Nat Cell) (MutationPartition Nat Cell)

/-- `usertable` after requests that do not fault. -/
def tableAfter (reqs : List UsertableRequest) : ColumnFamily Nat TableSchema (MutationPartition Nat Cell) :=
  (after step (ofSchema usertable) reqs).getD (ofSchema usertable)

/-- A read of the key 0 at version 1. -/
def readOne : UsertableRequest := .read 0 1

/-- A write of `b` to the key 0. -/
def writeByte (v : UInt32) (timestamp : Int) (b : UInt8) : UsertableRequest :=
  .apply 0 (putByte timestamp b) usertable v

/-- What the readers of `readOne` start from. -/
def readersAfter (reqs : List UsertableRequest) : List (TableSchema × List (MutationPartition Nat Cell)) :=
  match (tableAfter reqs).step readOne with
  | .ok (_, .readers rs) => rs
  | _ => []

def allRows : List (ClusteringRange Nat) := [{ start := 0, stop := 10 }]

theorem read_survives_switch_older_write : ∃ cf rs p,
    (tableAfter [writeByte 1 5 7, readOne, .sealActive, writeByte 1 3 8]).step readOne = .ok (cf, .readers rs) ∧
      ∀ q, Combined newestFirst usertable allRows {} rs q ↔ q = p := by
  have wf : (putByte 3 8).WellFormed := ⟨.nil, nofun⟩
  have history : Run step (fun _ _ req => req.Brings) (ofSchema usertable) _ (tableAfter [writeByte 1 5 7]) :=
    .snoc .init (i := writeByte 1 5 7) ⟨.nil, nofun⟩ rfl
  have first : (tableAfter [writeByte 1 5 7]).step readOne =
      .ok (tableAfter [writeByte 1 5 7, readOne], .readers (readersAfter [writeByte 1 5 7])) := rfl
  have switch : (tableAfter [writeByte 1 5 7, readOne]).step .sealActive =
      .ok (tableAfter [writeByte 1 5 7, readOne, .sealActive], .done) := rfl
  have later : Run step (fun _ cf req => cf.Harmless 0 allRows (sumOf allRows (readersAfter [writeByte 1 5 7])) req)
      (tableAfter [writeByte 1 5 7, readOne, .sealActive]) _
      (tableAfter [writeByte 1 5 7, readOne, .sealActive, writeByte 1 3 8]) :=
    .snoc .init (i := writeByte 1 3 8) (fun _ _ => ⟨wf, by rintro n mp ⟨⟩; rfl⟩) rfl
  obtain ⟨cf, rs, second, returned⟩ := read_survives_switch isTop_newestFirst (pairwise_singleton _ _) {} usertable
    usertable history rfl first switch later ⟨_, .cons ⟨fun _ => false, 9, rfl, rfl⟩ .nil, rfl⟩
  exact ⟨cf, rs, _, second, returned⟩

/-- A read at version 1 returns the write numbered 1. After the switch a write is numbered 2, and the read at
version 1 returns that one. -/
theorem read_changes_across_switch : ∃ cf₁ cf₂ rs₁ rs₂ p₁ p₂,
    (tableAfter [writeByte 1 5 7]).step readOne = .ok (cf₁, .readers rs₁) ∧
      (tableAfter [writeByte 1 5 7, readOne, .sealActive]).step (writeByte 2 6 8) = .ok (cf₂, .write ⟨true, 2⟩) ∧
      (∃ cf₃, cf₂.step readOne = .ok (cf₃, .readers rs₂)) ∧
      Combined newestFirst usertable allRows {} rs₁ p₁ ∧ Combined newestFirst usertable allRows {} rs₂ p₂ ∧ p₁ ≠ p₂ :=
  ⟨_, _, _, _, _, _, rfl, rfl, ⟨_, rfl⟩, ⟨_, .cons ⟨fun _ => false, 9, rfl, rfl⟩ .nil, rfl⟩,
    ⟨_, .cons ⟨fun _ => false, 9, rfl, rfl⟩ (.cons ⟨fun _ => false, 9, rfl, rfl⟩ .nil), rfl⟩, by decide +kernel⟩

end Concrete

end ColumnFamily

end ScyllaMoon.Table
