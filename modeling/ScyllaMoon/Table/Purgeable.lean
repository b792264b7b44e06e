import ScyllaMoon.Mutation.Compaction
import ScyllaMoon.Table.SstableSet

/-!
# The timestamp up to which a compaction may purge

`get_max_purgeable_timestamp` takes the least timestamp of the sstables that take no part in the compaction
and may have the key: those of a copy of the table's set, made when the compaction started, and those that
were compacted but not deleted yet. A read of the table merges the memtables with the sstables that the table
has by then. So the bound holds for the data of the sstables in the copy, but neither for that of memtables
nor for that of sstables that were flushed from them since.
-/

namespace ScyllaMoon.Table

open Lib Mutation List

variable {K T Ptr Pos Key Id : Type} [LinearOrder T] [LinearOrder Key] [LinearOrder Id]

/-- `api::max_timestamp` -/
def maxTimestamp : Int := 9223372036854775807

/-- `sstable`. Its filter has no false negatives and its statistics have the least timestamp of its data. -/
structure Sstable (token : K → T) (Pos Key Id : Type) [LinearOrder Key] [LinearOrder Id] where
  extent : Extent T
  /-- `get_stats_metadata().min_timestamp` -/
  minTimestamp : Int
  filterHasKey : K → Bool
  partitions : K → Option (ColumnPartition Pos Key Id)
  covers : ∀ {k p}, partitions k = some p → extent.Covers (token k)
  filter : ∀ {k p}, partitions k = some p → filterHasKey k = true
  least : IsLeast {s | ∃ k p, partitions k = some p ∧ p.Occurs s} minTimestamp

variable {token : K → T} (sst : Ptr → Sstable token Pos Key Id)

/-- The sets of a table with these sstables. -/
abbrev TableSet := SstableSet fun p => (sst p).extent

/-- `column_family`, as far as reads and compaction go: what its memtables have of a key, and its sstables. -/
structure Sources where
  memtables : List (K → Option (ColumnPartition Pos Key Id))
  sstables : TableSet sst
  compactedUndeleted : List Ptr := []

/-- `regular_compaction` -/
structure Compaction where
  set : TableSet sst
  compacting : List Ptr
  selector : IncrementalSelector T Ptr

variable {sst} (cf : Sources sst)

/-- The constructor of `regular_compaction` -/
def Compaction.make (sstables : List Ptr) : Compaction sst where
  set := cf.sstables
  compacting := sstables
  selector := .make cf.sstables.impl

variable [DecidableEq Ptr]

/-- `column_family::make_reader` for a key: what it merges with what the compaction writes, which takes the
place of the sstables that are compacted. The cache has what the sstables have. -/
def Sources.readOutside (cf : Sources sst) (c : Compaction sst) (k : K) : List (ColumnPartition Pos Key Id) :=
  cf.memtables.filterMap (· k) ++
    ((cf.sstables.select (token k)).filter fun p => decide (p ∉ c.compacting)).filterMap fun p => (sst p).partitions k

/-- One round of the loop of `get_max_purgeable_timestamp`. -/
def purgeableStep (sst : Ptr → Sstable token Pos Key Id) (compacting : List Ptr) (k : K) (timestamp : Int) (p : Ptr) : Int :=
  if p ∈ compacting then timestamp
  else if (sst p).filterHasKey k then min timestamp (sst p).minTimestamp
  else timestamp

/-- `get_max_purgeable_timestamp` -/
def getMaxPurgeableTimestamp (cf : Sources sst) (c : Compaction sst) (k : K) : Int × Compaction sst :=
  let (selected, selector) := c.selector.select c.set.impl (token k)
  ((selected ++ cf.compactedUndeleted).foldl (purgeableStep sst c.compacting k) maxTimestamp, { c with selector })

/-- The sstable is looked at for the key. -/
structure Consulted (c : Compaction sst) (k : K) (p : Ptr) : Prop where
  listed : p ∈ c.set.select (token k) ∨ p ∈ cf.compactedUndeleted
  outside : p ∉ c.compacting
  filter : (sst p).filterHasKey k = true

/-- The bound is right for the data that what a compaction writes will be merged with: none of it is older, so
that a tombstone that is purged has deleted none of it. -/
structure Respects (bound : Int) (others : List (ColumnPartition Pos Key Id)) : Prop where
  le : ∀ p ∈ others, ∀ s, p.Occurs s → bound ≤ s
  purged : ∀ (now gcGrace : Int) (t : Tombstone), (compactForCompaction now gcGrace bound).canGc t = true →
    ∀ p ∈ others, ∀ s, p.Occurs s → t.timestamp < s

omit [DecidableEq Ptr] in
theorem respects_iff {bound : Int} {others : List (ColumnPartition Pos Key Id)} :
    Respects bound others ↔ ∀ p ∈ others, ∀ s, p.Occurs s → bound ≤ s := by
  refine ⟨Respects.le, fun le => ⟨le, fun now gcGrace t purge p hp s occurs => ?_⟩⟩
  simp [CompactMutation.Mode.canGc, compactForCompaction] at purge
  exact (of_decide_eq_true purge.2).trans_le (le p hp s occurs)

variable {k : K}

theorem foldl_purgeableStep_le {compacting : List Ptr} {l : List Ptr} {init s : Int} :
    l.foldl (purgeableStep sst compacting k) init ≤ s ↔
      init ≤ s ∨ ∃ p ∈ l, p ∉ compacting ∧ (sst p).filterHasKey k = true ∧ (sst p).minTimestamp ≤ s := by
  induction l generalizing init with
  | nil => simp
  | cons p l ih =>
    have step : purgeableStep sst compacting k init p ≤ s ↔
        init ≤ s ∨ p ∉ compacting ∧ (sst p).filterHasKey k = true ∧ (sst p).minTimestamp ≤ s := by
      unfold purgeableStep
      split
      · simp [*]
      · split
        · simp [*]
        · simp [*]
    rw [foldl_cons, ih, step]
    simp only [mem_cons, exists_eq_or_imp, or_assoc]

namespace Compaction

/-- The selector of the compaction is ready for keys from the token on. -/
def Ready (c : Compaction sst) (t : T) : Prop := c.selector.Ready c.set.impl t

omit [DecidableEq Ptr] in
theorem ready_make (sstables : List Ptr) (t : T) : (make cf sstables).Ready t :=
  IncrementalSelector.ready_make _ t

/-- The compaction after it asked for the bound of some keys, with what the table was then. -/
def after (c : Compaction sst) (calls : List (Sources sst × K)) : Compaction sst :=
  calls.foldl (fun c call => (getMaxPurgeableTimestamp call.1 c call.2).2) c

variable {c : Compaction sst}

theorem Ready.step {t : T} (h : c.Ready t) (cf : Sources sst) (le : t ≤ token k) :
    (getMaxPurgeableTimestamp cf c k).2.Ready (token k) :=
  ((IncrementalSelector.Ready.mono h le).select c.set.wellFormed).2

variable (calls : List (Sources sst × K))

theorem set_after : (c.after calls).set = c.set := by
  induction calls generalizing c with
  | nil => rfl
  | cons call calls ih => exact ih

theorem compacting_after : (c.after calls).compacting = c.compacting := by
  induction calls generalizing c with
  | nil => rfl
  | cons call calls ih => exact ih

theorem consulted_after {cf : Sources sst} {p : Ptr} :
    Consulted cf (c.after calls) k p ↔ Consulted cf c k p := by
  constructor
  · intro h
    exact ⟨set_after calls ▸ h.listed, compacting_after calls ▸ h.outside, h.filter⟩
  · intro h
    exact ⟨(set_after calls).symm ▸ h.listed, (compacting_after calls).symm ▸ h.outside, h.filter⟩

/-- Keys come in the order of their tokens, so the selector stays ready. -/
theorem ready_after {calls : List (Sources sst × K)} {t : T} (h : ∀ u, c.Ready u)
    (ascending : (calls.map fun call => token call.2).Pairwise (· ≤ ·)) (last : ∀ call ∈ calls, token call.2 ≤ t) :
    (c.after calls).Ready t := by
  -- by induction on the calls, for a compaction that is ready from a token that all of them follow
  have from_token : ∀ (c : Compaction sst) u, c.Ready u → (∀ call ∈ calls, u ≤ token call.2) → u ≤ t →
      (c.after calls).Ready t := by
    induction calls with
    | nil => exact fun c u ready _ le => IncrementalSelector.Ready.mono ready le
    | cons call calls ih =>
      intro c u ready first le
      rw [map_cons, pairwise_cons] at ascending
      obtain ⟨hcall, last⟩ := forall_mem_cons.1 last
      refine ih ascending.2 last _ (token call.2) (ready.step call.1 (first call mem_cons_self)) (fun d hd => ?_) hcall
      exact ascending.1 _ (mem_map_of_mem hd)
  cases calls with
  | nil => exact h t
  | cons call calls =>
    rw [map_cons, pairwise_cons] at ascending
    refine from_token c (token call.2) (h _) (forall_mem_cons.2 ⟨le_rfl, fun d hd => ?_⟩) (last call mem_cons_self)
    exact ascending.1 _ (mem_map_of_mem hd)

end Compaction

/-- What the bound is at most. -/
theorem getMaxPurgeableTimestamp_le_iff {cf : Sources sst} {c : Compaction sst} (ready : c.Ready (token k)) {s : Int} :
    (getMaxPurgeableTimestamp cf c k).1 ≤ s ↔
      maxTimestamp ≤ s ∨ ∃ p, Consulted cf c k p ∧ (sst p).minTimestamp ≤ s := by
  have selected := (IncrementalSelector.Ready.select c.set.wellFormed ready).1
  have fold : (getMaxPurgeableTimestamp cf c k).1 =
      ((c.selector.select c.set.impl (token k)).1 ++ cf.compactedUndeleted).foldl (purgeableStep sst c.compacting k) maxTimestamp := rfl
  rw [fold, foldl_purgeableStep_le, selected]
  refine or_congr_right ⟨?_, ?_⟩
  · rintro ⟨p, listed, outside, filter, le⟩
    exact ⟨p, ⟨mem_append.1 listed, outside, filter⟩, le⟩
  · rintro ⟨p, h, le⟩
    exact ⟨p, mem_append.2 h.listed, h.outside, h.filter, le⟩

/-- The table has the partition in a memtable, or in an sstable that is neither compacted nor looked at: one
that was added after the compaction started. -/
inductive Overlooked (c : Compaction sst) (k : K) (q : ColumnPartition Pos Key Id) : Prop
  | memtable (m : K → Option (ColumnPartition Pos Key Id)) (mem : m ∈ cf.memtables) (h : m k = some q)
  | added (p : Ptr) (mem : p ∈ cf.sstables.all) (since : p ∉ c.set.all) (outside : p ∉ c.compacting)
      (h : (sst p).partitions k = some q)

theorem mem_readOutside {cf : Sources sst} {c : Compaction sst} {q : ColumnPartition Pos Key Id} :
    q ∈ cf.readOutside c k ↔ (∃ m ∈ cf.memtables, m k = some q) ∨
      ∃ p ∈ cf.sstables.all, p ∉ c.compacting ∧ (sst p).partitions k = some q := by
  unfold Sources.readOutside
  simp only [mem_append, mem_filterMap, mem_filter, decide_eq_true_eq]
  refine or_congr_right ⟨?_, ?_⟩
  · rintro ⟨p, ⟨selected, outside⟩, h⟩
    exact ⟨p, cf.sstables.sound selected, outside, h⟩
  · rintro ⟨p, mem, outside, h⟩
    exact ⟨p, ⟨cf.sstables.complete mem ((sst p).covers h), outside⟩, h⟩

/-- The bound that a compaction purges by is right exactly if what it overlooks is not older than all that it
looks at. -/
theorem getMaxPurgeableTimestamp_respects_iff (started : Sources sst) (sstables : List Ptr) (calls : List (Sources sst × K))
    (cf : Sources sst) (k : K) (ascending : ((calls.map fun call => token call.2) ++ [token k]).Pairwise (· ≤ ·)) :
    let c := Compaction.make started sstables
    Respects (getMaxPurgeableTimestamp cf (c.after calls) k).1 (cf.readOutside c k) ↔
      ∀ q s, Overlooked cf c k q → q.Occurs s → maxTimestamp ≤ s ∨ ∃ p, Consulted cf c k p ∧ (sst p).minTimestamp ≤ s := by
  intro c
  have pairwise := pairwise_append.1 ascending
  have ready : (c.after calls).Ready (token k) :=
    Compaction.ready_after (Compaction.ready_make started sstables) pairwise.1 fun call hcall =>
      pairwise.2.2 _ (mem_map_of_mem hcall) _ (mem_singleton.2 rfl)
  rw [respects_iff]
  simp only [getMaxPurgeableTimestamp_le_iff ready, Compaction.consulted_after]
  constructor
  · rintro h q s (⟨m, mem, hm⟩ | ⟨p, mem, -, outside, hp⟩) occurs
    · exact h q (mem_readOutside.2 (.inl ⟨m, mem, hm⟩)) s occurs
    · exact h q (mem_readOutside.2 (.inr ⟨p, mem, outside, hp⟩)) s occurs
  · intro h q hq s occurs
    rcases mem_readOutside.1 hq with ⟨m, mem, hm⟩ | ⟨p, mem, outside, hp⟩
    · exact h q s (.memtable m mem hm) occurs
    · by_cases since : p ∈ c.set.all
      · -- the sstable is in the copy of the set, so it is looked at
        exact .inr ⟨p, ⟨.inl (c.set.complete since ((sst p).covers hp)), outside, (sst p).filter hp⟩,
          (sst p).least.2 ⟨k, q, hp, occurs⟩⟩
      · exact h q s (.added p mem since outside hp) occurs

/-- An sstable with one partition, which has a tombstone. -/
def Sstable.ofTombstone (token : K → T) [DecidableEq K] (k : K) (t : Tombstone) (isSet : t.isSet = true) :
    Sstable token Pos Key Id where
  extent := ⟨0, token k, token k, le_rfl⟩
  minTimestamp := t.timestamp
  filterHasKey l := decide (l = k)
  partitions l := if l = k then some { tombstone := t } else none
  covers {l p} h := by
    split at h
    next eq =>
      rw [eq]
      exact ⟨le_rfl, le_rfl⟩
    · cases h
  filter {l p} h := by
    split at h
    next eq =>
      exact decide_eq_true eq
    · cases h
  least := by
    refine ⟨⟨k, { tombstone := t }, if_pos rfl, .tombstone isSet⟩, ?_⟩
    rintro s ⟨l, p, hp, occurs⟩
    split at hp <;> cases hp
    cases occurs with
    | tombstone => exact le_rfl
    | rangeTombstone _ mem => cases mem
    | staticCell _ mem => cases mem
    | row _ mem => cases mem

theorem isSet_of_nonneg {t : Tombstone} (h : 0 ≤ t.timestamp) : t.isSet = true := by
  simp only [Tombstone.isSet, missingTimestamp, bne_iff_ne]
  omega

/-- Two sstables of which the second is compacted, and a memtable whose data is newer than the first. -/
theorem respects_newer_memtable :
    let sst : Nat → Sstable id Nat Nat Nat := fun p => .ofTombstone id 7 ⟨5 + p, 0⟩ (isSet_of_nonneg (by positivity))
    let m : Nat → Option (ColumnPartition Nat Nat Nat) := fun k =>
      if k = 7 then some (.ofRow 1 (.ofCell {} (.live 9 [1]))) else none
    let cf : Sources sst := { memtables := [m], sstables := ((SstableSet.make true).insert 0).insert 1 }
    let c := Compaction.make cf [1]
    Respects (getMaxPurgeableTimestamp cf (c.after [(cf, 3)]) 7).1 (cf.readOutside c 7) := by
  intro sst m cf c
  refine (getMaxPurgeableTimestamp_respects_iff cf [1] [(cf, 3)] cf 7 (by decide)).2 fun q s overlooked occurs => .inr ⟨0, ?_, ?_⟩
  · exact ⟨.inl (by decide), by decide, rfl⟩
  · rcases overlooked with ⟨n, mem, h⟩ | ⟨p, mem, since, -, -⟩
    · obtain rfl := mem_singleton.1 mem
      cases h
      cases MutationPartition.occurs_ofRow occurs with
      | regular isSet => cases isSet
      | shadowable isSet => cases isSet
      | marker present => cases present
      | cell e he occurs =>
        obtain rfl := mem_singleton.1 he
        exact Eq.subst (motive := fun s => 5 ≤ s) occurs (by decide)
    · exact absurd mem since

/-- Nothing but a memtable has data that a tombstone deletes. The compaction of the sstable that has the
tombstone purges it, and the data is back. -/
theorem tombstone_purged_over_memtable :
    let t : Tombstone := ⟨5, 0⟩
    let sst : Nat → Sstable id Nat Nat Nat := fun _ => .ofTombstone id 7 t rfl
    let m : ColumnPartition Nat Nat Nat := .ofRow 1 (.ofCell {} (.live 1 [1]))
    let cf : Sources sst := { memtables := [fun k => if k = 7 then some m else none], sstables := (SstableSet.make false).insert 0 }
    let c := Compaction.make cf [0]
    let p : ColumnPartition Nat Nat Nat := { tombstone := t }
    (sst 0).partitions 7 = some p ∧ cf.readOutside c 7 = [m] ∧ m.Occurs 1 ∧ (getMaxPurgeableTimestamp cf c 7).1 = maxTimestamp ∧
      ¬Respects (getMaxPurgeableTimestamp cf c 7).1 (cf.readOutside c 7) ∧ (p.merge m).isRowLive 100 1 = false ∧
      ((p.compacted 100 10 (getMaxPurgeableTimestamp cf c 7).1).merge m).isRowLive 100 1 = true := by
  intro t sst m cf c p
  have occurs : m.Occurs 1 := .row _ mem_cons_self (.cell _ mem_cons_self rfl)
  have read : cf.readOutside c 7 = [m] := rfl
  have bound : (getMaxPurgeableTimestamp cf c 7).1 = maxTimestamp := rfl
  have ordered : p.Ordered := ⟨Row.sorted_empty, .nil, fun _ h => absurd h not_mem_nil, RangeTombstoneList.wellFormed_nil⟩
  refine ⟨rfl, read, occurs, bound, fun respects => ?_, by decide +kernel, ?_⟩
  · have le := respects.le m (read ▸ mem_singleton.2 rfl) 1 occurs
    exact absurd le (by decide)
  · rw [bound, MutationPartition.compacted_eq (.inr (by decide)) ordered]
    decide +kernel

end ScyllaMoon.Table
