import ScyllaMoon.Lib.Run
import ScyllaMoon.Mutation.Counters

/-!
# Counters over several nodes

An increment is led by one node, which turns it into shards against what it has, applies them and sends them to
the other replicas. They arrive in any order, some of them more than once and some merged on the way. A node's
shard of a counter sums up increments that the node led, from the first one on: the increments that a shard has
counted are told by its logical clock, as long as the clock does not overflow its `int64_t`. What every node has
is therefore below what it would have if everything had arrived, and `total_value` is the sum of all deltas once
everything has.
-/

namespace ScyllaMoon.Coordinator

open Lib Mutation Function MutationPartition CounterShard List

/-- The replicas of a partition with counters. -/
structure CounterReplicas (Pos Key Id : Type) [LinearOrder Key] [LinearOrder Id] where
  nodes : Id → Option (ColumnPartition Pos Key Id) := fun _ => none
  /-- the mutations that leaders have made of updates -/
  sent : List (ColumnPartition Pos Key Id) := []
  /-- those that have reached a node -/
  reached : Id → List (ColumnPartition Pos Key Id) := fun _ => []

/-- An increment of one counter: its leader, its delta and by how much the logical clock goes on. -/
structure Increment (Id : Type) where
  leader : Id
  delta : Int
  clock : Nat
  deriving DecidableEq, Repr

namespace CounterReplicas

variable {Pos Key Id : Type} [Position Pos] [LinearOrder Key] [LinearOrder Id]

inductive Op (Pos Key Id : Type) [LinearOrder Key] [LinearOrder Id] where
  | increment (leader : Id) (update : MutationPartition Pos CounterUpdate) (clockOffset : UInt64)
  /-- mutations that were merged on the way reach a replica -/
  | deliver (replica : Id) (group : MergeTree (ColumnPartition Pos Key Id))

variable (s : CounterReplicas Pos Key Id)

/-- A node applies `p`, which is made of the mutations `of`. -/
def applyAt (n : Id) (p : ColumnPartition Pos Key Id)
    (of : List (ColumnPartition Pos Key Id)) : CounterReplicas Pos Key Id :=
  { s with
    nodes := update s.nodes n (some (((s.nodes n).getD {}).merge p))
    reached := update s.reached n (s.reached n ++ of) }

/-- A leader turns an update into shards, applies them and sends them. -/
def increment (leader : Id) (m : MutationPartition Pos CounterUpdate) (clockOffset : UInt64) :
    CounterReplicas Pos Key Id :=
  let p := transformCounterUpdatesToShards leader clockOffset m (s.nodes leader)
  { s.applyAt leader p [p] with sent := s.sent ++ [p] }

def deliver (replica : Id) (group : MergeTree (ColumnPartition Pos Key Id)) :
    CounterReplicas Pos Key Id :=
  s.applyAt replica (group.eval {} merge) group.leaves

def step : Op Pos Key Id → Except Empty (CounterReplicas Pos Key Id × Unit)
  | .increment leader m clockOffset => .ok (s.increment leader m clockOffset, ())
  | .deliver replica group => .ok (s.deliver replica group, ())

/-- Updates are increments, and what arrives was sent. -/
def Allowed : Op Pos Key Id → Prop
  | .increment _ m _ => m.InOrder ∧ ∀ pl u, m.cellOf pl = some u → ∃ t delta, u = .live t delta
  | .deliver _ group => ∀ p ∈ group.leaves, p ∈ s.sent

/-- What an operation adds to a counter. -/
def Op.incrementOf (pl : Place Pos) : Op Pos Key Id → Option (Increment Id)
  | .increment leader m clockOffset => match m.cellOf pl with
    | some (.live _ delta) => some ⟨leader, delta, clockOffset.toNat + 1⟩
    | _ => none
  | .deliver .. => none

variable (tr : List (Op Pos Key Id × Unit))

/-- All increments of a counter. -/
def increments (pl : Place Pos) : List (Increment Id) :=
  tr.filterMap fun o => o.1.incrementOf pl

/-- Those that a node led. -/
def led (pl : Place Pos) (n : Id) : List (Increment Id) :=
  (increments tr pl).filter fun i => decide (i.leader = n)

/-- The logical clock after some increments. -/
def clockOf (l : List (Increment Id)) : Nat := (l.map Increment.clock).sum

/-- The logical clocks stay in the range of an `int64_t`. -/
def ClocksFit : Prop := ∀ pl n, clockOf (led tr pl n) < 9223372036854775808

open Increment (delta)

/-- A shard has counted just these increments. -/
structure Counted (l : List (Increment Id)) (s : CounterShard Id) : Prop where
  logicalClock : s.logicalClock = clockOf l
  value : wrap64 s.value = wrap64 (l.map delta).sum

/-- A partition that increments have led to: each shard has counted the first ones that its node led. -/
structure Good (p : ColumnPartition Pos Key Id) : Prop where
  ordered : p.Ordered
  hasCounters : p.HasCounters
  counted : ∀ pl n s, p.shardOf pl n = some s → ∃ l, l <+: led tr pl n ∧ Counted l s

/-- Nothing in the one partition is newer than in the other. -/
def Behind (p q : ColumnPartition Pos Key Id) : Prop :=
  ∀ pl n, OptionLe (fun s t : CounterShard Id => s.logicalClock ≤ t.logicalClock) (p.shardOf pl n) (q.shardOf pl n)

omit [LinearOrder Id] in
theorem isJoin_newer (ok : CounterShard Id → Prop) : IsJoin ok (fun s t => s.logicalClock ≤ t.logicalClock) newer :=
  .of_choice (fun _ => le_rfl) (fun _ _ _ => le_trans) fun s t _ _ => by
    unfold newer
    split
    next lt =>
      exact .inr ⟨rfl, lt.le⟩
    next ge =>
      exact .inl ⟨rfl, not_lt.1 ge⟩

/-- Merging is a join: it keeps the newer of each shard. -/
theorem isJoin_merge : IsJoin (Good tr) Behind (merge (C := ColumnCell Key Id) · ·) := by
  have shards := IsJoin.pi fun pl : Place Pos => IsJoin.pi fun n : Id =>
    (isJoin_newer fun s => ∃ l, l <+: led tr pl n ∧ Counted l s).option
  have hom : ∀ p q : ColumnPartition Pos Key Id, Good tr p → Good tr q → (p.merge q).shardOf =
      fun pl n => Option.merge newer (p.shardOf pl n) (q.shardOf pl n) := fun p q hp hq =>
    funext fun pl => funext (      shardOf_merge hp.ordered hq.ordered hp.hasCounters hq.hasCounters pl)
  refine shards.comap shardOf (fun p q hp hq => ⟨hp.ordered.merge hq.ordered,
    .merge hp.ordered hq.ordered hp.hasCounters hq.hasCounters, ?_⟩) (fun p hp => hp.counted) hom
  rw [hom p q hp hq]
  exact shards.closed _ _ hp.counted hq.counted

section Log

variable {tr : List (Op Pos Key Id × Unit)} {pl : Place Pos} {n : Id}

theorem led_concat (o : Op Pos Key Id) : led (tr ++ [(o, ())]) pl n =
    led tr pl n ++ (o.incrementOf pl).toList.filter fun i => decide (i.leader = n) := by
  unfold led increments
  cases h : o.incrementOf pl <;> simp [h]

theorem led_mono (o : Op Pos Key Id) : led tr pl n <+: led (tr ++ [(o, ())]) pl n := by
  rw [led_concat]
  exact prefix_append _ _

theorem Good.concat {p : ColumnPartition Pos Key Id} (h : Good tr p) (o : Op Pos Key Id) :
    Good (tr ++ [(o, ())]) p where
  ordered := h.ordered
  hasCounters := h.hasCounters
  counted pl n s hs := by
    obtain ⟨l, first, counted⟩ := h.counted pl n s hs
    exact ⟨l, first.trans (led_mono o), counted⟩

theorem clock_pos : ∀ i ∈ led tr pl n, 0 < i.clock := by
  intro i hi
  obtain ⟨⟨o, u⟩, mem, ho⟩ := mem_filterMap.1 (mem_of_mem_filter hi)
  cases o with
  | deliver => cases ho
  | increment leader m clockOffset =>
    simp only [Op.incrementOf] at ho
    split at ho <;> cases ho
    exact Nat.succ_pos _

omit [LinearOrder Id] in
theorem clockOf_append (l m : List (Increment Id)) : clockOf (l ++ m) = clockOf l + clockOf m := by
  simp [clockOf]

variable {l : List (Increment Id)}

omit [LinearOrder Id] in
theorem clockOf_le {m : List (Increment Id)} (first : l <+: m) : clockOf l ≤ clockOf m := by
  obtain ⟨r, rfl⟩ := first
  rw [clockOf_append]
  exact Nat.le_add_right _ _

/-- A clock that has gone all the way has counted everything. -/
theorem eq_of_clockOf_le (first : l <+: led tr pl n) (le : clockOf (led tr pl n) ≤ clockOf l) : l = led tr pl n := by
  obtain ⟨r, hr⟩ := first
  rw [← hr, clockOf_append] at le
  cases r with
  | nil => simpa using hr
  | cons i r =>
    have pos := clock_pos i (hr ▸ mem_append_right l mem_cons_self)
    simp only [clockOf, map_cons, sum_cons] at le
    omega

end Log

/-- The shard that a node has of itself counts all that it led. -/
def Owns (l : List (Increment Id)) : Option (CounterShard Id) → Prop
  | none => l = []
  | some s => Counted l s

variable {l : List (Increment Id)} {o : Option (CounterShard Id)}

omit [LinearOrder Id] in
/-- A shard that has counted only the first of them does not replace it. -/
theorem Owns.merge_of_longer {o' : Option (CounterShard Id)} (own : Owns l o)
    (counted : ∀ t, o' = some t → ∃ l', l' <+: l ∧ Counted l' t) : Owns l (Option.merge newer o o') := by
  cases o' with
  | none => simpa using own
  | some t =>
    obtain ⟨l', first, some_counted⟩ := counted t rfl
    cases o with
    | none =>
      have none : l = [] := own
      subst none
      rw [prefix_nil.1 first] at some_counted
      exact some_counted
    | some u =>
      have all_counted : Counted l u := own
      have le := clockOf_le first
      have old : ¬u.logicalClock < t.logicalClock := by
        rw [all_counted.logicalClock, some_counted.logicalClock]
        omega
      rw [Option.merge_some_some, newer, if_neg old]
      exact own

variable {t : CounterShard Id}

omit [LinearOrder Id] in
/-- A shard that has counted more replaces it. -/
theorem Owns.merge_of_lt {l' : List (Increment Id)} (own : Owns l o) (counted : Counted l' t)
    (lt : clockOf l < clockOf l') : Owns l' (Option.merge newer o (some t)) := by
  cases o with
  | none => exact counted
  | some u =>
    have before : Counted l u := own
    have newer : u.logicalClock < t.logicalClock := by
      rw [before.logicalClock, counted.logicalClock]
      omega
    rw [Option.merge_some_some, CounterShard.newer, if_pos newer]
    exact counted

/-- The shard that a leader makes of an update. -/
def nextShard (leader : Id) (clockOffset : UInt64) (delta : Int) : Option (CounterShard Id) → CounterShard Id
  | none => ⟨leader, delta, clockIncrement clockOffset⟩
  | some cs => cs.update delta (clockIncrement clockOffset)

theorem getShard_transformCell (leader : Id) (clockOffset : UInt64) (t delta : Int)
    (ofLeader : ∀ cs, o = some cs → cs.id = leader) (n : Id) :
    (transformCell leader clockOffset (.live t delta) o).getShard n =
      if n = leader then some (nextShard leader clockOffset delta o) else none := by
  have single : ∀ s : CounterShard Id, s.id = leader →
      (CounterCell.fromSingleShard t s).getShard n = if n = leader then some s else none := by
    rintro s rfl
    simp [CounterCell.fromSingleShard, CounterCell.getShard, find?_singleton, eq_comm]
  cases o with
  | none => exact single _ rfl
  | some cs => exact single _ (ofLeader cs rfl)

open CounterReplicas (nextShard)

omit [LinearOrder Id] in
/-- It counts one more. -/
theorem Owns.nextShard (own : Owns l o) {leader : Id} {clockOffset : UInt64} {delta : Int}
    (fits : clockOf (l ++ [⟨leader, delta, clockOffset.toNat + 1⟩]) < 9223372036854775808) :
    Counted (l ++ [⟨leader, delta, clockOffset.toNat + 1⟩]) (nextShard leader clockOffset delta o) := by
  have total : clockOf (l ++ [⟨leader, delta, clockOffset.toNat + 1⟩]) = clockOf l + (clockOffset.toNat + 1) := by
    simp [clockOf]
  have clock : clockIncrement clockOffset = clockOffset.toNat + 1 := wrap64_of_lt (by omega) (by omega)
  cases o with
  | none =>
    have none : l = [] := own
    subst none
    refine ⟨?_, ?_⟩
    · simp [nextShard, clock, clockOf]
    · simp [nextShard]
  | some cs =>
    refine ⟨?_, ?_⟩
    · simp only [nextShard, CounterShard.update, clock, own.logicalClock, total]
      rw [wrap64_of_lt (by omega) (by omega)]
      omega
    · simp only [nextShard, CounterShard.update, wrap64_wrap64, map_append, sum_append]
      exact wrap64_add_congr own.value (by simp)

/-- What holds of the nodes after the operations of a trace. -/
structure Converging (s : CounterReplicas Pos Key Id) : Prop where
  sent : ∀ p ∈ s.sent, Good tr p
  nodes : ∀ n p, s.nodes n = some p → Good tr p
  own : ∀ n pl, Owns (led tr pl n) ((s.nodes n).bind fun p => p.shardOf pl n)
  /-- the last increment was sent -/
  newest : ∀ n pl, led tr pl n ≠ [] → ∃ p ∈ s.sent, ∃ t, p.shardOf pl n = some t ∧ t.logicalClock = clockOf (led tr pl n)
  reached : ∀ r, ∀ p ∈ s.reached r, ∃ q, s.nodes r = some q ∧ Behind p q

theorem good_empty : Good tr ({} : ColumnPartition Pos Key Id) where
  ordered := ordered_empty
  hasCounters pl d hd := by
    rw [dataOf_empty] at hd
    cases hd
  counted pl n s hs := by
    rw [shardOf, dataOf_empty] at hs
    cases hs

theorem converging_empty : Converging [] ({} : CounterReplicas Pos Key Id) where
  sent := nofun
  nodes _ _ hp := nomatch hp
  own _ _ := rfl
  newest _ _ h := absurd rfl h
  reached := nofun

variable {tr : List (Op Pos Key Id × Unit)} {s : CounterReplicas Pos Key Id}

theorem shardOf_getD (o : Option (ColumnPartition Pos Key Id)) (pl : Place Pos) (n : Id) :
    (o.getD {}).shardOf pl n = o.bind fun p => p.shardOf pl n := by
  cases o with
  | none =>
    simp only [Option.getD_none, shardOf, dataOf_empty]
    rfl
  | some p => rfl

section ApplyAt

variable (nodes : ∀ n p, s.nodes n = some p → Good tr p) {p : ColumnPartition Pos Key Id} (hp : Good tr p)
  {of : List (ColumnPartition Pos Key Id)}

include nodes

theorem good_getD (n : Id) : Good tr ((s.nodes n).getD {}) := by
  cases hn : s.nodes n with
  | none => exact good_empty tr
  | some p => exact nodes n p hn

include hp

theorem good_applyAt (n : Id) (of : List (ColumnPartition Pos Key Id)) : ∀ r q, (s.applyAt n p of).nodes r = some q → Good tr q := by
  intro r q hq
  by_cases here : r = n
  · subst here
    simp only [applyAt, update_self, Option.some.injEq] at hq
    subst hq
    exact (isJoin_merge tr).closed _ _ (good_getD nodes r) hp
  · simp only [applyAt, update_of_ne here] at hq
    exact nodes r q hq

/-- A node that has applied a partition is not behind what the partition was made of, nor what it had applied
before. -/
theorem behind_applyAt (reached : ∀ r, ∀ p ∈ s.reached r, ∃ q, s.nodes r = some q ∧ Behind p q) (made : ∀ q ∈ of, Behind q p)
    {n : Id} : ∀ r, ∀ q ∈ (s.applyAt n p of).reached r, ∃ q', (s.applyAt n p of).nodes r = some q' ∧ Behind q q' := by
  have join := isJoin_merge tr
  intro r q hq
  by_cases here : r = n
  · subst here
    simp only [applyAt, update_self] at hq ⊢
    refine ⟨_, rfl, ?_⟩
    rcases mem_append.1 hq with hq | hq
    · obtain ⟨q', hr, behind⟩ := reached r q hq
      rw [hr]
      exact join.trans _ _ _ behind (join.left _ _ (nodes r q' hr) hp)
    · exact join.trans _ _ _ (made q hq) (join.right _ _ (good_getD nodes r) hp)
  · simp only [applyAt, update_of_ne here] at hq ⊢
    exact reached r q hq

theorem shard_applyAt (n : Id) (pl : Place Pos) : (((s.applyAt n p of).nodes n).bind fun q => q.shardOf pl n) =
    Option.merge newer ((s.nodes n).bind fun q => q.shardOf pl n) (p.shardOf pl n) := by
  have base := good_getD nodes n
  simp only [applyAt, update_self, Option.bind_some]
  rw [shardOf_merge base.ordered hp.ordered base.hasCounters hp.hasCounters, shardOf_getD]

end ApplyAt

/-- Shards that are delivered are not newer than the node's own. -/
theorem Converging.deliver (h : Converging tr s) {r : Id} {group : MergeTree (ColumnPartition Pos Key Id)}
    (was : ∀ p ∈ group.leaves, p ∈ s.sent) :
    Converging tr (s.deliver r group) := by
  have join := isJoin_merge tr
  have goods : ∀ p ∈ group.leaves, Good tr p := fun p hp => h.sent p (was p hp)
  have good : Good tr (group.eval {} merge) := MergeTree.ok_eval join (good_empty tr) goods
  refine ⟨h.sent, good_applyAt h.nodes good _ _, fun n pl => ?_, h.newest,
    behind_applyAt h.nodes good h.reached (MergeTree.le_eval join (good_empty tr) goods)⟩
  by_cases here : n = r
  · subst here
    rw [CounterReplicas.deliver, shard_applyAt h.nodes good]
    exact (h.own n pl).merge_of_longer (good.counted pl n)
  · simpa only [CounterReplicas.deliver, applyAt, update_of_ne here] using h.own n pl

section Increment

variable {leader : Id} {m : MutationPartition Pos CounterUpdate} {clockOffset : UInt64} {pl : Place Pos}

theorem incrementOf_live {t delta : Int} (h : m.cellOf pl = some (.live t delta)) :
    (Op.increment leader m clockOffset : Op Pos Key Id).incrementOf pl = some ⟨leader, delta, clockOffset.toNat + 1⟩ := by
  simp [Op.incrementOf, h]

theorem incrementOf_none (h : m.cellOf pl = none) :
    (Op.increment leader m clockOffset : Op Pos Key Id).incrementOf pl = none := by
  simp [Op.incrementOf, h]

/-- The shards of a transformed update are those of its leader. -/
theorem Converging.shardOf_transform (h : Converging tr s) (ordered : m.InOrder)
    (live : ∀ pl u, m.cellOf pl = some u → ∃ t delta, u = .live t delta) (pl : Place Pos) (n : Id) :
    (transformCounterUpdatesToShards leader clockOffset m (s.nodes leader)).shardOf pl n =
      if n = leader then ((Op.increment leader m clockOffset : Op Pos Key Id).incrementOf pl).map fun i =>
        nextShard leader clockOffset i.delta ((s.nodes leader).bind fun p => p.shardOf pl leader)
      else none := by
  unfold shardOf
  rw [dataOf_transform ordered fun p hp => (h.nodes leader p hp).ordered, Option.bind_map]
  cases hu : m.cellOf pl with
  | none => simp [incrementOf_none hu]
  | some u =>
    obtain ⟨t, delta, rfl⟩ := live pl u hu
    rw [incrementOf_live hu, Option.bind_assoc]
    refine getShard_transformCell leader clockOffset t delta (fun cs hcs => ?_) n
    obtain ⟨p, hp, hcs⟩ := Option.bind_eq_some_iff.1 hcs
    exact id_shardOf hcs

theorem led_increment_live {t delta : Int} (h : m.cellOf pl = some (.live t delta)) :
    led (tr ++ [(.increment leader m clockOffset, ())]) pl leader = led tr pl leader ++ [⟨leader, delta, clockOffset.toNat + 1⟩] := by
  rw [led_concat, incrementOf_live h]
  simp

/-- The increments of other counters and of other leaders stay what they were. -/
theorem led_increment_of_ne {n : Id} (h : n = leader → m.cellOf pl = none) :
    led (tr ++ [(.increment leader m clockOffset, ())]) pl n = led tr pl n := by
  rw [led_concat]
  by_cases here : n = leader
  · simp [incrementOf_none (h here)]
  · have other : ∀ i ∈ ((Op.increment leader m clockOffset : Op Pos Key Id).incrementOf pl).toList, i.leader = leader := by
      intro i hi
      simp only [Op.incrementOf] at hi
      split at hi
      · simp only [Option.toList_some, mem_singleton] at hi
        rw [hi]
      · simp at hi
    rw [filter_eq_nil_iff.2 fun i hi => by simpa [other i hi] using Ne.symm here, append_nil]

variable (h : Converging tr s) (ordered : m.InOrder) (live : ∀ pl u, m.cellOf pl = some u → ∃ t delta, u = .live t delta)
  (fits : ClocksFit (tr ++ [(.increment leader m clockOffset, ())]))

include h ordered live fits

/-- What a leader sends has counted all that it led. -/
theorem Converging.counted_transform {n : Id}
    (ht : (transformCounterUpdatesToShards leader clockOffset m (s.nodes leader)).shardOf pl n = some t) :
    Counted (led (tr ++ [(.increment leader m clockOffset, ())]) pl n) t := by
  rw [h.shardOf_transform ordered live] at ht
  split at ht
  next here =>
    subst here
    cases hu : m.cellOf pl with
    | none =>
      rw [incrementOf_none hu] at ht
      cases ht
    | some u =>
      obtain ⟨time, delta, rfl⟩ := live pl u hu
      have fits := fits pl n
      rw [incrementOf_live hu] at ht
      cases ht
      rw [led_increment_live hu] at fits ⊢
      exact (h.own n pl).nextShard fits
  · cases ht

theorem Converging.good_transform : Good (tr ++ [(.increment leader m clockOffset, ())])
    (transformCounterUpdatesToShards leader clockOffset m (s.nodes leader)) where
  ordered := .transform ordered fun p hp => (h.nodes leader p hp).ordered
  hasCounters pl d hd := by
    rw [dataOf_transform ordered fun p hp => (h.nodes leader p hp).ordered] at hd
    obtain ⟨u, hu, rfl⟩ := Option.map_eq_some_iff.1 hd
    obtain ⟨t, delta, rfl⟩ := live pl u hu
    refine ⟨_, rfl, ?_⟩
    generalize ((s.nodes leader).bind fun p => p.dataOf pl).bind (fun d => d.getShard leader) = o
    cases o <;> rfl
  counted pl n t ht := ⟨_, prefix_rfl, h.counted_transform ordered live fits ht⟩

theorem Converging.increment :
    Converging (tr ++ [(.increment leader m clockOffset, ())]) (s.increment leader m clockOffset) := by
  have good := h.good_transform ordered live fits
  have nodes : ∀ n p, s.nodes n = some p → Good (tr ++ [(.increment leader m clockOffset, ())]) p :=
    fun n p hp => (h.nodes n p hp).concat _
  -- where the update has a cell, the leader's shard is replaced
  have replaced : ∀ {pl t delta}, m.cellOf pl = some (.live t delta) → ∃ sh,
      (transformCounterUpdatesToShards leader clockOffset m (s.nodes leader)).shardOf pl leader = some sh ∧
        Counted (led (tr ++ [(.increment leader m clockOffset, ())]) pl leader) sh := fun {pl t delta} hu => by
    have found := @Converging.shardOf_transform Pos Key Id _ _ _ tr s leader m clockOffset h ordered live pl leader
    rw [if_pos rfl, incrementOf_live hu] at found
    exact ⟨_, found, h.counted_transform ordered live fits found⟩
  have kept := good_applyAt nodes good leader [transformCounterUpdatesToShards leader clockOffset m (s.nodes leader)]
  refine ⟨?_, kept, fun n pl => ?_, fun n pl some_led => ?_, ?_⟩
  · rintro p hp
    rcases mem_append.1 hp with hp | hp
    · exact (h.sent p hp).concat _
    · rw [mem_singleton.1 hp]
      exact good
  · by_cases here : n = leader
    · subst here
      have own := h.own n pl
      rw [CounterReplicas.increment, shard_applyAt nodes good]
      cases hu : m.cellOf pl with
      | none =>
        rw [h.shardOf_transform ordered live, incrementOf_none hu, led_increment_of_ne fun _ => hu]
        simpa using own
      | some u =>
        obtain ⟨t, delta, rfl⟩ := live pl u hu
        obtain ⟨sh, found, counted⟩ := replaced hu
        rw [found]
        refine own.merge_of_lt counted ?_
        rw [led_increment_live hu, clockOf_append]
        simp [clockOf]
    · rw [led_increment_of_ne fun e => absurd e here]
      simpa only [CounterReplicas.increment, applyAt, update_of_ne here] using h.own n pl
  · by_cases here : n = leader ∧ m.cellOf pl ≠ none
    · obtain ⟨rfl, some_cell⟩ := here
      obtain ⟨u, hu⟩ := Option.ne_none_iff_exists'.1 some_cell
      obtain ⟨t, delta, rfl⟩ := live pl u hu
      obtain ⟨sh, found, counted⟩ := replaced hu
      exact ⟨_, mem_append_right _ (mem_singleton.2 rfl), sh, found, counted.logicalClock⟩
    · have same := @led_increment_of_ne Pos Key Id _ _ _ tr leader m clockOffset pl n fun e => by
        by_contra some_cell
        exact here ⟨e, some_cell⟩
      rw [same] at some_led ⊢
      obtain ⟨p, hp, newest⟩ := h.newest n pl some_led
      exact ⟨p, mem_append_left _ hp, newest⟩
  · exact behind_applyAt nodes good h.reached fun q hq => by
      rw [mem_singleton.1 hq]
      exact (isJoin_merge tr).refl _

end Increment

theorem ClocksFit.of_concat {o : Op Pos Key Id} (h : ClocksFit (tr ++ [(o, ())])) : ClocksFit tr :=
  fun pl n => (clockOf_le (led_mono o)).trans_lt (h pl n)

theorem converging (run : Run step (fun _ s o => s.Allowed o) ({} : CounterReplicas Pos Key Id) tr s) :
    ClocksFit tr → Converging tr s := by
  refine run.invariant (fun tr s => ClocksFit tr → Converging tr s) (fun _ => converging_empty) ?_
  intro tr s o s' _ ih allowed next fits
  have before := ih fits.of_concat
  cases o with
  | increment leader m clockOffset =>
    cases next
    exact before.increment allowed.1 allowed.2 fits
  | deliver replica group =>
    cases next
    have same : ∀ pl n, led (tr ++ [(Op.deliver replica group, ())]) pl n = led tr pl n := fun pl n => by
      rw [led_concat]
      simp [Op.incrementOf]
    obtain ⟨sent, nodes, own, newest, reached⟩ := before.deliver allowed
    refine ⟨fun p hp => (sent p hp).concat _, fun n p hp => (nodes n p hp).concat _, fun n pl => ?_, fun n pl h => ?_, reached⟩
    · rw [same]
      exact own n pl
    · rw [same] at h ⊢
      exact newest n pl h

/-- The increments of a counter, summed up by leader. -/
theorem sum_led {ids : List Id} (nodup : ids.Nodup) {l : List (Increment Id)} (all : ∀ i ∈ l, i.leader ∈ ids) :
    (ids.map fun n => ((l.filter fun i => decide (i.leader = n)).map delta).sum).sum =
      (l.map delta).sum := by
  induction l with
  | nil => simp
  | cons i l ih =>
    obtain ⟨first, rest⟩ := forall_mem_cons.1 all
    have split : ∀ n, (((i :: l).filter fun i => decide (i.leader = n)).map delta).sum =
        (if n = i.leader then i.delta else 0) + ((l.filter fun i => decide (i.leader = n)).map delta).sum := fun n => by
      by_cases here : i.leader = n
      · simp [here]
      · simp [here, Ne.symm here]
    simp only [split]
    rw [sum_map_add, ih rest, sum_map_ite_eq, count_eq_one_of_mem nodup first]
    simp

theorem wrap64_sum_congr {α : Type} {f g : α → Int} {l : List α} (h : ∀ a ∈ l, wrap64 (f a) = wrap64 (g a)) :
    wrap64 (l.map f).sum = wrap64 (l.map g).sum := by
  induction l with
  | nil => rfl
  | cons a l ih =>
    obtain ⟨first, rest⟩ := forall_mem_cons.1 h
    exact wrap64_add_congr first (ih rest)

section Reached

variable {r : Id} (h : Converging tr s) (all : ∀ p ∈ s.sent, p ∈ s.reached r) {pl : Place Pos}

include h all

/-- Where everything has arrived there is a shard of every leader. -/
theorem Converging.exists_shard {n : Id} (some_led : led tr pl n ≠ []) : ∃ q, s.nodes r = some q ∧
    ∃ t, q.shardOf pl n = some t ∧ (clockOf (led tr pl n) : Int) ≤ t.logicalClock := by
  obtain ⟨p, hp, t, ht, clock⟩ := h.newest n pl some_led
  obtain ⟨q, hq, behind⟩ := h.reached r p (all p hp)
  have le := behind pl n
  rw [ht] at le
  cases hs : q.shardOf pl n with
  | none =>
    rw [hs] at le
    exact le.elim
  | some u =>
    rw [hs] at le
    exact ⟨q, hq, u, hs, clock ▸ le⟩

/-- It has counted all that the leader led. -/
theorem Converging.counted_all {q : ColumnPartition Pos Key Id} (hq : s.nodes r = some q) {n : Id}
    (ht : q.shardOf pl n = some t) : Counted (led tr pl n) t := by
  obtain ⟨l, first, counted⟩ := (h.nodes r q hq).counted pl n t ht
  by_cases none_led : led tr pl n = []
  · rw [none_led] at first ⊢
    rwa [prefix_nil.1 first] at counted
  · obtain ⟨q', hq', t', ht', le⟩ := h.exists_shard all none_led
    cases hq.symm.trans hq'
    cases ht.symm.trans ht'
    rw [counted.logicalClock] at le
    rwa [eq_of_clockOf_le first (by omega)] at counted

end Reached

/-- Once all mutations have reached a replica its counters show the sums of all deltas, modulo 2^64. -/
theorem totalValue_eq_sum (run : Run step (fun _ s o => s.Allowed o) ({} : CounterReplicas Pos Key Id) tr s)
    (fits : ClocksFit tr) {r : Id} (all : ∀ p ∈ s.sent, p ∈ s.reached r) {pl : Place Pos} (incremented : increments tr pl ≠ []) :
    ∃ c : CounterCell Id, ((s.nodes r).bind fun p => p.dataOf pl) = some (.counter c) ∧ c.isLive ∧
      c.totalValue = wrap64 ((increments tr pl).map delta).sum := by
  have h := converging run fits
  have some_led : ∀ i ∈ increments tr pl, led tr pl i.leader ≠ [] := fun i hi =>
    ne_nil_of_mem (mem_filter.2 ⟨hi, by simp⟩)
  obtain ⟨i, hi⟩ := exists_mem_of_ne_nil _ incremented
  obtain ⟨q, hq, t, ht, -⟩ := h.exists_shard all (some_led i hi)
  obtain ⟨d, hd, -⟩ := Option.bind_eq_some_iff.1 ht
  obtain ⟨c, rfl, hc⟩ := (h.nodes r q hq).hasCounters pl d hd
  refine ⟨c, by rw [hq]; exact hd, hc, ?_⟩
  cases c with
  | dead => cases hc
  | live time shards sorted =>
    have shardOf : ∀ n, q.shardOf pl n = shards.find? fun s => decide (s.id = n) := fun n => by
      rw [shardOf, hd]
      rfl
    have leaders : ∀ j ∈ increments tr pl, j.leader ∈ shards.map CounterShard.id := fun j hj => by
      obtain ⟨q', hq', u, hu, -⟩ := h.exists_shard all (some_led j hj)
      cases hq.symm.trans hq'
      rw [← id_shardOf hu]
      exact mem_map_of_mem (mem_of_find?_eq_some ((shardOf _).symm.trans hu))
    have values : ∀ u ∈ shards, wrap64 u.value = wrap64 ((led tr pl u.id).map delta).sum := fun u hu =>
      (h.counted_all all hq ((shardOf u.id).trans (sorted.mem_iff_find?.1 hu))).value
    rw [CounterCell.totalValue_live, wrap64_sum_congr values, ← sum_led sorted.nodup leaders, map_map]
    rfl

/-- The clocks fit if all clock offsets together do. -/
theorem ClocksFit.of_sum (h : (tr.map fun o => match o.1 with
    | .increment _ _ clockOffset => clockOffset.toNat + 1
    | .deliver .. => 0).sum < 9223372036854775808) : ClocksFit tr := by
  intro pl n
  refine Nat.lt_of_le_of_lt ?_ h
  clear h
  induction tr using reverseRecOn with
  | nil => exact Nat.zero_le _
  | append_singleton tr o ih =>
    obtain ⟨o, -⟩ := o
    rw [led_concat, clockOf_append, map_append, sum_append]
    refine Nat.add_le_add ih ?_
    cases o with
    | deliver => simp [Op.incrementOf, clockOf]
    | increment leader m clockOffset =>
      simp only [Op.incrementOf]
      split
      · by_cases here : leader = n <;> simp [clockOf, here]
      · simp [clockOf]

/-- An update of the counter in the first static column. -/
def bump (delta : Int) : MutationPartition Nat CounterUpdate := { staticRow := { cells := [(0, .live 1 delta)] } }

theorem bump_allowed (delta : Int) (leader : Nat) (clockOffset : UInt64) (s : CounterReplicas Nat Nat Nat) :
    s.Allowed (.increment leader (bump delta) clockOffset) := by
  refine ⟨⟨pairwise_singleton _ _, .nil, nofun, RangeTombstoneList.wellFormed_nil⟩, ?_⟩
  intro pl u hu
  cases pl with
  | static id =>
    obtain ⟨c, hc, rfl⟩ := Option.map_eq_some_iff.1 hu
    rw [mem_singleton.1 (mem_of_find?_eq_some hc)]
    exact ⟨1, delta, rfl⟩
  | row x id => cases hu

theorem totalValue_two_leaders : ∃ (tr : List (Op Nat Nat Nat × Unit)) (s : CounterReplicas Nat Nat Nat),
    Run step (fun _ s o => s.Allowed o) {} tr s ∧ (∀ p ∈ s.sent, p ∈ s.reached 1) ∧
      ∃ c : CounterCell Nat, ((s.nodes 1).bind fun p => p.dataOf (.static 0)) = some (.counter c) ∧ c.isLive ∧
        c.totalValue = 8 := by
  let s : CounterReplicas Nat Nat Nat := (({} : CounterReplicas Nat Nat Nat).increment 0 (bump 5) 0).increment 1 (bump 3) 0
  let sent : ColumnPartition Nat Nat Nat := transformCounterUpdatesToShards 0 0 (bump 5) none
  have was : s.Allowed (.deliver 1 (.leaf sent)) := fun p hp => mem_append_left _ hp
  have run : Run step (fun _ s o => s.Allowed o) {} _ (s.deliver 1 (.leaf sent)) :=
    .snoc (.snoc (.snoc .init (bump_allowed 5 0 0 _) rfl) (bump_allowed 3 1 0 _) rfl) was rfl
  have all : ∀ p ∈ (s.deliver 1 (.leaf sent)).sent, p ∈ (s.deliver 1 (.leaf sent)).reached 1 := by
    intro p hp
    rcases mem_append.1 hp with hp | hp
    · exact mem_append_right _ hp
    · exact mem_append_left _ (mem_append_right _ hp)
  refine ⟨_, _, run, all, ?_⟩
  exact totalValue_eq_sum run (.of_sum (by decide)) all (cons_ne_nil _ _)

/-- Without a clock that fits a newer shard is taken for an older one, and an increment is lost. -/
theorem overflow_loses_increment : ∃ (tr : List (Op Nat Nat Nat × Unit)) (s : CounterReplicas Nat Nat Nat),
    Run step (fun _ s o => s.Allowed o) {} tr s ∧ (∀ p ∈ s.sent, p ∈ s.reached 0) ∧
      ((increments tr (.static 0)).map delta).sum = 2 ∧
      ∃ c : CounterCell Nat, ((s.nodes 0).bind fun p => p.dataOf (.static 0)) = some (.counter c) ∧ c.isLive ∧
        c.totalValue = 1 := by
  let s : CounterReplicas Nat Nat Nat :=
    (({} : CounterReplicas Nat Nat Nat).increment 0 (bump 1) 9223372036854775806).increment 0 (bump 1) 0
  have run : Run step (fun _ s o => s.Allowed o) {} _ s :=
    .snoc (.snoc .init (bump_allowed 1 0 9223372036854775806 _) rfl) (bump_allowed 1 0 0 _) rfl
  refine ⟨_, s, run, fun p hp => hp, rfl, _, rfl, rfl, rfl⟩

end CounterReplicas

end ScyllaMoon.Coordinator
