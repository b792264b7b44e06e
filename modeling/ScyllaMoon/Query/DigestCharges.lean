import ScyllaMoon.Query.ResultBuilder

/-!
# What digests are charged

A replica that is asked for a digest alone is to stop where one that is asked for the result stops. It is charged
for other bytes, though: for the static row, for the number of its cells instead of the cells, and for each row also for
the number of rows. So the two are charged alike only as long as no row is read, and the cells of the static row are
exactly as long as their number.
-/

namespace ScyllaMoon.Query

open Lib Mutation Reader CompactMutation List

variable {PK Pos Key Id : Type} [LinearOrder Key] [LinearOrder Id]

/-- A partition of a mutation stream, with the ranges that the slice has for its key -/
structure StreamPartition (PK Pos Key Id : Type) [LinearOrder Key] [LinearOrder Id] where
  key : PK
  rowRanges : List (RowRange Pos)
  tombstone : Tombstone := {}
  staticRow : Option (Row (ColumnCell Key Id)) := none
  rows : List ((Pos × DeletableRow (ColumnCell Key Id)) ⊕ RangeTombstone Pos) := []

/-- The fragments between the start of a partition and its end -/
def StreamPartition.fragmentOf :
    (Pos × DeletableRow (ColumnCell Key Id)) ⊕ RangeTombstone Pos → Fragment Pos (ColumnCell Key Id)
  | .inl r => .clusteringRow r.1 r.2
  | .inr rt => .rangeTombstone rt

open StreamPartition (fragmentOf)

/-- The fragments of a partition -/
def StreamPartition.fragments (p : StreamPartition PK Pos Key Id) : List (Fragment Pos (ColumnCell Key Id)) :=
  .partitionStart p.tombstone :: (p.staticRow.toList.map .staticRow ++ (p.rows.map fragmentOf ++ [.partitionEnd]))

/-- What the compactor hands to the builder of a partition -/
structure Handed (PK Pos Key Id : Type) [LinearOrder Key] [LinearOrder Id] where
  key : PK
  rowRanges : List (RowRange Pos)
  outs : List (Compacted Pos (ColumnCell Key Id))

section HandedOn

variable [LinearOrder Pos] (slice : PartitionSlice Pos Key) (now gcGrace : Int)

/-- The partitions that the compactor hands on. It does not depend on the builder until that wants no more. -/
def handedOn : CompactMutation Pos → List (StreamPartition PK Pos Key Id) → List (Handed PK Pos Key Id)
  | _, [] => []
  | s, p :: ps =>
    let (s, outs, stop) :=
      consumePartition (queryMode { slice with rowRanges := p.rowRanges } now gcGrace) s p.fragments
    let rest := if stop then [] else handedOn s ps
    if outs.isEmpty then rest else ⟨p.key, p.rowRanges, outs⟩ :: rest

end HandedOn

section Run

variable (slice : PartitionSlice Pos Key) (keySize : Pos → Nat)

/-- The builder consumes partitions until it wants no more. -/
def ResultBuilder.run : ResultBuilder PK Pos Key Id → List (Handed PK Pos Key Id) → ResultBuilder PK Pos Key Id
  | b, [] => b
  | b, h :: hs =>
    let consumed := b.consumePartition { slice with rowRanges := h.rowRanges } keySize h.key h.outs
    if consumed.2 then consumed.1 else consumed.1.run hs

end Run

section Alike

/-- The static row among what is handed on -/
def staticOf : Compacted Pos (ColumnCell Key Id) → Option (Row (ColumnCell Key Id))
  | .staticRow row _ _ => some row
  | _ => none

/-- A row among what is handed on -/
def isRow : Compacted Pos (ColumnCell Key Id) → Bool
  | .clusteringRow .. => true
  | _ => false

variable (slice : PartitionSlice Pos Key)

/-- The cells of the static row are as long as their number: there are four, of which none is live. -/
def StaticFits (r : Row (ColumnCell Key Id)) : Prop :=
  slice.staticColumns = [] ∨ getCompactedRowSlice slice r slice.staticColumns = replicate 4 none

/-- The partition has no rows, and its static row fits. -/
def Handed.Alike (h : Handed PK Pos Key Id) : Prop :=
  (∀ o ∈ h.outs, isRow o = false) ∧ StaticFits slice ((h.outs.findSome? staticOf).getD {})

/-- What the static row of a partition is charged with -/
def staticTotal : Nat := if slice.staticColumns.isEmpty then 0 else placeHolderSize

/-- The partition is given back, and there is more than the default limit. -/
def Handed.EndsRead (h : Handed PK Pos Key Id) (total : Nat) : Prop :=
  (h.outs.findSome? staticOf).isSome = true ∧ hasCkSelector h.rowRanges = false ∧ 1024 * 1024 < total

/-- As far as the read gets, the partitions have no rows and their static rows fit. -/
def ChargedAlike : (total : Nat) → List (Handed PK Pos Key Id) → Prop
  | _, [] => True
  | total, h :: hs =>
    h.Alike slice ∧ (h.EndsRead (total + staticTotal slice) ∨ ChargedAlike (total + staticTotal slice) hs)

end Alike

section Size

variable {cells : List (Option ResultCell)}

theorem cellsSize_cons {c : Option ResultCell} :
    cellsSize (c :: cells) = optionalSize (c.map ResultCell.size) + cellsSize cells := sum_cons

/-- Only cells that are left out are that short. -/
theorem cellsSize_eq_iff {n : Nat} (small : n ≤ 4) :
    cellsSize cells = n ↔ cells = replicate n none := by
  induction cells generalizing n with
  | nil => cases n <;> simp [cellsSize, replicate_succ]
  | cons c cells ih =>
    rw [cellsSize_cons]
    cases c with
    | none =>
      cases n with
      | zero => simp [optionalSize]
      | succ n =>
        have ih := ih (n := n) (by omega)
        simp only [optionalSize, Option.map_none, Option.getD_none, replicate_succ, cons.injEq, true_and, ← ih]
        omega
    | some c =>
      have long : 4 < optionalSize ((some c).map ResultCell.size) := by
        simp only [optionalSize, Option.map_some, Option.getD_some, ResultCell.size, placeHolderSize]
        omega
      refine iff_of_false (by omega) fun eq => ?_
      cases n with
      | zero => cases eq
      | succ n => cases eq

end Size

section Shape

/-- A row or a range tombstone, as it is handed on -/
abbrev Inner (Pos Key Id : Type) [LinearOrder Key] [LinearOrder Id] :=
  (Pos × DeletableRow (ColumnCell Key Id) × RowTombstone × Bool) ⊕ RangeTombstone Pos

def innerOf : Inner Pos Key Id → Compacted Pos (ColumnCell Key Id)
  | .inl r => .clusteringRow r.1 r.2.1 r.2.2.1 r.2.2.2
  | .inr rt => .rangeTombstone rt

/-- The rows and range tombstones, and where the partition ends -/
abbrev ending (inner : List (Inner Pos Key Id)) : List (Compacted Pos (ColumnCell Key Id)) :=
  inner.map innerOf ++ [.endOfPartition]

/-- Where the partition starts, and its tombstone and its static row, if there are any, before all else -/
abbrev shape (tombs : List Tombstone) (static : Option (Row (ColumnCell Key Id) × Tombstone × Bool))
    (inner : List (Inner Pos Key Id)) : List (Compacted Pos (ColumnCell Key Id)) :=
  .newPartition :: (tombs.map .tombstone ++ (static.toList.map (fun s => .staticRow s.1 s.2.1 s.2.2) ++ ending inner))

/-- What the compactor hands on of a partition -/
def Shaped (outs : List (Compacted Pos (ColumnCell Key Id))) : Prop := ∃ tombs static inner, outs = shape tombs static inner

variable {mode : CompactMutation.Mode} {s : CompactMutation Pos}

/-- Unless something has been handed on already, the partition starts with what is handed on next. -/
theorem partitionIsNotEmpty_eq : ∃ tombs : List Tombstone,
    (s.partitionIsNotEmpty mode : CompactMutation Pos × List (Compacted Pos (ColumnCell Key Id))).2 =
      (if s.emptyPartition then .newPartition :: tombs.map .tombstone else []) ∧
    (s.partitionIsNotEmpty mode : CompactMutation Pos × List (Compacted Pos (ColumnCell Key Id))).1.emptyPartition = false := by
  unfold partitionIsNotEmpty
  split
  · by_cases kept : s.rangeTombstones.partitionTombstone.isSet && !mode.canPurgeTombstone s.rangeTombstones.partitionTombstone
    · exact ⟨[s.rangeTombstones.partitionTombstone], by simp only [kept, if_true]; rfl, rfl⟩
    · exact ⟨[], by simp only [kept]; rfl, rfl⟩
  next other =>
    exact ⟨[], rfl, by simpa using other⟩

theorem consumeEndOfPartition_eq : (s.consumeEndOfPartition mode :
    CompactMutation Pos × List (Compacted Pos (ColumnCell Key Id)) × Bool).2.1 = if s.emptyPartition then [] else [.endOfPartition] := by
  unfold consumeEndOfPartition
  split <;> rfl

variable [LinearOrder Pos]

theorem consume_inner_eq (live : mode.onlyLive = true) (f : (Pos × DeletableRow (ColumnCell Key Id)) ⊕ RangeTombstone Pos) :
    ((s.consume mode (fragmentOf f)).2.1 = [] ∧
      (s.consume mode (fragmentOf f)).1.emptyPartition = s.emptyPartition) ∨
    ∃ (tombs : List Tombstone) (i : _), (s.consume mode (fragmentOf f)).2.1 =
        (if s.emptyPartition then .newPartition :: tombs.map .tombstone else []) ++ [innerOf i] ∧
      (s.consume mode (fragmentOf f)).1.emptyPartition = false := by
  cases f with
  | inl r =>
    obtain ⟨tombs, out, started⟩ := @partitionIsNotEmpty_eq Pos Key Id _ _ mode
      { s with rangeTombstones := s.rangeTombstones.tombstoneForRow r.1 }
    simp only [fragmentOf, consume, consumeClusteringRow, live, if_true]
    split
    · exact .inr ⟨tombs, .inl (r.1, _, _, true), congrArg (· ++ [_]) out, started⟩
    · exact .inl ⟨rfl, rfl⟩
  | inr rt =>
    obtain ⟨tombs, out, started⟩ := @partitionIsNotEmpty_eq Pos Key Id _ _ mode
      { s with rangeTombstones := s.rangeTombstones.apply rt }
    simp only [fragmentOf, consume, consumeRangeTombstone]
    split
    · exact .inr ⟨tombs, .inr rt, congrArg (· ++ [_]) out, started⟩
    · exact .inl ⟨rfl, rfl⟩

theorem consume_static_eq (live : mode.onlyLive = true) (row : Row (ColumnCell Key Id)) :
    ((s.consume mode (.staticRow row)).2 = ([], false) ∧
      (s.consume mode (.staticRow row)).1.emptyPartition = s.emptyPartition) ∨
    ∃ (tombs : List Tombstone) (row' : Row (ColumnCell Key Id)) (t : Tombstone) (isLive : Bool),
      (s.consume mode (.staticRow row)).2.1 =
        (if s.emptyPartition then .newPartition :: tombs.map .tombstone else []) ++ [.staticRow row' t isLive] ∧
      (s.consume mode (.staticRow row)).1.emptyPartition = false ∧ (s.consume mode (.staticRow row)).2.2 = false := by
  simp only [consume, consumeStaticRow, live, Bool.not_true, Bool.false_and, Bool.or_false]
  split
  · obtain ⟨tombs, out, started⟩ := @partitionIsNotEmpty_eq Pos Key Id _ _ mode { s with staticRowLive := (row.compactAndExpire mode.expiry
      { regular := s.rangeTombstones.partitionTombstone, shadowable := s.rangeTombstones.partitionTombstone }).2 }
    exact .inr ⟨tombs, _, _, _, congrArg (· ++ [_]) out, started, rfl⟩
  · exact .inl ⟨rfl, rfl⟩

/-- What is handed on of one fragment, and of those after it. -/
theorem consumePartition_outs {f : Fragment Pos (ColumnCell Key Id)} (inner : f ≠ .partitionEnd)
    (fs : List (Fragment Pos (ColumnCell Key Id))) :
    (consumePartition mode s (f :: fs)).2.1 = (s.consume mode f).2.1 ++
      if (s.consume mode f).2.2 then
        ((s.consume mode f).1.consumeEndOfPartition mode : CompactMutation Pos × List (Compacted Pos (ColumnCell Key Id)) × Bool).2.1
      else (consumePartition mode (s.consume mode f).1 fs).2.1 := by
  rw [consumePartition]
  · generalize s.consume mode f = consumed
    obtain ⟨s', out, stop⟩ := consumed
    cases stop <;> rfl
  · exact inner

/-- What is handed on of the rows and range tombstones, and the end of the partition. -/
theorem consumePartition_rows (live : mode.onlyLive = true)
    (rows : List ((Pos × DeletableRow (ColumnCell Key Id)) ⊕ RangeTombstone Pos)) :
    ∃ (tombs : List Tombstone) (inner : List _),
      (consumePartition mode s (rows.map fragmentOf ++ [.partitionEnd])).2.1 =
        if s.emptyPartition then
          if inner.isEmpty then [] else .newPartition :: (tombs.map .tombstone ++ ending inner)
        else ending inner := by
  induction rows generalizing s with
  | nil => exact ⟨[], [], consumeEndOfPartition_eq⟩
  | cons f rows ih =>
    rw [map_cons, cons_append, consumePartition_outs (by cases f <;> nofun)]
    -- the rows after it, if it does not end the partition
    have after : ∃ (tombs : List Tombstone) (inner : List _),
        (if (s.consume mode (fragmentOf f)).2.2 then
          ((s.consume mode (fragmentOf f)).1.consumeEndOfPartition mode :
            CompactMutation Pos × List (Compacted Pos (ColumnCell Key Id)) × Bool).2.1
        else (consumePartition mode (s.consume mode (fragmentOf f)).1
          (rows.map fragmentOf ++ [.partitionEnd])).2.1) =
        if (s.consume mode (fragmentOf f)).1.emptyPartition then
          if inner.isEmpty then [] else .newPartition :: (tombs.map .tombstone ++ ending inner)
        else ending inner := by
      split
      · exact ⟨[], [], consumeEndOfPartition_eq⟩
      · exact ih
    obtain ⟨tombs', inner, after⟩ := after
    rw [after]
    obtain ⟨none, same⟩ | ⟨tombs, i, out, started⟩ := consume_inner_eq live f
    · exact ⟨tombs', inner, by rw [none, same]; rfl⟩
    · refine ⟨tombs, i :: inner, ?_⟩
      rw [out, started]
      split <;> simp [ending]

/-- The compactor hands on nothing of a partition, or something of that shape. -/
theorem outs_shaped (live : mode.onlyLive = true) (p : StreamPartition PK Pos Key Id) :
    (consumePartition mode s p.fragments).2.1 = [] ∨ Shaped (consumePartition mode s p.fragments).2.1 := by
  have start : (s.consume mode (.partitionStart p.tombstone : Fragment Pos (ColumnCell Key Id))).2 = ([], false) ∧
      (s.consume mode (.partitionStart p.tombstone : Fragment Pos (ColumnCell Key Id))).1.emptyPartition = true := by
    simp only [consume, consumeTombstone, live, Bool.not_true, Bool.false_and]
    split <;> exact ⟨rfl, rfl⟩
  rw [StreamPartition.fragments, consumePartition_outs (f := .partitionStart p.tombstone) nofun, start.1, nil_append, if_neg Bool.false_ne_true]
  generalize (s.consume mode (.partitionStart p.tombstone : Fragment Pos (ColumnCell Key Id))).1 = s at start
  have rowsOnly : ∀ s : CompactMutation Pos, s.emptyPartition = true →
      (consumePartition mode s (p.rows.map fragmentOf ++ [.partitionEnd])).2.1 = [] ∨
      Shaped (consumePartition mode s (p.rows.map fragmentOf ++ [.partitionEnd])).2.1 := by
    intro s empty
    obtain ⟨tombs, inner, outs⟩ := consumePartition_rows live p.rows
    rw [outs, empty, if_pos rfl]
    split
    · exact .inl rfl
    · exact .inr ⟨tombs, none, inner, rfl⟩
  cases static : p.staticRow with
  | none => exact rowsOnly s start.2
  | some row =>
    rw [Option.toList_some, map_singleton, singleton_append, consumePartition_outs (f := .staticRow row) nofun]
    obtain ⟨quiet, same⟩ | ⟨tombs, row', t, isLive, out, started, more⟩ := consume_static_eq (s := s) live row
    · rw [quiet]
      exact rowsOnly _ (same.trans start.2)
    · obtain ⟨_, inner, outs⟩ := consumePartition_rows live p.rows
      refine .inr ⟨tombs, some (row', t, isLive), inner, ?_⟩
      rw [more, if_neg Bool.false_ne_true, outs, started, if_neg Bool.false_ne_true, out, start.2]
      simp

end Shape

section Charges

variable {slice : PartitionSlice Pos Key} {keySize : Pos → Nat} {b : ResultBuilder PK Pos Key Id}

namespace ResultBuilder

/-- What a builder has been charged -/
def charges (b : ResultBuilder PK Pos Key Id) : List Nat := b.accounter.charges

variable {items : List (Hashed PK Pos Key Id)} {t : Int}

@[simp] theorem accounter_feed : (b.feed items t).accounter = b.accounter := by
  unfold feed
  split <;> rfl

@[simp] theorem request_feed : (b.feed items t).request = b.request := by
  unfold feed
  split <;> rfl

@[simp] theorem shortReadAllowed_feed : (b.feed items t).shortReadAllowed = b.shortReadAllowed := by
  unfold feed
  split <;> rfl

variable {r : Row (ColumnCell Key Id)}

theorem charges_queryStaticRow {t : Tombstone} : (b.queryStaticRow slice r t).charges =
    b.charges ++ (b.staticCharge slice (getCompactedRowSlice slice r slice.staticColumns)).toList := by
  unfold charges queryStaticRow
  dsimp only
  cases b.staticCharge slice (getCompactedRowSlice slice r slice.staticColumns) with
  | none => split <;> simp
  | some n => split <;> simp [MemoryAccounter.update]

theorem charges_prepareWriters : (b.prepareWriters slice).charges = b.charges ++ if b.querier.staticRow.isNone then
    (b.staticCharge slice (getCompactedRowSlice slice ({} : Row (ColumnCell Key Id)) slice.staticColumns)).toList else [] := by
  unfold prepareWriters
  split
  · exact charges_queryStaticRow
  · exact (append_nil _).symm

theorem request_queryStaticRow {t : Tombstone} :
    (b.queryStaticRow slice r t).request = b.request ∧ (b.queryStaticRow slice r t).shortReadAllowed = b.shortReadAllowed := by
  unfold queryStaticRow
  split <;> simp

theorem request_prepareWriters :
    (b.prepareWriters slice).request = b.request ∧ (b.prepareWriters slice).shortReadAllowed = b.shortReadAllowed := by
  unfold prepareWriters
  split
  · exact request_queryStaticRow
  · exact ⟨rfl, rfl⟩

theorem rowCharge_congr {b' : ResultBuilder PK Pos Key Id} (request : b'.request = b.request)
    (allowed : b'.shortReadAllowed = b.shortReadAllowed) (row : ResultRow Pos) :
    b'.rowCharge keySize row = b.rowCharge keySize row := by
  unfold rowCharge requestedResult
  rw [request, allowed]

theorem charges_consumeClusteringRow {x : Pos} {cr : DeletableRow (ColumnCell Key Id)} {t : RowTombstone} :
    (b.consumeClusteringRow slice keySize x cr t).1.charges =
      (b.prepareWriters slice).charges ++ (b.rowCharge keySize (writeRow slice x cr.cells)).toList := by
  have same := @request_prepareWriters PK Pos Key Id _ _ slice b
  have charge items updated row :
      ((b.prepareWriters slice).feed items updated).rowCharge keySize row = b.rowCharge keySize row :=
    rowCharge_congr (by rw [request_feed, same.1]) (by rw [shortReadAllowed_feed, same.2]) row
  unfold charges consumeClusteringRow
  dsimp only
  rw [charge]
  cases b.rowCharge keySize (writeRow slice x cr.cells) with
  | none => simp
  | some n => simp [MemoryAccounter.updateAndCheck, MemoryAccounter.update]

theorem charges_consumeEndOfPartition : (b.consumeEndOfPartition slice).1.charges = (b.prepareWriters slice).charges := by
  unfold charges consumeEndOfPartition
  dsimp only
  split <;> rfl

variable {key : PK}

theorem consumePartition_cons {out : Compacted Pos (ColumnCell Key Id)} {outs : List (Compacted Pos (ColumnCell Key Id))}
    (inner : out ≠ .endOfPartition) : b.consumePartition slice keySize key (out :: outs) =
      if (b.consume slice keySize key out).2 then (b.consume slice keySize key out).1.consumeEndOfPartition slice
      else (b.consume slice keySize key out).1.consumePartition slice keySize key outs := by
  cases out with
  | endOfPartition => exact absurd rfl inner
  | _ => rfl

theorem charges_le_prepareWriters : b.charges <+: (b.prepareWriters slice).charges := by
  rw [charges_prepareWriters]
  exact prefix_append _ _

theorem charges_le_consumeEndOfPartition : b.charges <+: (b.consumeEndOfPartition slice).1.charges := by
  rw [charges_consumeEndOfPartition]
  exact charges_le_prepareWriters

/-- What has been charged stays. -/
theorem charges_consume {out : Compacted Pos (ColumnCell Key Id)} :
    b.charges <+: (b.consume slice keySize key out).1.charges := by
  cases out with
  | newPartition | tombstone t | rangeTombstone rt => exact prefix_refl _
  | staticRow row tomb live =>
    have eq : ((b.consume slice keySize key (.staticRow row tomb live)).1).charges = (b.queryStaticRow slice row tomb).charges := rfl
    rw [eq, charges_queryStaticRow]
    exact prefix_append _ _
  | clusteringRow x row tomb live =>
    have prepared : b.charges <+: (b.prepareWriters slice).charges := charges_le_prepareWriters
    refine prepared.trans ?_
    change _ <+: (b.consumeClusteringRow slice keySize x row tomb).1.charges
    rw [charges_consumeClusteringRow]
    exact prefix_append _ _
  | endOfPartition => exact charges_le_consumeEndOfPartition

theorem charges_consumePartition {outs : List (Compacted Pos (ColumnCell Key Id))} :
    b.charges <+: (b.consumePartition slice keySize key outs).1.charges := by
  induction outs generalizing b with
  | nil => exact prefix_refl _
  | cons out outs ih =>
    by_cases last : out = .endOfPartition
    · subst last
      exact charges_le_consumeEndOfPartition
    · have step := @charges_consume PK Pos Key Id _ _ slice keySize b key out
      rw [consumePartition_cons last]
      split
      · exact step.trans charges_le_consumeEndOfPartition
      · exact step.trans ih

/-- What is charged for the first of what is handed on stays, too. -/
theorem charges_consumePartition_cons {out : Compacted Pos (ColumnCell Key Id)}
    {outs : List (Compacted Pos (ColumnCell Key Id))} (inner : out ≠ .endOfPartition) :
    (b.consume slice keySize key out).1.charges <+: (b.consumePartition slice keySize key (out :: outs)).1.charges := by
  rw [consumePartition_cons inner]
  split
  · exact charges_le_consumeEndOfPartition
  · exact charges_consumePartition

theorem charges_run {hs : List (Handed PK Pos Key Id)} : b.charges <+: (b.run slice keySize hs).charges := by
  induction hs generalizing b with
  | nil => exact prefix_refl _
  | cons h hs ih =>
    have step := @charges_consumePartition PK Pos Key Id _ _ { slice with rowRanges := h.rowRanges } keySize b h.key h.outs
    rw [run]
    split
    · exact step
    · exact step.trans ih

/-- The two were charged alike up to some charge, and then not. -/
def Apart (d r : ResultBuilder PK Pos Key Id) : Prop :=
  ∃ charged n m, n ≠ m ∧ charged ++ [n] <+: d.charges ∧ charged ++ [m] <+: r.charges

variable {d r : ResultBuilder PK Pos Key Id}

theorem Apart.mono {d' r' : ResultBuilder PK Pos Key Id} (apart : Apart d r) (hd : d.charges <+: d'.charges)
    (hr : r.charges <+: r'.charges) : Apart d' r' := by
  obtain ⟨charged, n, m, ne, pd, pr⟩ := apart
  exact ⟨charged, n, m, ne, pd.trans hd, pr.trans hr⟩

theorem Apart.consumePartition {d r : ResultBuilder PK Pos Key Id} (apart : Apart d r)
    {outs : List (Compacted Pos (ColumnCell Key Id))} :
    Apart (d.consumePartition slice keySize key outs).1 (r.consumePartition slice keySize key outs).1 :=
  apart.mono charges_consumePartition charges_consumePartition

theorem Apart.charges_ne (apart : Apart d r) : d.charges ≠ r.charges := by
  obtain ⟨charged, n, m, ne, pd, pr⟩ := apart
  intro eq
  rw [eq] at pd
  have same : charged ++ [n] = charged ++ [m] :=
    (prefix_of_prefix_length_le pd pr (by simp)).eq_of_length (by simp)
  exact ne (by simpa using same)

end ResultBuilder

end Charges

section Twin

variable {slice : PartitionSlice Pos Key} {keySize : Pos → Nat} {d r : ResultBuilder PK Pos Key Id}

namespace ResultBuilder

/-- Two builders that have been charged alike, the one for a digest and the other one for a result and its digest. -/
structure Twin (d r : ResultBuilder PK Pos Key Id) : Prop where
  onlyDigest : d.request = .onlyDigest
  allowed : d.shortReadAllowed = true
  same : ∃ partitions staticRow rows, staticRow.isSome = d.querier.staticRow.isSome ∧ r = { d with
      request := .resultAndDigest
      partitions
      querier := { d.querier with staticRow, rows } }

theorem Twin.both (twin : Twin d r) : r.request = .resultAndDigest ∧ r.shortReadAllowed = true := by
  obtain ⟨-, allowed, partitions, staticRow, rows, -, rfl⟩ := twin
  exact ⟨rfl, allowed⟩

theorem Twin.charges_eq (twin : Twin d r) : d.charges = r.charges := by
  obtain ⟨-, -, partitions, staticRow, rows, -, rfl⟩ := twin
  rfl

theorem Twin.stop_eq (twin : Twin d r) : r.stop = d.stop := by
  obtain ⟨-, -, partitions, staticRow, rows, -, rfl⟩ := twin
  rfl

section Static

variable {row : Row (ColumnCell Key Id)} {t : Tombstone} {cells : List (Option ResultCell)}

theorem staticCharge_result (request : r.request = .resultAndDigest) :
    r.staticCharge slice cells = if slice.staticColumns.isEmpty then none else some (cellsSize cells) := by
  unfold staticCharge requestedResult
  rw [request]
  rfl

theorem staticCharge_digest (request : d.request = .onlyDigest) (allowed : d.shortReadAllowed = true)
    :
    d.staticCharge slice cells = if slice.staticColumns.isEmpty then none else some placeHolderSize := by
  unfold staticCharge requestedResult
  rw [request, allowed]
  rfl

/-- What both are charged with for a static row that fits. -/
theorem staticCharge_of_fits (request : r.request = .resultAndDigest) (fits : StaticFits slice row) :
    r.staticCharge slice (getCompactedRowSlice slice row slice.staticColumns) =
      if slice.staticColumns.isEmpty then none else some placeHolderSize := by
  rw [staticCharge_result request]
  rcases fits with empty | four
  · rw [empty]
    rfl
  · rw [(cellsSize_eq_iff le_rfl).2 four]
    rfl

/-- What becomes of a builder that is charged so much for the static row. -/
theorem queryStaticRow_eq {b : ResultBuilder PK Pos Key Id} (digest : b.request ≠ .onlyResult) (allowed : b.shortReadAllowed = true)
    {charge : Option Nat} (eq : b.staticCharge slice (getCompactedRowSlice slice row slice.staticColumns) = charge) :
    b.queryStaticRow slice row t = { b with
        accounter := charge.elim b.accounter b.accounter.update
        digest := if slice.staticColumns.isEmpty then b.digest
          else b.digest ++ .tombstone t :: (hashRowSlice row slice.staticColumns).1
        lastModified := if slice.staticColumns.isEmpty then b.lastModified
          else max b.lastModified
            (max t.timestamp (hashRowSlice row slice.staticColumns : List (Hashed PK Pos Key Id) × Int).2)
        querier := { b.querier with staticRow := some (getCompactedRowSlice slice row slice.staticColumns) } } := by
  unfold queryStaticRow
  dsimp only
  split <;> simp_all [feed, requestedDigest]

theorem Twin.queryStaticRow (twin : Twin d r) (fits : StaticFits slice row) :
    Twin (d.queryStaticRow slice row t) (r.queryStaticRow slice row t) := by
  obtain ⟨both, allowed'⟩ := twin.both
  obtain ⟨request, allowed, partitions, staticRow, rows, -, eq⟩ := twin
  rw [queryStaticRow_eq (by rw [request]; decide) allowed (staticCharge_digest request allowed),
    queryStaticRow_eq (by rw [both]; decide) allowed' (staticCharge_of_fits both fits)]
  subst eq
  exact ⟨request, allowed, partitions, _, rows, rfl, rfl⟩

theorem Twin.apart_queryStaticRow (twin : Twin d r) (unfit : ¬ StaticFits slice row) :
    Apart (d.queryStaticRow slice row t) (r.queryStaticRow slice row t) := by
  have some : slice.staticColumns.isEmpty = false := by
    rw [← Bool.not_eq_true, List.isEmpty_iff]
    exact fun empty => unfit (.inl empty)
  have digest := @charges_queryStaticRow PK Pos Key Id _ _ slice d row t
  have result := @charges_queryStaticRow PK Pos Key Id _ _ slice r row t
  rw [staticCharge_digest twin.onlyDigest twin.allowed, if_neg (by rw [some]; decide)] at digest
  rw [staticCharge_result twin.both.1, if_neg (by rw [some]; decide), ← twin.charges_eq] at result
  refine ⟨d.charges, placeHolderSize, _, fun eq => unfit (.inr ((cellsSize_eq_iff le_rfl).1 eq.symm)), ?_, ?_⟩
  · rw [digest]
    exact prefix_refl _
  · rw [result]
    exact prefix_refl _

theorem Twin.consumeStaticRow (twin : Twin d r) (fits : StaticFits slice row) :
    Twin (d.consumeStaticRow slice row t) (r.consumeStaticRow slice row t) := by
  obtain ⟨request, allowed, partitions, staticRow, rows, started, eq⟩ := twin.queryStaticRow fits
  exact ⟨request, allowed, partitions, staticRow, rows, started, by rw [ResultBuilder.consumeStaticRow, eq]; rfl⟩

end Static

variable (twin : Twin d r)
include twin

theorem Twin.consumeNewPartition (key : PK) : Twin (d.consumeNewPartition key) (r.consumeNewPartition key) := by
  obtain ⟨request, allowed, partitions, staticRow, rows, -, rfl⟩ := twin
  exact ⟨request, allowed, partitions, none, [], rfl, by simp [ResultBuilder.consumeNewPartition, requestedDigest, request]⟩

theorem Twin.started : r.querier.staticRow.isNone = d.querier.staticRow.isNone := by
  obtain ⟨-, -, partitions, staticRow, rows, started, rfl⟩ := twin
  rw [← Option.not_isSome, ← Option.not_isSome, started]

/-- A static row that is missing is charged as well. -/
theorem Twin.prepareWriters (fits : d.querier.staticRow.isNone = true → StaticFits slice ({} : Row (ColumnCell Key Id))) :
    Twin (d.prepareWriters slice) (r.prepareWriters slice) := by
  unfold ResultBuilder.prepareWriters
  rw [twin.started]
  split
  next none =>
    obtain ⟨request, allowed, partitions, staticRow, rows, started, eq⟩ := twin.queryStaticRow (fits none)
    exact ⟨request, allowed, partitions, staticRow, rows, started, by rw [eq]⟩
  · exact twin

theorem Twin.apart_prepareWriters (none : d.querier.staticRow.isNone = true)
    (unfit : ¬ StaticFits slice ({} : Row (ColumnCell Key Id))) : Apart (d.prepareWriters slice) (r.prepareWriters slice) := by
  unfold ResultBuilder.prepareWriters
  rw [twin.started, if_pos none, if_pos none]
  exact twin.apart_queryStaticRow unfit

theorem Twin.apart_consumeClusteringRow {x : Pos} {cr : DeletableRow (ColumnCell Key Id)} {t : RowTombstone} :
    Apart (d.consumeClusteringRow slice keySize x cr t).1 (r.consumeClusteringRow slice keySize x cr t).1 := by
  have digest := @charges_consumeClusteringRow PK Pos Key Id _ _ slice keySize d x cr t
  have result := @charges_consumeClusteringRow PK Pos Key Id _ _ slice keySize r x cr t
  by_cases fits : d.querier.staticRow.isNone = true → StaticFits slice ({} : Row (ColumnCell Key Id))
  · have size : d.rowCharge keySize (writeRow slice x cr.cells) = some (placeHolderSize + (writeRow slice x cr.cells).size keySize) := by
      unfold rowCharge requestedResult
      rw [twin.onlyDigest, twin.allowed]
      rfl
    have size' : r.rowCharge keySize (writeRow slice x cr.cells) = some ((writeRow slice x cr.cells).size keySize) := by
      unfold rowCharge requestedResult
      rw [twin.both.1]
      rfl
    rw [size] at digest
    rw [size', ← (twin.prepareWriters fits).charges_eq] at result
    generalize (writeRow slice x cr.cells).size keySize = size at digest result
    refine ⟨(d.prepareWriters slice).charges, placeHolderSize + size, size, ?_, ?_, ?_⟩
    · unfold placeHolderSize
      omega
    · rw [digest]
      exact prefix_refl _
    · rw [result]
      exact prefix_refl _
  · obtain ⟨none, unfit⟩ := Classical.not_imp.1 fits
    exact (twin.apart_prepareWriters none unfit).mono (digest ▸ prefix_append _ _) (result ▸ prefix_append _ _)

theorem Twin.consumeEndOfPartition
    (fits : d.querier.staticRow.isNone = true → StaticFits slice ({} : Row (ColumnCell Key Id))) :
    Twin (d.consumeEndOfPartition slice).1 (r.consumeEndOfPartition slice).1 ∧
      (r.consumeEndOfPartition slice).2 = (d.consumeEndOfPartition slice).2 := by
  obtain ⟨request, allowed, partitions, staticRow, rows, started, eq⟩ := twin.prepareWriters fits
  unfold ResultBuilder.consumeEndOfPartition
  rw [eq]
  dsimp only
  split
  · exact ⟨⟨request, allowed, partitions, staticRow, rows, started, rfl⟩, rfl⟩
  · exact ⟨⟨request, allowed, _, staticRow, rows, started, rfl⟩, rfl⟩

end ResultBuilder

end Twin

section Partition

variable {slice : PartitionSlice Pos Key} {keySize : Pos → Nat} {b d r : ResultBuilder PK Pos Key Id} {key : PK}
  {tombs : List Tombstone} {static : Option (Row (ColumnCell Key Id) × Tombstone × Bool)}
  {inner : List (Inner Pos Key Id)}

theorem findSome_staticOf_inner : (ending inner).findSome? staticOf = none := by
  rw [findSome?_eq_none_iff]
  intro o mem
  rw [mem_append, mem_map, mem_singleton] at mem
  obtain ⟨i, -, rfl⟩ | rfl := mem
  · cases i <;> rfl
  · rfl

/-- The static row of a partition of that shape -/
theorem findSome_staticOf : (shape tombs static inner).findSome? staticOf = static.map (·.1) := by
  have start : (tombs.map fun t => (.tombstone t : Compacted Pos (ColumnCell Key Id))).findSome? staticOf = none := by
    simp [staticOf]
  rw [findSome?_cons_of_isNone rfl, findSome?_append, start, Option.none_or, findSome?_append,
    findSome_staticOf_inner, Option.or_none]
  cases static <;> rfl

namespace ResultBuilder

/-- The builder once the partition has been started and its static row been read. -/
def opened (slice : PartitionSlice Pos Key) (b : ResultBuilder PK Pos Key Id) (key : PK)
    (static : Option (Row (ColumnCell Key Id) × Tombstone × Bool)) : ResultBuilder PK Pos Key Id :=
  static.elim (b.consumeNewPartition key) fun s => (b.consumeNewPartition key).consumeStaticRow slice s.1 s.2.1

theorem opened_none : b.opened slice key (none : Option (Row (ColumnCell Key Id) × Tombstone × Bool)) =
    b.consumeNewPartition key := rfl

variable {s : Row (ColumnCell Key Id) × Tombstone × Bool}

theorem opened_some :
    b.opened slice key (some s) = (b.consumeNewPartition key).consumeStaticRow slice s.1 s.2.1 := rfl

theorem consumePartition_tombstones {outs : List (Compacted Pos (ColumnCell Key Id))} :
    b.consumePartition slice keySize key (tombs.map .tombstone ++ outs) = b.consumePartition slice keySize key outs := by
  induction tombs with
  | nil => rfl
  | cons t tombs ih => exact ih

theorem consumePartition_opened : b.consumePartition slice keySize key (shape tombs static inner) =
      (b.opened slice key static).consumePartition slice keySize key (ending inner) := by
  calc b.consumePartition slice keySize key _
    _ = (b.consumeNewPartition key).consumePartition slice keySize key (tombs.map .tombstone ++
        (static.toList.map (fun s => .staticRow s.1 s.2.1 s.2.2) ++ ending inner)) := rfl
    _ = _ := by
      rw [consumePartition_tombstones]
      cases static <;> rfl

theorem stop_opened (going : b.stop = false) : (b.opened slice key static).stop = false := by
  cases static with
  | none => exact going
  | some s => rfl

theorem consumePartition_noRows (going : b.stop = false) (noRows : ∀ i ∈ inner, isRow (innerOf i) = false) :
    b.consumePartition slice keySize key (ending inner) = b.consumeEndOfPartition slice := by
  induction inner with
  | nil => rfl
  | cons i inner ih =>
    have ih := ih fun i mem => noRows i (mem_cons_of_mem _ mem)
    cases i with
    | inl row => cases noRows _ mem_cons_self
    | inr rt =>
      rw [← ih]
      have same : { b with stop := false } = b := by rw [← going]
      conv_rhs => rw [← same]
      rfl

theorem Twin.apart_of_row (twin : Twin d r) (going : d.stop = false) (some : ∃ i ∈ inner, isRow (innerOf i) = true) :
    Apart (d.consumePartition slice keySize key (ending inner)).1
      (r.consumePartition slice keySize key (ending inner)).1 := by
  have going' : r.stop = false := twin.stop_eq.trans going
  induction inner with
  | nil => simp at some
  | cons i inner ih =>
    cases i with
    | inl row =>
      have first (b : ResultBuilder PK Pos Key Id) : (b.consumeClusteringRow slice keySize row.1 row.2.1 row.2.2.1).1.charges <+:
          (b.consumePartition slice keySize key (ending (.inl row :: inner))).1.charges :=
        @charges_consumePartition_cons PK Pos Key Id _ _ slice keySize b key (innerOf (.inl row)) _ nofun
      exact twin.apart_consumeClusteringRow.mono (first d) (first r)
    | inr rt =>
      have ih := ih (by simpa [isRow, innerOf] using some)
      have same : { d with stop := false } = d := by rw [← going]
      have same' : { r with stop := false } = r := by rw [← going']
      rw [← same, ← same'] at ih
      exact ih

theorem Twin.opened (twin : Twin d r) (fits : ∀ s ∈ static, StaticFits slice s.1) :
    Twin (d.opened slice key static) (r.opened slice key static) := by
  cases static with
  | none => exact twin.consumeNewPartition key
  | some s => exact (twin.consumeNewPartition key).consumeStaticRow (fits s rfl)

theorem Twin.apart_opened (twin : Twin d r) (unfit : ¬ StaticFits slice s.1) :
    Apart (d.opened slice key (some s)) (r.opened slice key (some s)) :=
  (twin.consumeNewPartition key).apart_queryStaticRow unfit

/-- What the static row of a partition adds to a digest, whether it has one or not. -/
theorem total_staticCharge (request : d.request = .onlyDigest) (allowed : d.shortReadAllowed = true)
    {cells : List (Option ResultCell)} :
    ((d.staticCharge slice cells).elim d.accounter d.accounter.update).totalUsedMemory =
      d.accounter.totalUsedMemory + staticTotal slice := by
  rw [staticCharge_digest request allowed, staticTotal]
  split <;> rfl

theorem consumeEndOfPartition_noRows {p : ResultBuilder PK Pos Key Id} (prepared : b.prepareWriters slice = p)
    (going : p.stop = false) (allowed : p.shortReadAllowed = true) (noRows : p.querier.liveClusteringRows = 0) :
    (b.consumeEndOfPartition slice).2 =
        (!hasCkSelector slice.rowRanges && p.querier.liveDataInStaticRow && p.accounter.check) ∧
      (b.consumeEndOfPartition slice).1.stop = (b.consumeEndOfPartition slice).2 ∧
      (b.consumeEndOfPartition slice).1.accounter = p.accounter := by
  unfold ResultBuilder.consumeEndOfPartition
  dsimp only
  rw [prepared, noRows]
  cases ck : hasCkSelector slice.rowRanges <;> cases live : p.querier.liveDataInStaticRow <;> simp [going, allowed]

theorem consumeEndOfPartition_digest (request : d.request = .onlyDigest) (allowed : d.shortReadAllowed = true)
    (going : d.stop = false) :
    ((d.opened slice key static).consumeEndOfPartition slice).1.accounter.totalUsedMemory =
        d.accounter.totalUsedMemory + staticTotal slice ∧
      ((d.opened slice key static).consumeEndOfPartition slice).1.stop =
        ((d.opened slice key static).consumeEndOfPartition slice).2 ∧
      (((d.opened slice key static).consumeEndOfPartition slice).2 = true ↔ static.isSome = true ∧
        hasCkSelector slice.rowRanges = false ∧ 1024 * 1024 < d.accounter.totalUsedMemory + staticTotal slice) := by
  have static_eq row t := @queryStaticRow_eq PK Pos Key Id _ _ slice row t
    (d.consumeNewPartition key) (request ▸ nofun) allowed _ rfl
  have total (row : Row (ColumnCell Key Id)) := @total_staticCharge PK Pos Key Id _ _ slice (d.consumeNewPartition key) request
    allowed (getCompactedRowSlice slice row slice.staticColumns)
  cases static with
  | none =>
    rw [opened_none]
    have prepared : (d.consumeNewPartition key).prepareWriters slice = _ := if_pos rfl
    rw [static_eq] at prepared
    obtain ⟨stop, same, accounter⟩ := consumeEndOfPartition_noRows prepared going allowed rfl
    refine ⟨accounter ▸ total _, same, ?_⟩
    rw [stop]
    simp
  | some row =>
    rw [opened_some]
    have prepared : ((d.consumeNewPartition key).consumeStaticRow slice row.1 row.2.1).prepareWriters slice = _ := if_neg nofun
    nth_rewrite 2 [ResultBuilder.consumeStaticRow] at prepared
    rw [static_eq] at prepared
    obtain ⟨stop, same, accounter⟩ := consumeEndOfPartition_noRows prepared rfl allowed rfl
    refine ⟨accounter ▸ total _, same, ?_⟩
    rw [stop]
    rw [Bool.and_eq_true, Bool.and_eq_true, Bool.not_eq_true', MemoryAccounter.check, decide_eq_true_iff, total]
    exact ⟨fun ⟨⟨ck, _⟩, more⟩ => ⟨rfl, ck, more⟩, fun ⟨_, ck, more⟩ => ⟨⟨ck, rfl⟩, more⟩⟩

end ResultBuilder

/-- Whether a partition of that shape is charged alike. -/
theorem Handed.alike_iff {h : Handed PK Pos Key Id} (outs : h.outs = shape tombs static inner) :
    h.Alike slice ↔ (∀ i ∈ inner, isRow (innerOf i) = false) ∧ StaticFits slice ((static.map (·.1)).getD {}) := by
  rw [Alike, outs, findSome_staticOf]
  refine and_congr_left fun _ => ⟨fun none i mem => none _ ?_, fun none o mem => ?_⟩
  · exact mem_cons_of_mem _ (mem_append_right _ (mem_append_right _
      (mem_append_left _ (mem_map_of_mem mem))))
  simp only [mem_cons, mem_append, mem_map, mem_nil_iff, or_false] at mem
  obtain rfl | ⟨t, -, rfl⟩ | ⟨s, -, rfl⟩ | ⟨i, mem, rfl⟩ | rfl := mem
  · rfl
  · rfl
  · rfl
  · exact none i mem
  · rfl

namespace ResultBuilder

variable {h : Handed PK Pos Key Id} {hs : List (Handed PK Pos Key Id)}

variable (twin : Twin d r)
include twin

variable (going : d.stop = false)
include going

/-- A partition that is charged alike leaves the two charged alike, and ends both reads or none. -/
theorem Twin.consumePartition (shaped : Shaped h.outs) (alike : h.Alike slice)
    (ranges : slice.rowRanges = h.rowRanges) :
    Twin (d.consumePartition slice keySize h.key h.outs).1 (r.consumePartition slice keySize h.key h.outs).1 ∧
      (r.consumePartition slice keySize h.key h.outs).2 = (d.consumePartition slice keySize h.key h.outs).2 ∧
      (d.consumePartition slice keySize h.key h.outs).1.accounter.totalUsedMemory =
        d.accounter.totalUsedMemory + staticTotal slice ∧
      (d.consumePartition slice keySize h.key h.outs).1.stop = (d.consumePartition slice keySize h.key h.outs).2 ∧
      ((d.consumePartition slice keySize h.key h.outs).2 = true ↔
        h.EndsRead (d.accounter.totalUsedMemory + staticTotal slice)) := by
  obtain ⟨tombs, static, inner, outs⟩ := shaped
  obtain ⟨noRows, fits⟩ := (Handed.alike_iff outs).1 alike
  have opened : Twin (d.opened slice h.key static) (r.opened slice h.key static) := twin.opened fun s mem => by
    rw [Option.mem_def.1 mem] at fits
    exact fits
  have ended := @Twin.consumeEndOfPartition PK Pos Key Id _ _ slice _ _ opened fun none => by
    cases static with
    | none => exact fits
    | some s => cases none
  have going' : r.stop = false := twin.stop_eq.trans going
  have digest := @consumeEndOfPartition_digest PK Pos Key Id _ _ slice d h.key static twin.onlyDigest twin.allowed going
  rw [Handed.EndsRead, outs, findSome_staticOf, ← ranges, Option.isSome_map, consumePartition_opened, consumePartition_opened,
    consumePartition_noRows (stop_opened going) noRows, consumePartition_noRows (stop_opened going') noRows]
  exact ⟨ended.1, ended.2, digest⟩

theorem Twin.apart_consumePartition (shaped : Shaped h.outs) (differs : ¬ h.Alike slice) :
    Apart (d.consumePartition slice keySize h.key h.outs).1 (r.consumePartition slice keySize h.key h.outs).1 := by
  obtain ⟨tombs, static, inner, outs⟩ := shaped
  rw [Handed.alike_iff outs] at differs
  rw [outs, consumePartition_opened, consumePartition_opened]
  -- the first thing that is not charged alike: a static row, one that is missing, or a row
  by_cases noRows : ∀ i ∈ inner, isRow (innerOf i) = false
  · have unfit := fun fits => differs ⟨noRows, fits⟩
    cases static with
    | some s => exact (twin.apart_opened unfit).consumePartition
    | none =>
      have opened : Twin (d.opened slice h.key none) (r.opened slice h.key none) := twin.consumeNewPartition h.key
      rw [consumePartition_noRows (stop_opened going) noRows, consumePartition_noRows (stop_opened (twin.stop_eq.trans going)) noRows]
      have last (b : ResultBuilder PK Pos Key Id) : (b.prepareWriters slice).charges <+: (b.consumeEndOfPartition slice).1.charges :=
        (@charges_consumeEndOfPartition PK Pos Key Id _ _ slice b) ▸ prefix_refl _
      exact (opened.apart_prepareWriters rfl unfit).mono (last _) (last _)
  · by_cases fits : ∀ s ∈ static, StaticFits slice s.1
    · push Not at noRows
      obtain ⟨i, mem, row⟩ := noRows
      exact (twin.opened fits).apart_of_row (stop_opened going) ⟨i, mem, by simpa using row⟩
    · push Not at fits
      obtain ⟨s, mem, unfit⟩ := fits
      obtain rfl := Option.mem_def.1 mem
      exact (twin.apart_opened unfit).consumePartition

theorem Twin.run (shaped : ∀ h ∈ hs, Shaped h.outs)
    (alike : ChargedAlike slice d.accounter.totalUsedMemory hs) : Twin (d.run slice keySize hs) (r.run slice keySize hs) := by
  induction hs generalizing d r with
  | nil => exact twin
  | cons h hs ih =>
    obtain ⟨first, rest⟩ := alike
    obtain ⟨twin', same, total, stop, ends⟩ := @Twin.consumePartition PK Pos Key Id _ _
      { slice with rowRanges := h.rowRanges } keySize d r h twin going (shaped h mem_cons_self) first rfl
    rw [ResultBuilder.run, ResultBuilder.run, same]
    split
    · exact twin'
    next more =>
      have more := Bool.eq_false_iff.2 more
      refine ih twin' (stop.trans more) (fun h mem => shaped h (mem_cons_of_mem _ mem)) ?_
      rw [total]
      exact rest.resolve_left fun ended => by rw [ends.2 ended] at more; cases more

/-- The two come apart at the first partition that is not charged alike. -/
theorem Twin.apart_run (shaped : ∀ h ∈ hs, Shaped h.outs)
    (differ : ¬ ChargedAlike slice d.accounter.totalUsedMemory hs) : Apart (d.run slice keySize hs) (r.run slice keySize hs) := by
  induction hs generalizing d r with
  | nil => exact absurd trivial differ
  | cons h hs ih =>
    rw [ResultBuilder.run, ResultBuilder.run]
    by_cases first : h.Alike slice
    · obtain ⟨twin', same, total, stop, ends⟩ := @Twin.consumePartition PK Pos Key Id _ _
        { slice with rowRanges := h.rowRanges } keySize d r h twin going (shaped h mem_cons_self) first rfl
      have rest : ¬ _ := fun rest => differ ⟨first, rest⟩
      rw [not_or] at rest
      have more := Bool.eq_false_iff.2 fun ended => rest.1 (ends.1 ended)
      rw [same, more, if_neg Bool.false_ne_true, if_neg Bool.false_ne_true]
      exact ih twin' (stop.trans more) (fun h mem => shaped h (mem_cons_of_mem _ mem)) (total ▸ rest.2)
    · have apart := @Twin.apart_consumePartition PK Pos Key Id _ _
        { slice with rowRanges := h.rowRanges } keySize d r h twin going (shaped h mem_cons_self) first
      refine apart.mono ?_ ?_
      · split
        · exact prefix_refl _
        · exact charges_run
      · split
        · exact prefix_refl _
        · exact charges_run

end ResultBuilder

end Partition

section Read

variable [LinearOrder Pos] (slice : PartitionSlice Pos Key) (keySize : Pos → Nat) (now gcGrace : Int)

theorem handedOn_shaped {s : CompactMutation Pos} {stream : List (StreamPartition PK Pos Key Id)} :
    ∀ h ∈ handedOn slice now gcGrace s stream, Shaped h.outs := by
  induction stream generalizing s with
  | nil => nofun
  | cons p stream ih =>
    have first := @outs_shaped PK Pos Key Id _ _
      (queryMode { slice with rowRanges := p.rowRanges } now gcGrace) s _ rfl p
    rw [handedOn]
    revert first
    generalize consumePartition _ s p.fragments = consumed
    obtain ⟨s', outs, stop⟩ := consumed
    intro first
    have rest : ∀ h ∈ if stop then [] else handedOn slice now gcGrace s' stream, Shaped h.outs := by
      split
      · nofun
      · exact ih
    dsimp only
    split
    · exact rest
    next some =>
      rw [forall_mem_cons]
      exact ⟨first.resolve_left fun none => some (by rw [List.isEmpty_iff]; exact none), rest⟩

/-- The read of a stream, by a builder that may stop it early -/
def readStream (request : ResultRequest) (accounter : MemoryAccounter) (s : CompactMutation Pos)
    (stream : List (StreamPartition PK Pos Key Id)) : ResultBuilder PK Pos Key Id :=
  ({ request, shortReadAllowed := true, accounter } : ResultBuilder PK Pos Key Id).run slice keySize
    (handedOn slice now gcGrace s stream)

/-- A read for a digest is charged what the read for the result is charged, so that it reads the same rows and makes the
same digest, exactly if there are no rows to be read, and no static row but one that fits. -/
theorem digest_read_charged_alike_iff (accounter : MemoryAccounter) (s : CompactMutation Pos)
    (stream : List (StreamPartition PK Pos Key Id)) :
    ((readStream slice keySize now gcGrace .onlyDigest accounter s stream).accounter =
        (readStream slice keySize now gcGrace .resultAndDigest accounter s stream).accounter ∧
      (readStream slice keySize now gcGrace .onlyDigest accounter s stream).rowCount =
        (readStream slice keySize now gcGrace .resultAndDigest accounter s stream).rowCount ∧
      (readStream slice keySize now gcGrace .onlyDigest accounter s stream).partitionCount =
        (readStream slice keySize now gcGrace .resultAndDigest accounter s stream).partitionCount ∧
      (readStream slice keySize now gcGrace .onlyDigest accounter s stream).shortRead =
        (readStream slice keySize now gcGrace .resultAndDigest accounter s stream).shortRead ∧
      (readStream slice keySize now gcGrace .onlyDigest accounter s stream).digest =
        (readStream slice keySize now gcGrace .resultAndDigest accounter s stream).digest) ↔
      ChargedAlike slice accounter.totalUsedMemory (handedOn slice now gcGrace s stream) := by
  have twin : ResultBuilder.Twin { request := .onlyDigest, shortReadAllowed := true, accounter }
      ({ request := .resultAndDigest, shortReadAllowed := true, accounter } : ResultBuilder PK Pos Key Id) :=
    ⟨rfl, rfl, [], none, [], rfl, rfl⟩
  have shaped := @handedOn_shaped PK Pos Key Id _ _ _ slice now gcGrace s stream
  constructor
  · intro same
    by_contra differ
    have apart : ResultBuilder.Apart (readStream slice keySize now gcGrace .onlyDigest accounter s stream)
        (readStream slice keySize now gcGrace .resultAndDigest accounter s stream) := twin.apart_run rfl shaped differ
    exact apart.charges_ne (congrArg MemoryAccounter.charges same.1)
  · intro alike
    have ended : ResultBuilder.Twin (readStream slice keySize now gcGrace .onlyDigest accounter s stream)
        (readStream slice keySize now gcGrace .resultAndDigest accounter s stream) := twin.run rfl shaped alike
    obtain ⟨-, -, partitions, staticRow, rows, -, eq⟩ := ended
    rw [eq]
    exact ⟨rfl, rfl, rfl, rfl, rfl⟩

/-- Two rows of 14 bytes, of which a digest counts 18: with a limit of 15 the result has both and the digest has one. -/
theorem digest_read_stops_early :
    let slice : PartitionSlice Nat Nat := { rowRanges := [{}], regularColumns := [0] }
    let row : DeletableRow (ColumnCell Nat Nat) := { marker := { timestamp := 1 } }
    let stream : List (StreamPartition Nat Nat Nat Nat) :=
      [{ key := 0, rowRanges := [{}], rows := [.inl (1, row), .inl (2, row)] }]
    let read request := readStream slice (fun _ => 4) 10 0 request { maximumResultSize := 15 }
      { rangeTombstones := { reversed := false }, rowLimit := 100, partitionLimit := 100 } stream
    (read .onlyDigest).charges = [18] ∧ (read .resultAndDigest).charges = [14, 14] ∧
      (read .onlyDigest).rowCount = 1 ∧ (read .resultAndDigest).rowCount = 2 ∧
      (read .onlyDigest).digest ≠ (read .resultAndDigest).digest := by
  refine ⟨by decide +kernel, by decide +kernel, by decide +kernel, by decide +kernel, fun same => ?_⟩
  have length := congrArg length same
  revert length
  decide +kernel

end Read

end ScyllaMoon.Query
