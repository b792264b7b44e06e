import ScyllaMoon.Mvcc.Served

/-!
# The memtables of a table

`column_family` keeps a list of memtables, of which the last one takes the writes. A memtable has one
`partition_entry` for each of its keys and brings it to the memtable's schema before it uses it. A read of
one partition opens one reader for each memtable that has the key. Sealing the active memtable, for a flush,
adds a new one; the writes that follow go to other entries, which start to count from 0.
-/

namespace ScyllaMoon.Table

open Lib Mvcc

variable {K S V P : Type}

/-- `memtable_entry` -/
structure MemtableEntry (S P : Type) where
  schema : S
  pe : Heap S P

/-- `memtable` -/
structure Memtable (K S P : Type) where
  schema : S
  partitions : AList fun _ : K => MemtableEntry S P := ∅

/-- `column_family`, as far as its memtables go: the sealed ones, oldest first, and the active one. -/
structure ColumnFamily (K S P : Type) where
  schema : S
  flushing : List (Memtable K S P) := []
  active : Memtable K S P

/-- What a caller can ask of a table. `scan` is what a scanning reader or the flush does with one entry of
one memtable, `none` being the active memtable. -/
inductive Request (K S V P : Type) where
  | apply (k : K) (mpv : V) (mpSchema : S) (versionToWrite : UInt32)
  | applyMutation (k : K) (mp : P) (mpSchema : S)
  | read (k : K) (versionToRead : UInt32)
  | scan (i : Option Nat) (k : K)
  | drop (i : Option Nat) (k : K) (s : SnapshotId)
  | sealActive
  | setSchema (s : S)

/-- What a caller learns. For a read it is what the reader of each memtable starts from: the schema of a
snapshot and its versions. -/
inductive Response (S P : Type) where
  | done
  | write (r : WriteResult)
  | readers (rs : List (S × List P))

variable [DecidableEq K] [DecidableEq S] [PartitionOps S V P]

namespace Memtable

variable (m : Memtable K S P)

/-- `memtable::upgrade_entry` -/
def upgradeEntry (e : MemtableEntry S P) : Except Fault (MemtableEntry S P) :=
  if e.schema ≠ m.schema then do
    let pe ← e.pe.upgrade e.schema m.schema
    return { schema := m.schema, pe }
  else return e

variable (k : K)

/-- `memtable::find_or_create_partition` -/
def findOrCreatePartition : Except Fault (MemtableEntry S P) :=
  match m.partitions.lookup k with
  | none => return { schema := m.schema, pe := .ofPartition 0 (PartitionOps.empty m.schema) }
  | some e => m.upgradeEntry e

omit [DecidableEq S] [PartitionOps S V P] in
/-- The memtable with another entry for `k`. -/
def put (e : MemtableEntry S P) : Memtable K S P :=
  { m with partitions := m.partitions.insert k e }

/-- `memtable::apply(m, m_schema, commit_version_ptr)` for a `frozen_mutation` -/
def apply (mpv : V) (mpSchema : S) (versionToWrite : UInt32) :
    Except Fault (Memtable K S P × WriteResult) := do
  let e ← m.findOrCreatePartition k
  let (pe, r) ← e.pe.applyView m.schema mpv mpSchema versionToWrite
  return (m.put k { e with pe }, r)

/-- `memtable::apply(m)` for a `mutation` -/
def applyMutation (mp : P) (mpSchema : S) : Except Fault (Memtable K S P) := do
  let e ← m.findOrCreatePartition k
  let pe ← e.pe.apply m.schema mp mpSchema
  return m.put k { e with pe }

/-- `memtable::make_flat_reader` for one partition: no reader if the memtable does not have it. -/
def makeFlatReader (versionToRead : UInt32) : Except Fault (Memtable K S P × Option (S × List P)) :=
  match m.partitions.lookup k with
  | none => return (m, none)
  | some e => do
    let e ← m.upgradeEntry e
    let (pe, s) ← e.pe.read e.schema defaultPhase versionToRead
    return (m.put k { e with pe }, some (← pe.snapshotVersions s))

/-- A reader of the partition lets go of its snapshot. -/
def drop (s : SnapshotId) : Except Fault (Memtable K S P) :=
  match m.partitions.lookup k with
  | none => .error .useAfterFree
  | some e => do
    let pe ← e.pe.dropSnapshot s
    return m.put k { e with pe }

end Memtable

namespace ColumnFamily

omit [DecidableEq K] [DecidableEq S] [PartitionOps S V P] in
/-- A table without data. -/
def ofSchema (s : S) : ColumnFamily K S P where
  schema := s
  active := { schema := s }

/-- The readers of the memtables, oldest memtable first. -/
def makeReaders (k : K) (versionToRead : UInt32) :
    List (Memtable K S P) → Except Fault (List (Memtable K S P) × List (S × List P))
  | [] => return ([], [])
  | m :: ms => do
    let (m, r) ← m.makeFlatReader k versionToRead
    let (ms, rs) ← makeReaders k versionToRead ms
    return (m :: ms, r.toList ++ rs)

omit [DecidableEq K] [DecidableEq S] [PartitionOps S V P] in
/-- One of the memtables moves on. -/
def onMemtable {α : Type} (cf : ColumnFamily K S P) (i : Option Nat)
    (f : Memtable K S P → Except Fault (Memtable K S P × α)) : Except Fault (ColumnFamily K S P × α) :=
  match i with
  | none => do
    let (active, a) ← f cf.active
    return ({ cf with active }, a)
  | some i => match cf.flushing[i]? with
    | none => .error .useAfterFree
    | some m => do
      let (m, a) ← f m
      return ({ cf with flushing := cf.flushing.set i m }, a)

/-- One request against the table. -/
def step (cf : ColumnFamily K S P) : Request K S V P → Except Fault (ColumnFamily K S P × Response S P)
  | .apply k mpv mpSchema versionToWrite => do
    let (active, r) ← cf.active.apply k mpv mpSchema versionToWrite
    return ({ cf with active }, .write r)
  | .applyMutation k mp mpSchema => do
    let active ← cf.active.applyMutation k mp mpSchema
    return ({ cf with active }, .done)
  -- `make_reader`
  | .read k versionToRead => do
    let (flushing, rs) ← makeReaders k versionToRead cf.flushing
    let (active, r) ← cf.active.makeFlatReader k versionToRead
    return ({ cf with flushing, active }, .readers (rs ++ r.toList))
  | .scan i k => do
    let (cf, r) ← cf.onMemtable i fun m => m.makeFlatReader k 0
    return (cf, .readers r.toList)
  | .drop i k s => cf.onMemtable i fun m => return (← m.drop k s, .done)
  -- `seal_active_memtable`
  | .sealActive =>
    if cf.active.partitions.entries.isEmpty then return (cf, .done)
    else return ({ cf with flushing := cf.flushing ++ [cf.active], active := { schema := cf.schema } }, .done)
  | .setSchema s => return ({
      schema := s
      flushing := cf.flushing.map fun m => { m with schema := s }
      active := { cf.active with schema := s } }, .done)

end ColumnFamily

end ScyllaMoon.Table
