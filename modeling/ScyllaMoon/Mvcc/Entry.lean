import ScyllaMoon.Mvcc.Objects

/-!
# `partition_entry`

The operations of `partition_version.cc` and of the inline members in `partition_version.hh`, each
over the whole `Heap` and in the order in which the source touches it. `Heap.step` gathers the
operations a caller can issue against one entry and the snapshots it handed out.
-/

namespace ScyllaMoon.Mvcc

open Lib

section Partitions

variable {S V P : Type} [PartitionOps S V P]

/-- An empty partition that takes over the continuity of the static row of `p`. -/
def freshLike (s : S) (p : P) : P :=
  PartitionOps.setStaticRowContinuous (PartitionOps.empty s) (PartitionOps.staticRowContinuous p)

/-- The partitions that `apply_to_incomplete` merges, from the source chain `src`: the chain itself,
or `partition_entry::squashed(pe_schema, s)` when the schemas differ. -/
def incompleteSource (s : S) (src : List P) (srcSchema : S) : List P :=
  match src with
  | [] => []
  | p :: ps =>
    if PartitionOps.schemaVersion P s ≠ PartitionOps.schemaVersion P srcSchema then
      [(p :: ps).foldl (PartitionOps.apply s · · srcSchema) (freshLike s p)]
    else p :: ps

/-- The partition `partition_entry::apply` builds for a write stored under `promoted`. -/
def writtenPartition (s : S) (mpv : V) (mpSchema : S) (versionToWrite promoted : UInt32) : Except Fault P :=
  let mp : P := PartitionOps.applyView s (PartitionOps.empty s) mpv mpSchema promoted
  if versionToWrite ≠ 0 ∨ PartitionOps.cfName P s = "data" then
    match PartitionOps.setMostRecentVersion s mp promoted with
    | some mp => .ok mp
    | none => .error .nullDeref
  else .ok mp

end Partitions

/-- The number under which `partition_entry::apply` stores a write it does not reject. -/
def promotedVersion (highestVersionRead highestVersionWritten versionToWrite : UInt32) : UInt32 :=
  let promoted := if versionToWrite = 0 then highestVersionWritten + 1 else versionToWrite
  if versionToWrite ≠ 0 ∧ versionToWrite ≤ highestVersionRead then highestVersionRead + 1 else promoted

/-- The outcome of a versioned write: whether it was stored, and the value of `*commit_version_ptr`. -/
structure WriteResult where
  accepted : Bool
  commitVersion : UInt32
  deriving DecidableEq, Repr

/-- `partition_snapshot::max_phase` -/
def maxPhase : UInt64 := 0xffffffffffffffff

/-- `partition_snapshot::default_phase` -/
def defaultPhase : UInt64 := 0

namespace Heap

variable {S V P : Type} (w : Heap S P) (s : SnapshotId)

/-- `_snapshot->_version = std::move(_version); _snapshot->_entry = nullptr` -/
def moveVersionTo : Except Fault (Heap S P) := do
  let snp ← w.getSnapshot s
  let w ← w.releaseRef snp.version
  let w ← w.attachRef w.entry.version (.ofSnapshot s)
  let r := w.entry.version
  let w := w.putSnapshot s { snp with version := { version := r.version, evictable := r.evictable }, entry := none }
  return { w with entry := { w.entry with version := { r with version := none } } }

/-- `partition_entry::set_version` -/
def setVersion (newVersion : Addr) : Except Fault (Heap S P) := do
  let evictable := w.entry.version.evictable
  -- the entry's own `_snapshot` should always be null now
  let w ← match w.entry.snapshot with
    | none => pure w
    | some s => w.moveVersionTo s
  let w := { w with entry := { w.entry with snapshot := none } }
  let v ← w.getVersion newVersion
  if v.backref.isSome then .error .assertFailed
  else w.assignEntryVersion { version := some newVersion, evictable := evictable }

variable [PartitionOps S V P] (w : Heap S P)

/-- `partition_entry::add_version` -/
def addVersion (s : S) : Except Fault (Heap S P) := do
  let head ← w.entry.version.get
  let hv ← w.getVersion head
  let (w, new) := w.construct (freshLike s hv.partition)
  let w ← w.insertBefore new head
  w.setVersion new

/-- `partition_entry::open_version` -/
def openVersion (s : S) (phase : UInt64) : Except Fault (Heap S P) :=
  match w.entry.snapshot with
  | none => .ok w
  | some id => do
    let snp ← w.getSnapshot id
    if snp.phase ≠ phase then w.addVersion s else return w

/-- `partition_entry::apply(s, mp, mp_schema)` -/
def apply (s : S) (mp : P) (mpSchema : S) : Except Fault (Heap S P) := do
  let head ← w.entry.version.get
  match w.entry.snapshot with
  | none => w.modifyVersion head fun v => { v with partition := PartitionOps.apply s v.partition mp mpSchema }
  | some _ =>
    let mp1 := if PartitionOps.schemaVersion P s ≠ PartitionOps.schemaVersion P mpSchema
      then PartitionOps.upgrade mp mpSchema s else mp
    let (w, new) := w.construct mp1
    let w ← w.insertBefore new head
    w.setVersion new

/-- `if (!last_version->_snapshot) last_version = last_version->prev()` -/
def advanceLast : Except Fault (Heap S P) := do
  let last ← w.deref w.entry.lastVersion
  let v ← w.getVersion last
  if v.snapshot.isNone then
    let p ← w.prev last
    return { w with entry := { w.entry with lastVersion := p } }
  else return w

/-- The garbage collection at the end of `partition_entry::apply`. -/
def collectGarbage : Except Fault (Heap S P) := do
  let w ← w.advanceLast
  let last ← w.deref w.entry.lastVersion
  let victim ← w.deref (← w.next last)
  return { w with links := w.links.erase victim, entry := { w.entry with numVersions := w.entry.numVersions - 1 } }

/-- The part of `partition_entry::apply` that puts the version number `promoted` in front of the chain. -/
def storeVersion (mp : P) (promoted : UInt32) : Except Fault (Heap S P) := do
  let (w, new) := w.construct mp
  let head ← w.entry.version.get
  let w ← w.insertBefore new head
  let w ← w.modifyVersion new ({ · with versionNumber := promoted })
  let w ← w.setVersion new
  let lastVersion := if promoted = 1 then some new else w.entry.lastVersion
  return { w with entry := { w.entry with lastVersion, highestVersionWritten := promoted } }

/-- `partition_entry::apply(s, mpv, mp_schema, commit_version_ptr, version_to_write)` -/
def applyView (s : S) (mpv : V) (mpSchema : S) (versionToWrite : UInt32) : Except Fault (Heap S P × WriteResult) := do
  -- first writer wins
  if versionToWrite ≠ 0 ∧ versionToWrite ≤ w.entry.highestVersionWritten then
    return (w, { accepted := false, commitVersion := w.entry.highestVersionWritten })
  let promoted := promotedVersion w.entry.highestVersionRead w.entry.highestVersionWritten versionToWrite
  let mp ← writtenPartition s mpv mpSchema versionToWrite promoted
  let w ← w.storeVersion mp promoted
  let n := w.entry.numVersions
  let w := { w with entry := { w.entry with numVersions := n + 1 } }
  let w ← if n ≥ 100 then w.collectGarbage else pure w
  return (w, { accepted := true, commitVersion := promoted })

/-- The loop of `partition_entry::read`: the first element numbered at most `t`, or `end()`. -/
def findVersion (w : Heap S P) (t : UInt32) : List Addr → Except Fault (Option Addr)
  | [] => .ok none
  | a :: l => do
    let v ← w.getVersion a
    if v.versionNumber ≤ t then return some a else w.findVersion t l

/-- The version that `partition_entry::read` hands out. -/
def lookup (versionToRead : UInt32) : Except Fault Addr := do
  let head ← w.entry.version.get
  if versionToRead > 0 then
    match ← w.findVersion versionToRead (w.elementsFromThis head) with
    | none => return head
    | some a =>
      let v ← w.getVersion a
      -- the fall back to the newest version
      if v.versionNumber = 0 then return head else return a
  else return head

/-- `if (version_to_read > highest_version_read) highest_version_read = version_to_read` -/
def noteRead (versionToRead : UInt32) : Heap S P :=
  let hvr := w.entry.highestVersionRead
  { w with entry := { w.entry with highestVersionRead := if versionToRead > hvr then versionToRead else hvr } }

/-- The end of `partition_entry::read`: another handle to the snapshot on `itr`, or a new snapshot. -/
def takeSnapshot (entrySchema : S) (phase : UInt64) (itr : Addr) : Except Fault (Heap S P × SnapshotId) := do
  let v ← w.getVersion itr
  match v.snapshot with
  | some s =>
    let snp ← w.getSnapshot s
    return (w.putSnapshot s { snp with useCount := snp.useCount + 1 }, s)
  | none =>
    let s := w.nextSnapshot
    let w := w.putSnapshot s { schema := entrySchema, version := { version := some itr }, phase, useCount := 1 }
    let w ← { w with nextSnapshot := s + 1 }.modifyVersion itr ({ · with snapshot := some s })
    return (w, s)

/-- `partition_entry::read` -/
def read (entrySchema : S) (phase : UInt64) (versionToRead : UInt32) : Except Fault (Heap S P × SnapshotId) := do
  let w ← w.openVersion entrySchema phase
  let w := w.noteRead versionToRead
  let itr ← w.lookup versionToRead
  w.takeSnapshot entrySchema phase itr

/-- Releases one `lw_shared_ptr<partition_snapshot>`; the last one runs `~partition_snapshot` and
then the destructor of its `_version` member. -/
def dropSnapshot : Except Fault (Heap S P) := do
  let snp ← w.getSnapshot s
  if snp.useCount > 1 then
    return w.putSnapshot s { snp with useCount := snp.useCount - 1 }
  let w ← match snp.version.version, snp.entry with
    | some a, _ => w.modifyVersion a ({ · with snapshot := none })
    | none, some _ => pure { w with entry := { w.entry with snapshot := none } }
    | none, none => pure w
  let w ← w.releaseRef snp.version
  return { w with snapshots := Function.update w.snapshots s none }

/-- The partitions of the versions `l`. -/
def partitionsAlong (l : List Addr) : Except Fault (List P) :=
  l.mapM fun a => do return (← w.getVersion a).partition

/-- `partition_snapshot::versions()`: the schema of the snapshot and the partitions it covers, newest first. -/
def snapshotVersions : Except Fault (S × List P) := do
  let snp ← w.getSnapshot s
  let a ← match snp.version.version with
    | some a => pure a
    | none => w.entry.version.get
  return (snp.schema, ← w.partitionsAlong (w.elementsFromThis a))

/-- `squashed<mutation_partition>(version, ...)` along the versions `l`. -/
def squashedAlong (s : S) : List Addr → Except Fault P
  | [] => .error .assertFailed
  | a :: l => do
    let v ← w.getVersion a
    l.foldlM (fun r b => do
      let u ← w.getVersion b
      return PartitionOps.apply s r u.partition s) v.partition

/-- `partition_snapshot::squashed()` -/
def squashed : Except Fault P := do
  let snp ← w.getSnapshot s
  let a ← match snp.version.version with
    | some a => pure a
    | none => w.entry.version.get
  w.squashedAlong snp.schema (w.elementsFromThis a)

/-- `remove_or_mark_as_unique_owner` -/
def removeOrMarkAsUniqueOwner (w : Heap S P) : (fuel : Nat) → Option Addr → Except Fault (Heap S P)
  | 0, _ => .ok w
  | _ + 1, none => .ok w
  | fuel + 1, some a => do
    let v ← w.getVersion a
    match v.backref with
    | some r => w.markAsUniqueOwner r
    | none =>
      let next ← w.next a
      let w ← w.destroy a
      w.removeOrMarkAsUniqueOwner fuel next

/-- The merge loop of `partition_entry::upgrade`. -/
def mergeInto (toSchema fromSchema : S) (mp : P) (l : List Addr) : Except Fault P :=
  l.foldlM (fun mp a => do
    let v ← w.getVersion a
    return PartitionOps.apply toSchema mp v.partition fromSchema) mp

/-- `partition_entry::upgrade` -/
def upgrade (fromSchema toSchema : S) : Except Fault (Heap S P) := do
  let head ← w.entry.version.get
  let hv ← w.getVersion head
  let mp ← w.mergeInto toSchema fromSchema (freshLike toSchema hv.partition) (w.allElements head)
  let (w, new) := w.construct mp
  let w ← w.setVersion new
  w.removeOrMarkAsUniqueOwner w.brk (some head)

/-- `partition_entry::apply_to_incomplete(s, pe, pe_schema)`, for a source entry whose chain holds
the partitions `src`. `with_detached_versions` keeps the source's newest version referenced, so the
source is read and never moved from. -/
def applyToIncomplete (s : S) (src : List P) (srcSchema : S) : Except Fault (Heap S P) := do
  let w ← w.openVersion s maxPhase
  let head ← w.entry.version.get
  let dst ← w.partitionsAlong (w.elementsFromThis head)
  w.modifyVersion head ({ · with partition := PartitionOps.applyIncomplete s dst (incompleteSource s src srcSchema) })

end Heap

/-- What a caller can ask of one entry. -/
inductive Op (S V P : Type) where
  | read (entrySchema : S) (phase : UInt64) (versionToRead : UInt32)
  | drop (s : SnapshotId)
  | squashed (s : SnapshotId)
  | applyView (s : S) (mpv : V) (mpSchema : S) (versionToWrite : UInt32)
  | apply (s : S) (mp : P) (mpSchema : S)
  | addVersion (s : S)
  | applyToIncomplete (s : S) (src : List P) (srcSchema : S)
  | upgrade (fromSchema toSchema : S)

/-- What a caller learns. A read returns a snapshot, and through it the number and the partition of
the version it pins. -/
inductive Answer (P : Type) where
  | done
  | snapshot (s : SnapshotId) (number : UInt32) (partition : P)
  | content (mp : P)
  | write (r : WriteResult)
  deriving DecidableEq

namespace Heap

variable {S V P : Type} [PartitionOps S V P]

/-- The version a live snapshot pins. -/
def snapshotVersion (w : Heap S P) (s : SnapshotId) : Except Fault (PartitionVersion P) := do
  let snp ← w.getSnapshot s
  w.getVersion (← snp.version.get)

/-- One request against the entry. -/
def step (w : Heap S P) : Op S V P → Except Fault (Heap S P × Answer P)
  | .read entrySchema phase versionToRead => do
    let (w, s) ← w.read entrySchema phase versionToRead
    let v ← w.snapshotVersion s
    return (w, .snapshot s v.versionNumber v.partition)
  | .drop s => return (← w.dropSnapshot s, .done)
  | .squashed s => return (w, .content (← w.squashed s))
  | .applyView s mpv mpSchema versionToWrite => do
    let (w, r) ← w.applyView s mpv mpSchema versionToWrite
    return (w, .write r)
  | .apply s mp mpSchema => return (← w.apply s mp mpSchema, .done)
  | .addVersion s => return (← w.addVersion s, .done)
  | .applyToIncomplete s src srcSchema => return (← w.applyToIncomplete s src srcSchema, .done)
  | .upgrade fromSchema toSchema => return (← w.upgrade fromSchema toSchema, .done)

end Heap

end ScyllaMoon.Mvcc
