import ScyllaMoon.Lib.Links

/-!
# The objects of the MVCC chain

`partition_version.hh` keeps one `partition_entry` per key. It points to the newest
`partition_version`, the versions form an anchorless list (newest first), and a
`partition_snapshot` is a shared handle to one version. Versions live in the region of the memtable
and are addressed by `Addr`; a freed address stays freed, so that a read through a stale pointer is
a `Fault` and never an accidental success. Snapshots are told apart by `SnapshotId`, and the
`_version` members of the entry and of the snapshots by `RefId`.

The payload of a version is the `mutation_partition` `P`. The chain never looks into it: everything
it asks of a partition, of a serialized write `V` or of a schema `S` is in `PartitionOps`.
-/

namespace ScyllaMoon.Mvcc

open Lib Function

abbrev Addr := Nat
abbrev SnapshotId := Nat
abbrev EntryAddr := Nat

/-- Undefined behaviour, and the failed assertions, of the C++ code. -/
inductive Fault where
  | nullDeref
  | useAfterFree
  | assertFailed
  deriving DecidableEq, Repr

/-- The functions of `schema` and `mutation_partition` that `partition_version.cc` calls. -/
class PartitionOps (S V : outParam Type) (P : Type) where
  /-- `schema::version()` -/
  schemaVersion : S → Nat
  /-- `schema::cf_name()` -/
  cfName : S → String
  /-- `mutation_partition(schema_ptr)` -/
  empty : S → P
  staticRowContinuous : P → Bool
  setStaticRowContinuous : P → Bool → P
  /-- `apply(this_schema, p, p_schema)` -/
  apply : S → P → P → S → P
  /-- `apply(this_schema, view, p_schema, most_recent_version)` -/
  applyView : S → P → V → S → UInt32 → P
  /-- `upgrade(old_schema, new_schema)` -/
  upgrade : P → S → S → P
  /-- `clustered_row(s, make_empty()).cells().find_cell(0)->most_recent_version = v`; there is no
  result when the row has no cell 0 and the pointer is null -/
  setMostRecentVersion : S → P → UInt32 → Option P
  /-- The partition of the newest target version after `apply_to_incomplete`, from the partitions of
  the target chain and of the source chain, both newest first. -/
  applyIncomplete : S → List P → List P → P

/-- The object a `partition_version_ref` is a member of. -/
inductive RefId where
  | ofEntry (e : EntryAddr)
  | ofSnapshot (s : SnapshotId)
  deriving DecidableEq, Repr

/-- `partition_version_ref` -/
structure PartitionVersionRef where
  version : Option Addr := none
  uniqueOwner : Bool := false
  evictable : Bool := false
  deriving DecidableEq, Repr

/-- `partition_version`, apart from its list hook. -/
structure PartitionVersion (P : Type) where
  backref : Option RefId := none
  partition : P
  versionNumber : UInt32 := 0
  snapshot : Option SnapshotId := none

/-- `partition_snapshot` with the number of `lw_shared_ptr`s to it. The constructor for a version
leaves `_entry` uninitialised; it is null here. -/
structure PartitionSnapshot (S : Type) where
  schema : S
  version : PartitionVersionRef
  entry : Option EntryAddr := none
  phase : UInt64
  useCount : Nat

/-- `partition_entry` -/
structure PartitionEntry where
  snapshot : Option SnapshotId := none
  version : PartitionVersionRef := {}
  highestVersionRead : UInt32 := 0
  highestVersionWritten : UInt32 := 0
  numVersions : UInt32 := 0
  lastVersion : Option Addr := none
  deriving DecidableEq, Repr

/-- One `partition_entry`, the versions allocated for it and the snapshots taken of them. -/
structure Heap (S P : Type) where
  links : Links Addr
  versions : Addr → Option (PartitionVersion P)
  snapshots : SnapshotId → Option (PartitionSnapshot S)
  self : EntryAddr
  entry : PartitionEntry
  brk : Addr
  nextSnapshot : SnapshotId

variable (r : PartitionVersionRef)

/-- `assert(_version)` in `partition_version_ref::operator*` and `operator->`. -/
def PartitionVersionRef.get : Except Fault Addr :=
  match r.version with
  | some a => .ok a
  | none => .error .assertFailed

namespace Heap

variable {S V P : Type} (w : Heap S P)

/-- Dereferences a raw pointer to a version. -/
def deref (p : Option Addr) : Except Fault Addr :=
  match p with
  | none => .error .nullDeref
  | some a => match w.versions a with
    | none => .error .useAfterFree
    | some _ => .ok a

variable (a : Addr)

def getVersion : Except Fault (PartitionVersion P) :=
  match w.versions a with
  | some v => .ok v
  | none => .error .useAfterFree

def modifyVersion (f : PartitionVersion P → PartitionVersion P) : Except Fault (Heap S P) := do
  let v ← w.getVersion a
  return { w with versions := update w.versions a (some (f v)) }

def getSnapshot (s : SnapshotId) : Except Fault (PartitionSnapshot S) :=
  match w.snapshots s with
  | some snp => .ok snp
  | none => .error .useAfterFree

def putSnapshot (s : SnapshotId) (snp : PartitionSnapshot S) : Heap S P :=
  { w with snapshots := update w.snapshots s (some snp) }

/-- `current_allocator().construct<partition_version>(mp)` -/
def construct (mp : P) : Heap S P × Addr :=
  ({ w with
      links := update w.links w.brk {}
      versions := update w.versions w.brk (some { partition := mp })
      brk := w.brk + 1 }, w.brk)

/-- `new_version->insert_before(elem)` -/
def insertBefore (new elem : Addr) : Except Fault (Heap S P) := do
  let _ ← w.getVersion elem
  return { w with links := w.links.insertBefore new elem }

/-- `pv->next()` -/
def next : Except Fault (Option Addr) := do
  let _ ← w.getVersion a
  return (w.links a).next

/-- `pv->prev()` -/
def prev : Except Fault (Option Addr) := do
  let _ ← w.getVersion a
  return (w.links a).prev

/-- `pv->elements_from_this()` -/
def elementsFromThis : List Addr :=
  w.links.elementsFrom w.brk (some a)

/-- `pv->all_elements()` -/
def allElements : List Addr :=
  w.elementsFromThis (w.links.front w.brk a)

/-- The addresses of the entry's chain, newest version first. -/
def chain : List Addr :=
  w.links.elementsFrom w.brk w.entry.version.version

/-- `~partition_version_ref()` -/
def releaseRef : Except Fault (Heap S P) :=
  match r.version with
  | none => .ok w
  | some a => w.modifyVersion a ({ · with backref := none })

/-- The part of `partition_version_ref(partition_version_ref&&)` that registers the new owner. -/
def attachRef (id : RefId) : Except Fault (Heap S P) :=
  match r.version with
  | none => .ok w
  | some a => w.modifyVersion a ({ · with backref := some id })

/-- Writes the `_version` pointer of the reference `r`, wherever it lives. -/
def setRefVersion (r : RefId) (p : Option Addr) : Except Fault (Heap S P) :=
  match r with
  | .ofEntry e =>
    if e = w.self then .ok { w with entry := { w.entry with version := { w.entry.version with version := p } } }
    else .error .useAfterFree
  | .ofSnapshot s => do
    let snp ← w.getSnapshot s
    return w.putSnapshot s { snp with version := { snp.version with version := p } }

/-- `mark_as_unique_owner()` on the reference `r`. -/
def markAsUniqueOwner (r : RefId) : Except Fault (Heap S P) :=
  match r with
  | .ofEntry e =>
    if e = w.self then .ok { w with entry := { w.entry with version := { w.entry.version with uniqueOwner := true } } }
    else .error .useAfterFree
  | .ofSnapshot s => do
    let snp ← w.getSnapshot s
    return w.putSnapshot s { snp with version := { snp.version with uniqueOwner := true } }

/-- `_version = std::move(r)` on the entry, for a reference `r` that nothing else owns. -/
def assignEntryVersion : Except Fault (Heap S P) := do
  let w ← w.releaseRef w.entry.version
  let w ← w.attachRef r (.ofEntry w.self)
  return { w with entry := { w.entry with version := { version := r.version, evictable := r.evictable } } }

/-- `current_allocator().destroy(pv)`: the destructor of the version, then the one of its hook. -/
def destroy : Except Fault (Heap S P) := do
  let v ← w.getVersion a
  let w ← match v.backref with
    | none => pure w
    | some r => w.setRefVersion r none
  return { w with links := w.links.erase a, versions := update w.versions a none }

/-- `partition_entry(mutation_partition)` at address `e`. -/
def ofPartition (e : EntryAddr) (mp : P) : Heap S P where
  links := fun _ => {}
  versions := update (fun _ => none) 0 (some { partition := mp, backref := some (.ofEntry e) })
  snapshots := fun _ => none
  self := e
  entry := { version := { version := some 0 } }
  brk := 1
  nextSnapshot := 0

end Heap

end ScyllaMoon.Mvcc
