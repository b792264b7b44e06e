import ScyllaMoon.Mvcc.Entry

/-!
# The version chain as a list

The same operations on the list of versions, newest first, without addresses. A version is a number,
a partition and possibly a snapshot that pins it; `last_version` is a position in the list, null, or
a pointer to a version that is gone. A snapshot normally pins a listed version. Garbage collection
can leave it alone on an unlinked version (`detached`), and an upgrade can free the version under it
(neither listed nor detached). `registered` says whether the newest version knows the entry's
reference to it, as `is_referenced()` reports.

`Mvcc/Sim` proves that the heap answers every request exactly as this list does.
-/

namespace ScyllaMoon.Mvcc

/-- A version of the chain. -/
structure Elem (P : Type) where
  number : UInt32
  partition : P
  snapshot : Option SnapshotId := none

open Function (update)

/-- The snapshot on `e`, if there is one, keeps its partition. -/
def Elem.detach {P : Type} (e : Elem P) (detached : SnapshotId → Option P) : SnapshotId → Option P :=
  match e.snapshot with
  | some s => update detached s (some e.partition)
  | none => detached

/-- Where `last_version` points. -/
inductive LastVersion where
  | null
  | dangling
  | idx (i : Nat)
  deriving DecidableEq, Repr

/-- A version was pushed in front. -/
def LastVersion.push : LastVersion → LastVersion
  | .idx i => .idx (i + 1)
  | l => l

/-- Every version of the chain was freed. -/
def LastVersion.free : LastVersion → LastVersion
  | .idx _ => .dangling
  | l => l

/-- A live snapshot. -/
structure Snap (S : Type) where
  schema : S
  phase : UInt64
  useCount : Nat

/-- A `partition_entry` and its snapshots. -/
structure Chain (S P : Type) where
  elems : List (Elem P)
  last : LastVersion := .null
  highestVersionRead : UInt32 := 0
  highestVersionWritten : UInt32 := 0
  numVersions : UInt32 := 0
  snapshots : SnapshotId → Option (Snap S) := fun _ => none
  detached : SnapshotId → Option P := fun _ => none
  nextSnapshot : SnapshotId := 0
  registered : Bool := true

namespace Chain

variable {S V P : Type}

def ofPartition (mp : P) : Chain S P where
  elems := [{ number := 0, partition := mp }]

variable (c : Chain S P)

def push (e : Elem P) : Chain S P :=
  { c with elems := e :: c.elems, last := c.last.push, registered := true }

def partitions : List P :=
  c.elems.map Elem.partition

/-- Unlinks the version at position `i`; a snapshot on it stays with its partition. -/
def unlink (i : Nat) : Chain S P :=
  { c with
    elems := c.elems.eraseIdx i
    detached := match c.elems[i]? with
      | some e => e.detach c.detached
      | none => c.detached }

/-- `last_version` moves to the next newer version unless a snapshot pins the version it is at. -/
def advanceLast : Except Fault (Chain S P) :=
  match c.last with
  | .null => .error .nullDeref
  | .dangling => .error .useAfterFree
  | .idx i => match c.elems[i]? with
    | none => .error .useAfterFree
    | some e =>
      if e.snapshot.isNone then .ok { c with last := match i with
        | 0 => .null
        | i + 1 => .idx i }
      else .ok c

def collectGarbage : Except Fault (Chain S P) := do
  let c ← c.advanceLast
  match c.last with
  | .null => .error .nullDeref
  | .dangling => .error .useAfterFree
  | .idx i =>
    if i + 1 < c.elems.length then return { c.unlink (i + 1) with numVersions := c.numVersions - 1 }
    else .error .nullDeref

/-- The number under which a write that is not rejected is stored. -/
def promoted (versionToWrite : UInt32) : UInt32 :=
  promotedVersion c.highestVersionRead c.highestVersionWritten versionToWrite

/-- First writer wins: the write is acknowledged and dropped. -/
def rejects (versionToWrite : UInt32) : Prop :=
  versionToWrite ≠ 0 ∧ versionToWrite ≤ c.highestVersionWritten

instance (c : Chain S P) (v : UInt32) : Decidable (c.rejects v) := by
  unfold rejects; infer_instance

/-- A write stored under `n`, before garbage collection. -/
def store (n : UInt32) (mp : P) : Chain S P :=
  { c.push { number := n, partition := mp } with
    last := if n = 1 then .idx 0 else c.last.push
    highestVersionWritten := n
    numVersions := c.numVersions + 1 }

/-- The position of the version that a read at `t` hands out. -/
def lookup (t : UInt32) : Nat :=
  if t > 0 then
    match c.elems.findIdx? (fun e => decide (e.number ≤ t)) with
    | none => 0
    | some i => match c.elems[i]? with
      | some e => if e.number = 0 then 0 else i
      | none => 0
  else 0

variable (s : SnapshotId)

/-- The version that `s` pins, if it does, is the newest one. -/
def onHead : Bool :=
  c.elems.head?.any fun e => decide (e.snapshot = some s)

/-- The snapshot `s` no longer pins the version. -/
def unpin (e : Elem P) : Elem P :=
  if e.snapshot = some s then { e with snapshot := none } else e

def noteRead (t : UInt32) : Chain S P :=
  { c with highestVersionRead := if t > c.highestVersionRead then t else c.highestVersionRead }

/-- Another handle to the snapshot on position `i`, or a new snapshot. -/
def takeSnapshot (entrySchema : S) (phase : UInt64) (i : Nat) : Except Fault (Chain S P × Answer P) :=
  match c.elems[i]? with
  | none => .error .assertFailed
  | some e => match e.snapshot with
    | some s => match c.snapshots s with
      | none => .error .useAfterFree
      | some snp =>
        .ok ({ c with snapshots := update c.snapshots s (some { snp with useCount := snp.useCount + 1 }) },
          .snapshot s e.number e.partition)
    | none =>
      let s := c.nextSnapshot
      .ok ({ c with
        elems := c.elems.set i { e with snapshot := some s }
        snapshots := update c.snapshots s (some { schema := entrySchema, phase, useCount := 1 })
        nextSnapshot := s + 1 }, .snapshot s e.number e.partition)

def read (entrySchema : S) (phase : UInt64) (t : UInt32) : Except Fault (Chain S P × Answer P) :=
  (c.noteRead t).takeSnapshot entrySchema phase (c.lookup t)

def drop : Except Fault (Chain S P) :=
  match c.snapshots s with
  | none => .error .useAfterFree
  | some snp =>
    if snp.useCount > 1 then
      .ok { c with snapshots := update c.snapshots s (some { snp with useCount := snp.useCount - 1 }) }
    else if (∃ e ∈ c.elems, e.snapshot = some s) ∨ (c.detached s).isSome then
      .ok { c with
        elems := c.elems.map (unpin s)
        snapshots := update c.snapshots s none
        detached := update c.detached s none
        registered := c.registered && !c.onHead s }
    else .error .useAfterFree

variable [PartitionOps S V P]

/-- The sum of a version and of all older ones. -/
def squash (s : S) (p : P) (ps : List P) : P :=
  ps.foldl (PartitionOps.apply s · · s) p

/-- The sum of the versions of a snapshot. -/
def squashVersions : S × List P → Except Fault P
  | (s, p :: ps) => .ok (squash s p ps)
  | (_, []) => .error .assertFailed

/-- The versions a snapshot covers: the one it pins and every older one. -/
def covered : List (Elem P) :=
  c.elems.dropWhile fun e => decide (e.snapshot ≠ some s)

/-- The schema of a snapshot and the partitions it covers. -/
def snapshotVersions : Except Fault (S × List P) :=
  match c.snapshots s with
  | none => .error .useAfterFree
  | some snp => match c.covered s with
    | e :: es => .ok (snp.schema, e.partition :: es.map Elem.partition)
    | [] => match c.detached s with
      | some p => .ok (snp.schema, [p])
      | none => .error .useAfterFree

variable (c : Chain S P)

def squashed (s : SnapshotId) : Except Fault P :=
  c.snapshotVersions s >>= squashVersions

/-- The partition of the newest version becomes `f` of the partitions of the chain. -/
def modifyHead (f : P → List P → P) : Except Fault (Chain S P) :=
  match c.elems with
  | [] => .error .assertFailed
  | e :: es => .ok { c with elems := { e with partition := f e.partition (es.map Elem.partition) } :: es }

def addVersion (s : S) : Except Fault (Chain S P) :=
  match c.elems with
  | [] => .error .assertFailed
  | e :: _ => .ok (c.push { number := 0, partition := freshLike s e.partition })

def applyView (s : S) (mpv : V) (mpSchema : S) (versionToWrite : UInt32) : Except Fault (Chain S P × WriteResult) :=
  if c.rejects versionToWrite then
    .ok (c, { accepted := false, commitVersion := c.highestVersionWritten })
  else do
    let n := c.promoted versionToWrite
    let mp ← writtenPartition s mpv mpSchema versionToWrite n
    let c' := c.store n mp
    let c' ← if c.numVersions ≥ 100 then c'.collectGarbage else pure c'
    return (c', { accepted := true, commitVersion := n })

/-- The squashed and upgraded partition that replaces the chain. -/
def upgraded (fromSchema toSchema : S) (head : P) : P :=
  c.partitions.foldl (PartitionOps.apply toSchema · · fromSchema) (freshLike toSchema head)

def upgrade (fromSchema toSchema : S) : Except Fault (Chain S P) :=
  match c.elems with
  | [] => .error .assertFailed
  | e :: _ => .ok { c with
      elems := [{ number := 0, partition := c.upgraded fromSchema toSchema e.partition }]
      last := c.last.free
      registered := true }

/-- One request against the list. -/
def step : Op S V P → Except Fault (Chain S P × Answer P)
  | .read entrySchema phase t => c.read entrySchema phase t
  | .drop s => return (← c.drop s, .done)
  | .squashed s => return (c, .content (← c.squashed s))
  | .applyView s mpv mpSchema v => do
    let (c, r) ← c.applyView s mpv mpSchema v
    return (c, .write r)
  | .apply s mp mpSchema => return (← c.modifyHead fun p _ => PartitionOps.apply s p mp mpSchema, .done)
  | .addVersion s => return (← c.addVersion s, .done)
  | .applyToIncomplete s src srcSchema =>
    return (← c.modifyHead fun p ps => PartitionOps.applyIncomplete s (p :: ps) (incompleteSource s src srcSchema),
      .done)
  | .upgrade fromSchema toSchema => return (← c.upgrade fromSchema toSchema, .done)

end Chain

end ScyllaMoon.Mvcc
