import ScyllaMoon.Mvcc.Usertable

/-!
# Version tags on their way

The thrift handler puts `version_to_read` into the slice of a `read_command` and `version_to_write` into
each `mutation`. Before a tag reaches a memtable its carrier is copied, moved, serialized and rebuilt.
The copy constructor of `partition_slice` leaves the tag of the copy uninitialised, and `unfreeze`
rebuilds a mutation without its tag.
-/

namespace ScyllaMoon.Request

open Mutation

/-- `partition_slice::option` -/
inductive SliceOption where
  | sendClusteringKey | sendPartitionKey | sendTimestamp | sendExpiry | reversed | distinct
  | collectionsAsMaps | sendTtl | isMoon | allowShortRead
  deriving DecidableEq

/-- `partition_slice`, with clustering ranges `R` and partition keys `K`. -/
structure PartitionSlice (R K : Type) where
  rowRanges : List R
  staticColumns : List UInt32
  regularColumns : List UInt32
  options : List SliceOption
  specificRanges : Option (K × List R)
  cqlFormat : UInt8
  partitionRowLimit : UInt32
  versionToRead : UInt32

/-- `read_command` -/
structure ReadCommand (R K : Type) where
  slice : PartitionSlice R K

section ReadCommand

variable {R K : Type}

/-- `partition_slice(const partition_slice&)`. The constructor has no initialiser for `version_to_read`,
so the copy has there what the memory held before. -/
def PartitionSlice.copy (s : PartitionSlice R K) (memory : UInt32) : PartitionSlice R K where
  rowRanges := s.rowRanges
  staticColumns := s.staticColumns
  regularColumns := s.regularColumns
  options := s.options
  specificRanges := s.specificRanges
  cqlFormat := s.cqlFormat
  partitionRowLimit := s.partitionRowLimit
  versionToRead := memory

/-- What is done to a command on its way. -/
inductive CommandHop where
  | copy
  | move
  deriving DecidableEq

/-- One hop; `memory` is what the memory of the new object held at `version_to_read`. -/
def ReadCommand.hop (memory : UInt32) (cmd : ReadCommand R K) : CommandHop → ReadCommand R K
  | .copy => { cmd with slice := cmd.slice.copy memory }
  | .move => cmd

/-- A path; `memory i` is what the memory of the `i`-th new object held. -/
def ReadCommand.carry (memory : Nat → UInt32) (cmd : ReadCommand R K) : List CommandHop → ReadCommand R K
  | [] => cmd
  | h :: hops => ReadCommand.carry (fun i => memory (i + 1)) (cmd.hop (memory 0) h) hops

variable {hops : List CommandHop}

/-- Whatever the memory holds. -/
theorem ReadCommand.carry_moves (moves : .copy ∉ hops) (memory : Nat → UInt32)
    (cmd : ReadCommand R K) : cmd.carry memory hops = cmd := by
  induction hops generalizing memory with
  | nil => rfl
  | cons h hops ih =>
    obtain ⟨first, rest⟩ := not_or.1 (List.mem_cons.not.1 moves)
    cases h with
    | copy => exact absurd rfl first
    | move => exact ih rest _

/-- After a copy the tag is what the memory held. -/
theorem ReadCommand.carry_copy (copied : .copy ∈ hops) (v : UInt32) (cmd : ReadCommand R K) :
    (cmd.carry (fun _ => v) hops).slice.versionToRead = v := by
  induction hops generalizing cmd with
  | nil => cases copied
  | cons h hops ih =>
    by_cases later : CommandHop.copy ∈ hops
    · exact ih later _
    · obtain rfl := (List.mem_cons.1 copied).resolve_right later
      have rest := carry_moves later (fun _ => v) (cmd.hop v .copy)
      exact congrArg (fun c : ReadCommand R K => c.slice.versionToRead) rest

end ReadCommand

/-- `write_row_marker`, read back. -/
def writeRowMarker (m : RowMarker) : RowMarker :=
  if m.isMissing then {}
  else if !m.isLive then { timestamp := m.timestamp, ttl := -1, expiry := m.deletionTime }
  else if m.isExpiring then m
  else { timestamp := m.timestamp }

/-- `mutation_partition_serializer` -/
def serialize {Pos C : Type} (p : MutationPartition Pos C) : MutationPartitionView Pos C where
  tombstone := p.tombstone
  staticCells := p.staticRow.cells
  rowTombstones := p.rowTombstones
  rows := (p.rows.filter fun e => !e.dummy).map fun e =>
    (e.position, e.row.deletedAt, writeRowMarker e.row.marker, e.row.cells.cells)

/-- What `mutation` and `frozen_mutation` ask of a schema and a partition key. -/
class KeyOps (S K : Type) where
  /-- `schema::id()` -/
  tableId : S → Nat
  /-- `global_partitioner().decorate_key` -/
  token : S → K → Int

/-- `mutation` -/
structure Mutation (S K Pos C : Type) where
  schema : S
  token : Int
  key : K
  partition : MutationPartition Pos C
  versionToWrite : UInt32 := 0

/-- `frozen_mutation`: what its writer put into the bytes. -/
structure FrozenMutation (K Pos C : Type) where
  tableId : Nat
  schemaVersion : Nat
  key : K
  versionToWrite : UInt32
  partition : MutationPartitionView Pos C

section Mutation

variable {S K Pos C : Type}

/-- `mutation(const mutation&)` -/
def Mutation.copy (m : Mutation S K Pos C) : Mutation S K Pos C :=
  { schema := m.schema, token := m.token, key := m.key, partition := m.partition, versionToWrite := m.versionToWrite }

variable [Position Pos] [CellOps C] [SchemaOps S C] [KeyOps S K]

/-- `frozen_mutation(const mutation&)` -/
def Mutation.freeze (m : Mutation S K Pos C) : FrozenMutation K Pos C where
  tableId := KeyOps.tableId K m.schema
  schemaVersion := SchemaOps.version C m.schema
  key := m.key
  versionToWrite := m.versionToWrite
  partition := serialize m.partition

/-- `frozen_mutation::unfreeze`, with the constructor `mutation(partition_key, schema_ptr)` -/
def FrozenMutation.unfreeze (fm : FrozenMutation K Pos C) (schema : S) : Mutation S K Pos C where
  schema := schema
  token := KeyOps.token schema fm.key
  key := fm.key
  partition := MutationPartition.build fm.partition

/-- What carries the tag of a write. -/
inductive Carrier (S K Pos C : Type) where
  | plain (m : Mutation S K Pos C)
  | frozen (fm : FrozenMutation K Pos C)

def Carrier.versionToWrite : Carrier S K Pos C → UInt32
  | .plain m => m.versionToWrite
  | .frozen fm => fm.versionToWrite

/-- What is done to a mutation on its way. -/
inductive MutationHop (S : Type) where
  | copy
  | move
  | freeze
  | unfreeze (schema : S)

/-- One hop, if it applies to the carrier. -/
def Carrier.hop : Carrier S K Pos C → MutationHop S → Option (Carrier S K Pos C)
  | .plain m, .copy => some (.plain m.copy)
  | .plain m, .move => some (.plain m)
  | .plain m, .freeze => some (.frozen m.freeze)
  | .frozen fm, .copy => some (.frozen fm)
  | .frozen fm, .move => some (.frozen fm)
  | .frozen fm, .unfreeze schema => some (.plain (fm.unfreeze schema))
  | .plain _, .unfreeze _ => none
  | .frozen _, .freeze => none

def Carrier.carry (c : Carrier S K Pos C) (hops : List (MutationHop S)) : Option (Carrier S K Pos C) :=
  hops.foldlM Carrier.hop c

def MutationHop.isUnfreeze : MutationHop S → Bool
  | .unfreeze _ => true
  | _ => false

variable {c c' : Carrier S K Pos C}

/-- `unfreeze` resets the tag, every other hop keeps it. -/
theorem Carrier.versionToWrite_hop {h : MutationHop S} (hop : c.hop h = some c') :
    c'.versionToWrite = if h.isUnfreeze then 0 else c.versionToWrite := by
  cases c <;> cases h <;> cases hop <;> rfl

theorem Carrier.versionToWrite_carry {hops : List (MutationHop S)} (carried : c.carry hops = some c') :
    c'.versionToWrite = if hops.any MutationHop.isUnfreeze then 0 else c.versionToWrite := by
  induction hops generalizing c with
  | nil =>
    cases carried
    rfl
  | cons h hops ih =>
    obtain ⟨mid, hop, rest⟩ := Option.bind_eq_some_iff.1 carried
    rw [ih rest, versionToWrite_hop hop, List.any_cons]
    cases h.isUnfreeze <;> simp

end Mutation

/-- Which paths keep the tags: those of a command without a copy, and those of a mutation without an
`unfreeze`, or with the tag 0 that `unfreeze` leaves. -/
theorem tags_survive_iff {R S K Pos C : Type} [Position Pos] [CellOps C] [SchemaOps S C] [KeyOps S K] (cmd : ReadCommand R K)
    (hops : List CommandHop) (c c' : Carrier S K Pos C) (path : List (MutationHop S)) (carried : c.carry path = some c') :
    ((∀ memory, (cmd.carry memory hops).slice.versionToRead = cmd.slice.versionToRead) ↔ .copy ∉ hops) ∧
      (c'.versionToWrite = c.versionToWrite ↔ c.versionToWrite = 0 ∨ ∀ h ∈ path, h.isUnfreeze = false) := by
  constructor
  · constructor
    · intro survives copied
      have same := fun v => (ReadCommand.carry_copy copied v cmd).symm.trans (survives fun _ => v)
      exact absurd ((same 0).trans (same 1).symm) (by decide)
    · intro moves memory
      rw [ReadCommand.carry_moves moves]
  · rw [Carrier.versionToWrite_carry carried]
    cases any : path.any MutationHop.isUnfreeze with
    | true =>
      obtain ⟨h, hh, isUnfreeze⟩ := List.any_eq_true.1 any
      refine ⟨fun zero => .inl zero.symm, fun zero => (zero.resolve_right fun none => ?_).symm⟩
      rw [none h hh] at isUnfreeze
      cases isUnfreeze
    | false =>
      refine ⟨fun _ => .inr fun h hh => ?_, fun _ => rfl⟩
      exact Bool.eq_false_iff.2 (List.any_eq_false.1 any h hh)

instance : KeyOps TableSchema Nat where
  tableId := TableSchema.version
  token _ key := Int.ofNat key

/-- A read of the whole partition at version 5. -/
def readFive : ReadCommand (ClusteringRange Nat) Nat where
  slice := {
    rowRanges := [], staticColumns := [], regularColumns := [0], options := [.isMoon], specificRanges := none
    cqlFormat := 3, partitionRowLimit := 1, versionToRead := 5 }

/-- A write at version 5. -/
def writeFive : Mutation TableSchema Nat Nat Cell where
  schema := Mvcc.usertable
  token := 7
  key := 7
  partition := .build (Mvcc.putByte 0 1)
  versionToWrite := 5

theorem tags_survive_freeze :
    (∀ memory, (readFive.carry memory [.move]).slice.versionToRead = 5) ∧ writeFive.freeze.versionToWrite = 5 := by
  have survive := tags_survive_iff readFive [.move] (.plain writeFive) _ [.copy, .freeze] rfl
  exact ⟨survive.1.2 (by decide), survive.2.2 (.inr (by decide))⟩

/-- A copy of the command reads at whatever its memory held, 0 for instance; a mutation that was frozen and
unfrozen is written without a version. -/
theorem tags_lost : (readFive.carry (fun _ => 0) [.copy]).slice.versionToRead = 0 ∧
    (writeFive.freeze.unfreeze Mvcc.usertable).versionToWrite = 0 :=
  ⟨rfl, rfl⟩

end ScyllaMoon.Request
