import ScyllaMoon.Lib.Run
import ScyllaMoon.Mvcc.Entry
import ScyllaMoon.Mutation.Partition

/-!
# The table of the YCSB workload

`usertable`, cut down to one column, and the requests of the clients against one of its entries. The
sample runs of the later modules are made of these.
-/

namespace ScyllaMoon.Mvcc

open Lib Mutation

abbrev Usertable := Heap TableSchema (MutationPartition Nat Cell)

abbrev UsertableOp := Op TableSchema (MutationPartitionView Nat Cell) (MutationPartition Nat Cell)

def usertable : TableSchema where
  version := 1
  cfName := "usertable"
  regularColumns := ["field0"]

/-- A write of one byte into the first column. -/
def putByte (timestamp : Int) (b : UInt8) : MutationPartitionView Nat Cell where
  rows := [(0, {}, {}, [(0, { cell := .live timestamp [b] })])]

/-- A new entry of the table. -/
def newEntry : Usertable := .ofPartition 0 {}

/-- A write of `b` at version `v`; a later write has a later timestamp. -/
def put (v : UInt32) (timestamp : Int) (b : UInt8) : UsertableOp :=
  .applyView usertable (putByte timestamp b) usertable v

/-- `n` writes at consecutive versions from `start` on. -/
def puts (start n : Nat) : List UsertableOp :=
  (List.range n).map fun i => put (UInt32.ofNat (start + i)) i (UInt8.ofNat (start + i))

def readAt (t : UInt32) : UsertableOp :=
  .read usertable defaultPhase t

/-- The entry after requests that do not fault. -/
def entryAfter (ops : List UsertableOp) : Usertable :=
  (after Heap.step newEntry ops).getD newEntry

/-- The content of a snapshot, as `squashed` returned it. -/
def squashedContent {P : Type} : Except Fault (Answer P) → Option P
  | .ok (.content mp) => some mp
  | _ => none

/-- The number of the version that a read returned. -/
def servedNumber {P : Type} : Except Fault (Answer P) → Option UInt32
  | .ok (.snapshot _ n _) => some n
  | _ => none

end ScyllaMoon.Mvcc
