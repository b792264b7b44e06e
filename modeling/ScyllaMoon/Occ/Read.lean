import ScyllaMoon.Lib.Bytes
import ScyllaMoon.Lib.Run
import ScyllaMoon.Lib.Sorted

/-!
# Optimistic read-only transactions

`ycsb_occ` reads a set of keys twice and returns the first result if the second one agrees with it. The
store is modelled as the rows of the keys; a request reads its keys one by one, and writes come at any
moment between. A value of the result is a `ByteIterator`, whose `toArray` consumes what it returns.
-/

namespace ScyllaMoon.Occ

open Lib Function

/-- `ByteArrayByteIterator` -/
structure ByteIterator where
  str : Bytes
  off : Nat
  len : Nat

namespace ByteIterator

/-- The iterator over a whole value. -/
def ofBytes (v : Bytes) : ByteIterator := { str := v, off := 0, len := v.length }

variable (it : ByteIterator)

/-- What a reader of the iterator gets. -/
def bytesLeft : Bytes := (it.str.drop it.off).take (it.len - it.off)

/-- The iterator after all was read. -/
def consumed : ByteIterator := { it with off := it.off + (it.len - it.off) }

/-- `ByteIterator::toArray` -/
def toArray : Bytes × ByteIterator := (it.bytesLeft, it.consumed)

@[simp] theorem bytesLeft_ofBytes (v : Bytes) : (ofBytes v).bytesLeft = v := by
  simp [bytesLeft, ofBytes]

@[simp] theorem bytesLeft_consumed : it.consumed.bytesLeft = [] := by
  simp [bytesLeft, consumed]
  omega

end ByteIterator

variable {K Col : Type}

/-- The columns of a row with their values. -/
abbrev Columns (Col : Type) := List (Col × Bytes)

/-- A row of the store; its columns are in the order of their names. -/
structure Row (Col : Type) [LinearOrder Col] where
  columns : Columns Col
  sorted : Sorted Prod.fst columns

/-- The argument `fields`: null for all columns, or the names of the columns to read. -/
inductive Fields (Col : Type) where
  | all
  | only (names : List Col)

/-- The count of the `SliceRange`. -/
def sliceCount : Nat := 1000000

/-- The first entry of a column. -/
def valueOf [DecidableEq Col] (cols : Columns Col) (c : Col) : Option Bytes :=
  (cols.find? fun p => decide (p.1 = c)).map Prod.snd

section Rows

variable [LinearOrder Col]

/-- One column of a write. -/
def Row.put (r : Row Col) (p : Col × Bytes) : Row Col where
  columns := upsert Prod.fst p (fun q => (q.1, p.2)) r.columns
  sorted := r.sorted.upsert fun _ => rfl

/-- The columns that the slice predicate selects. -/
def Fields.select : Fields Col → Columns Col → Columns Col
  | all, cols => cols.take sliceCount
  | only names, cols => cols.filter fun p => decide (p.1 ∈ names)

/-- The columns that are asked for. -/
def Fields.requested : Fields Col → Columns Col → Columns Col
  | all, cols => cols
  | only names, cols => cols.filter fun p => decide (p.1 ∈ names)

end Rows

/-- `HashMap<ByteBuffer, HashMap<String, ByteIterator>>` -/
abbrev Result (K Col : Type) := K → Option (Col → Option ByteIterator)

namespace Result

variable [DecidableEq K] [DecidableEq Col] (r : Result K Col)

/-- `result.get(key).get(column)`, where a missing row has no columns. -/
def get (k : K) (c : Col) : Option ByteIterator :=
  (r k).bind fun row => row c

/-- What the caller reads from the result. -/
def bytes (k : K) (c : Col) : Option Bytes :=
  (r.get k c).map ByteIterator.bytesLeft

/-- The loop that fills a result with what `multiget_slice` returned for one key. -/
def putRow (e : K × Columns Col) : Result K Col :=
  update r e.1 (some (e.2.foldl (fun row p =>
    update row p.1 (some (ByteIterator.ofBytes p.2))) fun _ => none))

/-- The comparison of the columns of one key, up to the first difference. A null pointer exception leaves the
result as it is then. -/
def compareColumns (k : K) : Columns Col → Result K Col → Except (Result K Col) (Result K Col × Bool)
  | [], r => .ok (r, true)
  | (c, second) :: cols, r => match r k with
    | none => .error r
    | some row => match row c with
      | none => .error r
      | some it =>
        let r := update r k (some (update row c (some it.toArray.2)))
        if second = it.toArray.1 then compareColumns k cols r else .ok (r, false)

/-- The validation: compares the second round with the result of the first. -/
def validate : List (K × Columns Col) → Result K Col → Except (Result K Col) (Result K Col × Bool)
  | [], r => .ok (r, true)
  | (k, cols) :: entries, r => do
    let (r, same) ← compareColumns k cols r
    let (r, rest) ← validate entries r
    return (r, same && rest)

end Result

/-- Where `read` is: `turns` is the number of turns of the retry loop that are left. In a round, the columns
that were read so far. -/
inductive Phase (K Col : Type) where
  | ready (turns : Nat)
  | first (turns : Nat) (fetched : List (K × Columns Col))
  | between (turns : Nat)
  | second (turns : Nat) (fetched : List (K × Columns Col))
  | ok
  | error

/-- The store and one call of `read`. -/
structure State (K Col : Type) [LinearOrder Col] where
  store : K → Row Col
  phase : Phase K Col
  result : Result K Col := fun _ => none

/-- What can happen: a write to one key, a step of the reader, or an exception in it. -/
inductive Event (K Col : Type) where
  | write (k : K) (values : Columns Col)
  | startFirst
  | fetch (k : K)
  | endFirst
  | startSecond
  | endSecond
  | exception
  | giveUp

variable [DecidableEq K] [LinearOrder Col]

/-- One event of a `read` of `keys`; an event that is not possible has no next state. -/
def State.step (keys : List K) (fields : Fields Col) (s : State K Col) : Event K Col → Except Unit (State K Col × Unit)
  | .write k values => .ok ({ s with store := update s.store k (values.foldl Row.put (s.store k)) }, ())
  | .startFirst => match s.phase with
    | .ready (turns + 1) => .ok ({ s with phase := .first turns [] }, ())
    | _ => .error ()
  | .fetch k => match s.phase with
    | .first turns fetched =>
      if k ∈ keys ∧ k ∉ fetched.map Prod.fst then
        .ok ({ s with phase := .first turns (fetched ++ [(k, fields.select (s.store k).columns)]) }, ())
      else .error ()
    | .second turns fetched =>
      if k ∈ keys ∧ k ∉ fetched.map Prod.fst then
        .ok ({ s with phase := .second turns (fetched ++ [(k, fields.select (s.store k).columns)]) }, ())
      else .error ()
    | _ => .error ()
  | .endFirst => match s.phase with
    | .first turns fetched =>
      if ∀ k ∈ keys, k ∈ fetched.map Prod.fst then
        .ok ({ s with phase := .between turns, result := fetched.foldl Result.putRow s.result }, ())
      else .error ()
    | _ => .error ()
  | .startSecond => match s.phase with
    | .between turns => .ok ({ s with phase := .second turns [] }, ())
    | _ => .error ()
  | .endSecond => match s.phase with
    | .second turns fetched =>
      if ∀ k ∈ keys, k ∈ fetched.map Prod.fst then
        match Result.validate fetched s.result with
        | .ok (r, true) => .ok ({ s with phase := .ok, result := r }, ())
        | .ok (_, false) => .ok ({ s with phase := .ready turns, result := fun _ => none }, ())
        | .error r => .ok ({ s with phase := .ready turns, result := r }, ())
      else .error ()
    | _ => .error ()
  | .exception => match s.phase with
    | .first turns _ => .ok ({ s with phase := .ready turns }, ())
    | .between turns => .ok ({ s with phase := .ready turns }, ())
    | .second turns _ => .ok ({ s with phase := .ready turns }, ())
    | _ => .error ()
  | .giveUp => match s.phase with
    | .ready 0 => .ok ({ s with phase := .error }, ())
    | _ => .error ()

end ScyllaMoon.Occ
