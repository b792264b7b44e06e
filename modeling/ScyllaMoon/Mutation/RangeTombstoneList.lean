import ScyllaMoon.Mutation.Row

/-!
# Range tombstones

`range_tombstone_list` keeps disjoint deleted ranges sorted by position. A bound is a prefix with one
of four kinds; a start and an end bound of one prefix that are each other's `invert_kind` stand at the
same position, the end bound first. So a bound is a position of a linear order here, and of the
comparisons of `bound_view` the one of an end with a start bound is `≤` and the others are `<`.
-/

namespace ScyllaMoon.Mutation

/-- `range_tombstone`: `tomb` deletes from the start bound to the end bound. -/
structure RangeTombstone (Pos : Type) where
  start : Pos
  stop : Pos
  tomb : Tombstone
  deriving DecidableEq, Repr

/-- `query::clustering_range`, by `for_range_start` and `for_range_end`. -/
structure ClusteringRange (Pos : Type) where
  start : Pos
  stop : Pos
  deriving DecidableEq, Repr

abbrev RangeTombstoneList (Pos : Type) := List (RangeTombstone Pos)

namespace RangeTombstoneList

variable {Pos : Type} [LinearOrder Pos]

/-- The loop of `range_tombstone_list::insert_from`, from the iterator on. -/
def insertFrom (start stop : Pos) (tomb : Tombstone) : RangeTombstoneList Pos → RangeTombstoneList Pos
  | [] => [{ start, stop, tomb }]
  | it :: rest =>
    if stop ≤ start then it :: rest
    else if stop ≤ it.start then
      if it.tomb = tomb ∧ stop = it.start then { start, stop := it.stop, tomb } :: rest
      else { start, stop, tomb } :: it :: rest
    else match tomb.compare it.tomb with
      | .eq => insertFrom (min it.start start) (max stop it.stop) tomb rest
      | .gt =>
        -- the part of `it` before the new tombstone survives
        let left := if it.start < start then [{ it with stop := start }] else []
        if stop < it.stop then left ++ { start, stop, tomb } :: { it with start := stop } :: rest
        else left ++ insertFrom start stop tomb rest
      | .lt =>
        if start < it.start ∧ ¬it.start < stop then { start, stop, tomb } :: it :: rest
        else
          let left := if start < it.start then [{ start, stop := it.start, tomb }] else []
          if it.stop < stop then left ++ it :: insertFrom it.stop stop tomb rest
          else left ++ it :: rest

/-- `range_tombstone_list::apply` -/
def apply (l : RangeTombstoneList Pos) (rt : RangeTombstone Pos) : RangeTombstoneList Pos :=
  let before := l.takeWhile fun it => decide (it.stop ≤ rt.start)
  let rest := l.dropWhile fun it => decide (it.stop ≤ rt.start)
  match before.getLast? with
  | none => insertFrom rt.start rt.stop rt.tomb rest
  | some prev =>
    if prev.tomb = rt.tomb ∧ prev.stop = rt.start then
      before.dropLast ++ insertFrom prev.start rt.stop rt.tomb rest
    else before ++ insertFrom rt.start rt.stop rt.tomb rest

/-- `range_tombstone_list::apply(schema, list)` -/
def applyAll (l m : RangeTombstoneList Pos) : RangeTombstoneList Pos :=
  m.foldl apply l

/-- `range_tombstone_list::slice`: the tombstones that overlap the range. -/
def slice (l : RangeTombstoneList Pos) (r : ClusteringRange Pos) : RangeTombstoneList Pos :=
  (l.dropWhile fun rt => decide (rt.stop ≤ r.start)).takeWhile fun rt => decide (rt.start < r.stop)

end RangeTombstoneList

end ScyllaMoon.Mutation
