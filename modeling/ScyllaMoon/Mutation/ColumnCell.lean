import ScyllaMoon.Lib.Combine
import ScyllaMoon.Mutation.Reconcile

/-!
# Cells of every kind of column

`atomic_cell_or_collection` holds an atomic cell, a counter or a serialized collection; which of them is
told by the type of the column. A counter is a set of shards by counter id, of which the one with the
higher logical clock is kept. A collection has a tombstone of its own and atomic cells by key: when two
collections are merged, the cells of each that the tombstone of the other covers are dropped.
-/

namespace ScyllaMoon.Mutation

open Lib Option

/-- `counter_shard` -/
structure CounterShard (Id : Type) where
  id : Id
  value : Int
  logicalClock : Int
  deriving DecidableEq, Repr

namespace CounterShard

variable {Id : Type} [LinearOrder Id]

/-- The shard with the higher logical clock. -/
def newer (x y : CounterShard Id) : CounterShard Id :=
  if x.logicalClock < y.logicalClock then y else x

/-- `apply_in_place`: what becomes of the shards of `dst`, if it has all that `src` has. -/
def applyInPlace : (dst src : List (CounterShard Id)) → Option (List (CounterShard Id))
  | dst, [] => some dst
  | [], _ :: _ => none
  | d :: dst, s :: src =>
    if d.id < s.id then (applyInPlace dst (s :: src)).map (d :: ·)
    -- the fast path failed
    else if d.id ≠ s.id then none
    else (applyInPlace dst src).map (d.newer s :: ·)

open CounterShard (id)

variable (dst src : List (CounterShard Id))

/-- The shards of a merged counter cell. -/
def apply : List (CounterShard Id) :=
  if dst.length ≥ src.length then (applyInPlace dst src).getD (combine id newer dst src)
  else combine id newer dst src

omit [LinearOrder Id] in
theorem newer_id {x y : CounterShard Id} (h : x.id = y.id) : (x.newer y).id = x.id := by
  unfold newer
  split
  · exact h.symm
  · rfl

/-- The fast path gives what the slow one would. -/
theorem applyInPlace_eq {dst src r : List (CounterShard Id)} (h : applyInPlace dst src = some r) :
    combine id newer dst src = r := by
  fun_induction applyInPlace dst src generalizing r with
  | case1 dst =>
    cases h
    exact combine_nil_right
  | case2 => cases h
  | case3 d dst s src lt ih =>
    obtain ⟨r, hr, rfl⟩ := map_eq_some_iff.1 h
    rw [combine_cons_cons, if_pos lt, ih hr]
  | case4 => cases h
  | case5 d dst s src ge same ih =>
    obtain ⟨r, hr, rfl⟩ := map_eq_some_iff.1 h
    rw [combine_cons_cons, if_neg ge, if_neg (by rw [not_ne_iff.1 same]; exact lt_irrefl _), ih hr]

theorem apply_eq : apply dst src = combine id newer dst src := by
  unfold apply
  split
  · cases h : applyInPlace dst src with
    | none => rfl
    | some r => exact (applyInPlace_eq h).symm
  · rfl

end CounterShard

/-- The cell of a counter column. Counter updates are turned into shards before they reach a partition. -/
inductive CounterCell (Id : Type) [LinearOrder Id] where
  | live (timestamp : Int) (shards : List (CounterShard Id)) (sorted : Sorted CounterShard.id shards)
  | dead (timestamp deletionTime : Int)

namespace CounterCell

variable {Id : Type} [LinearOrder Id]

/-- `counter_cell_view::apply_reversibly`: what `dst` becomes. A deletion is final. -/
def merge : (dst src : CounterCell Id) → CounterCell Id
  | live t s hs, live t' s' hs' => live (max t t') (CounterShard.apply s s') <| by
      rw [CounterShard.apply_eq]
      exact hs.combine hs' fun _ _ => CounterShard.newer_id
  | live .., dead t d => dead t d
  | dead t d, live .. => dead t d
  | dead t d, dead t' d' =>
    if (AtomicCell.dead t d).compareForMerge (.dead t' d') = .lt then dead t' d' else dead t d

end CounterCell

/-- `collection_type_impl::mutation`, as it is deserialized: cells in the order of their keys and a
tombstone that is the empty one unless it was written. -/
structure CollectionMutation (Key : Type) [LinearOrder Key] where
  tomb : Tombstone
  cells : List (Key × AtomicCell)
  written : tomb.Written
  sorted : Sorted Prod.fst cells

namespace CollectionMutation

variable {Key : Type} [LinearOrder Key] (t : Tombstone)

/-- `cell_killed(t)` of `collection_type_impl::merge`; the tombstone wins if timestamps are equal. -/
def killed (c : AtomicCell) : Bool := !decide (t.timestamp < c.timestamp)

variable (cells : List (Key × AtomicCell))

/-- The cells that a tombstone leaves. -/
def survivors : List (Key × AtomicCell) :=
  cells.filter fun e => !killed t e.2

omit [LinearOrder Key] in
theorem survivors_sublist : (survivors t cells).Sublist cells :=
  List.filter_sublist

/-- `collection_type_impl::merge` -/
def merge (a b : CollectionMutation Key) : CollectionMutation Key where
  tomb := max a.tomb b.tomb
  cells := combine Prod.fst (fun e₁ e₂ => (e₁.1, e₁.2.pick e₂.2)) (survivors b.tomb a.cells) (survivors a.tomb b.cells)
  written := a.written.max b.written
  sorted := Sorted.combine (a.sorted.sublist (survivors_sublist _ _)) (b.sorted.sublist (survivors_sublist _ _))
    fun _ _ _ => rfl

/-- The cell of a key. -/
def find (a : CollectionMutation Key) (k : Key) : Option AtomicCell :=
  (a.cells.find? fun e => decide (e.1 = k)).map Prod.snd

theorem find_eq_some {a : CollectionMutation Key} {k : Key} {c : AtomicCell} : a.find k = some c ↔ (k, c) ∈ a.cells := by
  rw [a.sorted.mem_iff_find?, find, map_eq_some_iff]
  constructor
  · rintro ⟨e, he, rfl⟩
    have : e.1 = k := by simpa using List.find?_some he
    subst this
    exact he
  · exact fun h => ⟨(k, c), h, rfl⟩

theorem ext_find {a b : CollectionMutation Key} (tomb : a.tomb = b.tomb) (find : ∀ k, a.find k = b.find k) : a = b := by
  have cells : a.cells = b.cells := a.sorted.eq_of_mem b.sorted fun e => by
    rw [← find_eq_some, ← find_eq_some, find]
  cases b
  cases tomb
  cases cells
  rfl

/-- The deletion times of all cells are those of `gc_clock`. -/
def Fits (a : CollectionMutation Key) : Prop := ∀ k d, a.find k = some d → d.Fits

/-- A cell that a tombstone may have killed. -/
def spared (o : Option AtomicCell) : Option AtomicCell := o.filter fun c => !killed t c

section Spared

variable {t : Tombstone} {c : AtomicCell}

@[simp] theorem spared_none : spared t none = none := rfl

theorem spared_of_lt (h : t.timestamp < c.timestamp) : spared t (some c) = some c := by
  simp [spared, killed, Option.filter, h]

theorem spared_of_le (h : c.timestamp ≤ t.timestamp) : spared t (some c) = none := by
  simp [spared, killed, Option.filter, not_lt.2 h]

theorem spared_eq_some {o : Option AtomicCell} : spared t o = some c ↔ o = some c ∧ t.timestamp < c.timestamp := by
  simp [spared, killed, filter_eq_some_iff]

theorem map_filter_killed {Key : Type} (o : Option (Key × AtomicCell)) :
    (o.filter fun e => !killed t e.2).map Prod.snd = spared t (o.map Prod.snd) := by
  cases o with
  | none => rfl
  | some e => cases h : killed t e.2 <;> simp [spared, Option.filter, h]

end Spared

theorem find_merge (a b : CollectionMutation Key) (k : Key) :
    (a.merge b).find k = Option.merge AtomicCell.pick (spared b.tomb (a.find k)) (spared a.tomb (b.find k)) := by
  have keeps : ∀ e₁ e₂ : Key × AtomicCell, e₁.1 = e₂.1 → (e₁.1, e₁.2.pick e₂.2).1 = e₁.1 := fun _ _ _ => rfl
  have found := find?_combine (a.sorted.sublist (survivors_sublist b.tomb _))
    (b.sorted.sublist (survivors_sublist a.tomb _)) keeps k
  unfold survivors at found
  rw [a.sorted.find?_filter, b.sorted.find?_filter] at found
  unfold find
  rw [← map_filter_killed, ← map_filter_killed]
  exact (congrArg (Option.map Prod.snd) found).trans (map_merge fun _ _ _ _ => rfl)

end CollectionMutation

/-- The type of a column, as far as merging goes: `is_counter()`, `is_atomic()` or neither. -/
inductive CellType where
  | atomic
  | counter
  | collection
  deriving DecidableEq, Repr

/-- The bytes of an `atomic_cell_or_collection`. -/
inductive CellData (Key Id : Type) [LinearOrder Key] [LinearOrder Id] where
  | atomic (cell : AtomicCell)
  | counter (cell : CounterCell Id)
  | collection (mutation : CollectionMutation Key)

namespace CellData

variable {Key Id : Type} [LinearOrder Key] [LinearOrder Id]

def type : CellData Key Id → CellType
  | atomic _ => .atomic
  | counter _ => .counter
  | collection _ => .collection

/-- `::apply_reversibly(def, dst, src)`: what `dst` becomes. -/
def merge : (dst src : CellData Key Id) → CellData Key Id
  | atomic a, atomic b => atomic (a.merge b)
  | counter a, counter b => counter (a.merge b)
  | collection a, collection b => collection (a.merge b)
  -- the cells of one column are of one type
  | dst, _ => dst

/-- A cell of a column of this type, with deletion times of `gc_clock`. -/
def Ok (t : CellType) : CellData Key Id → Prop
  | atomic c => t = .atomic ∧ c.Fits
  | counter _ => t = .counter
  | collection m => t = .collection ∧ m.Fits

theorem type_merge (dst src : CellData Key Id) : (dst.merge src).type = dst.type := by
  cases dst <;> cases src <;> rfl

end CellData

/-- `atomic_cell_or_collection` -/
structure ColumnCell (Key Id : Type) [LinearOrder Key] [LinearOrder Id] where
  data : CellData Key Id
  mostRecentVersion : UInt32 := 0

namespace ColumnCell

variable {Key Id : Type} [LinearOrder Key] [LinearOrder Id]

/-- The `most_recent_version` that `dst` has after `::apply_reversibly(def, dst, src, v)`: it is set where
an atomic cell is replaced, goes with a counter cell that is swapped in, and is lost where a new object
is assigned. -/
def versionAfter (dst src : ColumnCell Key Id) (v : UInt32) : UInt32 :=
  match dst.data, src.data with
  | .atomic a, .atomic b => if a.compareForMerge b = .lt then v else dst.mostRecentVersion
  | .counter (.live _ s _), .counter (.live _ s' _) =>
    if s.length ≥ s'.length ∧ (CounterShard.applyInPlace s s').isSome then dst.mostRecentVersion else 0
  | .counter (.live ..), .counter (.dead ..) => src.mostRecentVersion
  | .counter (.dead t d), .counter (.dead t' d') =>
    if (AtomicCell.dead t d).compareForMerge (.dead t' d') = .lt then src.mostRecentVersion else dst.mostRecentVersion
  | .collection _, .collection _ => 0
  | _, _ => dst.mostRecentVersion

instance : CellOps (ColumnCell Key Id) where
  merge dst src v := { data := dst.data.merge src.data, mostRecentVersion := dst.versionAfter src v }
  setMostRecentVersion c v := { c with mostRecentVersion := v }

end ColumnCell

section

variable (Pos Key Id : Type) [LinearOrder Key] [LinearOrder Id]

/-- Partitions with every kind of column -/
abbrev ColumnPartition := MutationPartition Pos (ColumnCell Key Id)

abbrev ColumnEntry := RowsEntry Pos (ColumnCell Key Id)

end

end ScyllaMoon.Mutation
