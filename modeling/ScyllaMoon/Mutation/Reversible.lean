import ScyllaMoon.Mutation.Content

/-!
# Merging rows, and taking it back

`apply_reversibly` leaves in the source what `revert` needs: the cell that was replaced, with a flag that says so, or
for a counter that was merged in place the shards it had. A cell that goes into a free place is moved there with its
`most_recent_version`. One that replaces another cell gets the version that the caller handed on, and in `set` storage
none is handed on.
-/

namespace ScyllaMoon.Mutation

open Lib CounterShard List Option

variable {Key Id : Type} [LinearOrder Key] [LinearOrder Id]

namespace CounterShard

/-- The shards of `src` after `apply_in_place`: those that `dst` had. -/
def swappedOut : (dst src : List (CounterShard Id)) → List (CounterShard Id)
  | _, [] => []
  | [], _ :: _ => []
  | d :: dst, s :: src =>
    if d.id < s.id then swappedOut dst (s :: src)
    else { s with value := d.value, logicalClock := d.logicalClock } :: swappedOut dst src

/-- `revert_in_place_apply`; the shards stay as they are where its assertion fails. -/
def revertInPlace : (dst src : List (CounterShard Id)) → List (CounterShard Id)
  | dst, [] => dst
  | [], _ :: _ => []
  | d :: dst, s :: src =>
    if d.id < s.id then d :: revertInPlace dst (s :: src)
    else if d.id ≠ s.id then d :: dst
    else { d with value := s.value, logicalClock := s.logicalClock } :: revertInPlace dst src

theorem ids_revertInPlace (dst src : List (CounterShard Id)) : (revertInPlace dst src).map id = dst.map id := by
  fun_induction revertInPlace dst src with
  | case1 => rfl
  | case2 => rfl
  | case3 d dst s src lt ih | case5 d dst s src ge same ih => rw [map_cons, map_cons, ih]
  | case4 => rfl

theorem sorted_revertInPlace {dst : List (CounterShard Id)} (h : Sorted id dst) (src : List (CounterShard Id)) :
    Sorted id (revertInPlace dst src) := by
  unfold Sorted at h ⊢
  rw [← pairwise_map] at h ⊢
  rwa [ids_revertInPlace]

variable {dst src r : List (CounterShard Id)}

theorem swappedOut_cons {s : CounterShard Id}
    (h : applyInPlace dst (s :: src) = some r) : ∃ o l, swappedOut dst (s :: src) = o :: l ∧ o.id = s.id := by
  induction dst generalizing r with
  | nil => cases h
  | cons d dst ih =>
    unfold applyInPlace at h
    unfold swappedOut
    split at h
    next lt =>
      obtain ⟨r, hr, rfl⟩ := map_eq_some_iff.1 h
      rw [if_pos lt]
      exact ih hr
    next ge =>
      rw [if_neg ge]
      exact ⟨_, _, rfl, rfl⟩

/-- The shards that were swapped out are swapped in again. -/
theorem revertInPlace_applyInPlace (h : applyInPlace dst src = some r) :
    revertInPlace r (swappedOut dst src) = dst := by
  fun_induction applyInPlace dst src generalizing r with
  | case1 dst =>
    cases h
    cases dst <;> rfl
  | case2 => cases h
  | case3 d dst s src lt ih =>
    obtain ⟨r, hr, rfl⟩ := map_eq_some_iff.1 h
    obtain ⟨o, l, out, id⟩ := swappedOut_cons hr
    have ih := ih hr
    rw [swappedOut, if_pos lt, out, revertInPlace, if_pos (id ▸ lt), ← out, ih]
  | case4 => cases h
  | case5 d dst s src ge same ih =>
    obtain ⟨r, hr, rfl⟩ := map_eq_some_iff.1 h
    have same : d.id = s.id := not_ne_iff.1 same
    have id : (d.newer s).id = s.id := (newer_id same).trans same
    rw [swappedOut, if_neg ge, revertInPlace]
    rw [if_neg (by rw [id]; exact lt_irrefl _), if_neg (not_ne_iff.2 id), ih hr]
    refine congrArg (· :: dst) ?_
    exact congrArg (mk · _ _) (id.trans same.symm)

end CounterShard

/-- What a source cell holds after `::apply_reversibly`: itself, the cell it replaced, or the timestamp and the shards of
a counter that was merged in place. -/
inductive Leftover (Key Id : Type) [LinearOrder Key] [LinearOrder Id] where
  | kept
  | swapped (old : ColumnCell Key Id)
  | inPlace (timestamp : Int) (shards : List (CounterShard Id))

namespace ColumnCell

/-- What `::apply_reversibly(def, dst, src)` leaves in `src`. -/
def left (dst src : ColumnCell Key Id) : Leftover Key Id :=
  match dst.data, src.data with
  | .atomic a, .atomic b => if a.compareForMerge b = .lt then .swapped dst else .kept
  | .counter (.live t s _), .counter (.live _ s' _) =>
    if s.length ≥ s'.length ∧ (applyInPlace s s').isSome then .inPlace t (swappedOut s s')
    else .swapped dst
  | .counter (.live ..), .counter (.dead ..) => .swapped dst
  | .counter (.dead t d), .counter (.dead t' d') =>
    if (AtomicCell.dead t d).compareForMerge (.dead t' d') = .lt then .swapped dst else .kept
  | .collection _, .collection _ => .swapped dst
  | _, _ => .kept

/-- `::revert(def, dst, src)`: what `dst` becomes. -/
def revert (dst : ColumnCell Key Id) : Leftover Key Id → ColumnCell Key Id
  | .kept => dst
  | .swapped old => old
  | .inPlace t shards => match dst.data with
    | .counter (.live _ s sorted) =>
      { dst with data := .counter (.live t (revertInPlace s shards) (sorted_revertInPlace sorted _)) }
    | _ => dst

open ColumnCell (mk)

theorem merge_atomic (a b : AtomicCell) (x y v : UInt32) :
    CellOps.merge (⟨.atomic a, x⟩ : ColumnCell Key Id) ⟨.atomic b, y⟩ v =
      if a.compareForMerge b = .lt then ⟨.atomic b, v⟩ else ⟨.atomic a, x⟩ := by
  by_cases lt : a.compareForMerge b = .lt
  · rw [if_pos lt]
    exact (mk.injEq ..).mpr ⟨congrArg CellData.atomic (if_pos lt), if_pos lt⟩
  · rw [if_neg lt]
    exact (mk.injEq ..).mpr ⟨congrArg CellData.atomic (if_neg lt), if_neg lt⟩

/-- A counter that was merged in place gets its shards back. -/
theorem revert_merge_live {t t' : Int} {s s' : List (CounterShard Id)} (hs : Sorted CounterShard.id s)
    (hs' : Sorted CounterShard.id s') (version version' v : UInt32) :
    let dst : ColumnCell Key Id := ⟨.counter (.live t s hs), version⟩
    let src : ColumnCell Key Id := ⟨.counter (.live t' s' hs'), version'⟩
    (CellOps.merge dst src v).revert (dst.left src) = dst := by
  intro dst src
  by_cases fits : s.length ≥ s'.length ∧ (applyInPlace s s').isSome
  · obtain ⟨r, hr⟩ := isSome_iff_exists.1 fits.2
    have left : dst.left src = .inPlace t (swappedOut s s') := if_pos fits
    have merged : apply s s' = r := by
      rw [apply, if_pos fits.1, hr]
      rfl
    have back : revertInPlace (apply s s') (swappedOut s s') = s := by
      rw [merged]
      exact revertInPlace_applyInPlace hr
    have kept : dst.versionAfter src v = version := if_pos fits
    rw [left]
    refine (mk.injEq ..).mpr ⟨?_, kept⟩
    exact congrArg CellData.counter ((CounterCell.live.injEq ..).mpr ⟨rfl, back⟩)
  · have left : dst.left src = .swapped dst := if_neg fits
    rw [left]
    rfl

theorem revert_merge (dst src : ColumnCell Key Id) (v : UInt32) : (CellOps.merge dst src v).revert (dst.left src) = dst := by
  obtain ⟨data, version⟩ := dst
  obtain ⟨data', version'⟩ := src
  cases data with
  | atomic a => cases data' with
    | atomic b =>
      by_cases lt : a.compareForMerge b = .lt
      · have left : left ⟨.atomic a, version⟩ ⟨.atomic b, version'⟩ = (.swapped _ : Leftover Key Id) := if_pos lt
        rw [left]
        rfl
      · have left : left ⟨.atomic a, version⟩ ⟨.atomic b, version'⟩ = (.kept : Leftover Key Id) := if_neg lt
        rw [left]
        exact (mk.injEq ..).mpr ⟨congrArg CellData.atomic (if_neg lt), if_neg lt⟩
    | counter _ => rfl
    | collection _ => rfl
  | counter x => cases data' with
    | atomic _ | collection _ => cases x <;> rfl
    | counter y => cases x with
      | live t s hs => cases y with
        | live t' s' hs' => exact revert_merge_live hs hs' version version' v
        | dead => rfl
      | dead t d => cases y with
        | live => rfl
        | dead t' d' =>
          by_cases lt : (AtomicCell.dead t d).compareForMerge (.dead t' d') = .lt
          · have left : left ⟨.counter (.dead t d), version⟩ ⟨.counter (.dead t' d'), version'⟩ =
                (.swapped _ : Leftover Key Id) := if_pos lt
            rw [left]
            rfl
          · have left : left ⟨.counter (.dead t d), version⟩ ⟨.counter (.dead t' d'), version'⟩ =
                (.kept : Leftover Key Id) := if_neg lt
            rw [left]
            exact (mk.injEq ..).mpr ⟨congrArg CellData.counter (if_neg lt), if_neg lt⟩
  | collection m => cases data' <;> rfl

end ColumnCell


theorem AtomicCell.compareForMerge_self (c : AtomicCell) : c.compareForMerge c = .eq := by
  cases c <;> simp [compareForMerge, compareUnsigned_eq]

namespace Row

variable {r other : Row (ColumnCell Key Id)}

/-- `row::apply_reversibly(schema, kind, other, v)`: the row, and what is left in the cells of `other`. A cell that was
moved into the row leaves nothing. -/
def applyReversibly (r other : Row (ColumnCell Key Id)) (v : UInt32) :
    Row (ColumnCell Key Id) × List (ColumnId × Option (Leftover Key Id)) :=
  match other.cells.getLast? with
  | none => (r, [])
  | some (last, _) => other.cells.foldl (fun acc p =>
      (acc.1.applyCell p.1 p.2 v, acc.2 ++ [(p.1, (acc.1.findCell p.1).map (·.left p.2))])) (r.reserve last, [])

/-- `row::revert(column, src)` -/
def revertCell (r : Row (ColumnCell Key Id)) (id : ColumnId) : Option (Leftover Key Id) → Row (ColumnCell Key Id)
  | none => { r with cells := r.cells.filter fun p => !decide (p.1 = id) }
  | some l => { r with cells := r.cells.map fun p => if p.1 = id then (p.1, p.2.revert l) else p }

/-- `row::revert(schema, kind, other)` -/
def revert (r : Row (ColumnCell Key Id)) (left : List (ColumnId × Option (Leftover Key Id))) : Row (ColumnCell Key Id) :=
  left.foldl (fun r l => r.revertCell l.1 l.2) r

theorem findCell_applyCell_of_ne (h : r.Sorted) {id j : ColumnId} (ne : j ≠ id) (value : ColumnCell Key Id) (v : UInt32) :
    (r.applyCell id value v).findCell j = r.findCell j := by
  obtain ⟨merge, cells⟩ := cells_applyCell r id value v
  have keeps : ∀ p : ColumnId × ColumnCell Key Id, (p.1, merge p.2).1 = p.1 := fun _ => rfl
  unfold findCell
  rw [cells, upsert, find?_upsert h keeps, if_neg ne]

/-- Each cell of `other` meets the one that the row had before. -/
theorem foldl_applyReversibly {cells : List (ColumnId × ColumnCell Key Id)} (sorted : Lib.Sorted Prod.fst cells) (v : UInt32)
    (h : r.Sorted) (left : List (ColumnId × Option (Leftover Key Id))) :
    cells.foldl (fun acc p =>
      (acc.1.applyCell p.1 p.2 v, acc.2 ++ [(p.1, (acc.1.findCell p.1).map (·.left p.2))])) (r, left) =
      (cells.foldl (fun r p => r.applyCell p.1 p.2 v) r,
        left ++ cells.map fun p => (p.1, (r.findCell p.1).map (·.left p.2))) := by
  induction cells generalizing r left with
  | nil => simp
  | cons p cells ih =>
    obtain ⟨first, sorted⟩ := pairwise_cons.1 sorted
    have others : cells.map (fun q => (q.1, ((r.applyCell p.1 p.2 v).findCell q.1).map (·.left q.2))) =
        cells.map fun q => (q.1, (r.findCell q.1).map (·.left q.2)) :=
      map_congr_left fun q hq => by rw [findCell_applyCell_of_ne h (first q hq).ne']
    rw [foldl_cons, ih sorted (h.applyCell p.1 p.2 v), others, append_assoc, singleton_append]
    rfl

/-- The row is merged as ever, and the leftovers are told by the cells that met. -/
theorem applyReversibly_eq (h : r.Sorted) (ho : other.Sorted) (v : UInt32) : r.applyReversibly other v =
    (r.apply other v, other.cells.map fun p => (p.1, (r.findCell p.1).map (·.left p.2))) := by
  unfold applyReversibly Row.apply
  cases hl : other.cells.getLast? with
  | none => rw [getLast?_eq_none_iff.1 hl, map_nil]
  | some last =>
    dsimp only
    rw [foldl_applyReversibly ho v (h.reserve last.1), nil_append]
    simp only [findCell_reserve]

theorem findCell_revertCell (r : Row (ColumnCell Key Id)) (id : ColumnId) (l : Option (Leftover Key Id)) (j : ColumnId) :
    (r.revertCell id l).findCell j = if j = id then l.bind fun l => (r.findCell j).map (·.revert l) else r.findCell j := by
  obtain ⟨storage, cells⟩ := r
  unfold findCell revertCell
  cases l with
  | none =>
    rw [find?_filter]
    by_cases hj : j = id
    · subst hj
      rw [if_pos rfl, find?_eq_none.2 (by simp)]
      rfl
    · rw [if_neg hj]
      congr 2
      funext p
      by_cases hp : p.1 = j
      · simp [hp, hj]
      · simp [hp]
  | some l =>
    rw [find?_map, Option.map_map]
    have same : (fun p : ColumnId × ColumnCell Key Id => decide (p.1 = j)) ∘
        (fun p => if p.1 = id then (p.1, p.2.revert l) else p) = fun p => decide (p.1 = j) := by
      funext p
      by_cases hp : p.1 = id <;> simp [hp]
    rw [same]
    cases found : cells.find? fun p => decide (p.1 = j) with
    | none => simp
    | some p =>
      obtain rfl : p.1 = j := by simpa using find?_some found
      by_cases hj : p.1 = id <;> simp [hj]

theorem sorted_revertCell (h : r.Sorted) (id : ColumnId) (l : Option (Leftover Key Id)) : (r.revertCell id l).Sorted := by
  cases l with
  | none => exact h.sublist filter_sublist
  | some l =>
    refine pairwise_map.2 (h.imp fun {p q} lt => ?_)
    have keeps : ∀ p : ColumnId × ColumnCell Key Id, (if p.1 = id then (p.1, p.2.revert l) else p).1 = p.1 := fun p => by
      split <;> rfl
    rwa [keeps, keeps]

/-- The cell of a column after all leftovers were put back -/
theorem findCell_revert {left : List (ColumnId × Option (Leftover Key Id))} (sorted : Lib.Sorted Prod.fst left)
    (r : Row (ColumnCell Key Id)) (j : ColumnId) : (r.revert left).findCell j =
      ((left.find? fun l => decide (l.1 = j)).elim (r.findCell j) fun l => l.2.bind fun l =>
        (r.findCell j).map (·.revert l)) := by
  unfold revert
  induction left generalizing r with
  | nil => rfl
  | cons l left ih =>
    obtain ⟨first, sorted⟩ := pairwise_cons.1 sorted
    rw [foldl_cons, ih sorted, findCell_revertCell]
    by_cases hj : j = l.1
    · have none : left.find? (fun l => decide (l.1 = j)) = none := by
        simpa [find?_eq_none, hj] using fun a b mem => (first (a, b) mem).ne'
      rw [if_pos hj, none, find?_cons_of_pos (by simp [hj])]
      rfl
    · rw [if_neg hj, find?_cons_of_neg (by simpa using Ne.symm hj)]

/-- Rows with the same cell in every column have the same cells. -/
theorem cells_eq_of_findCell {C : Type} {r q : Row C} (h : r.Sorted) (hq : q.Sorted)
    (same : ∀ id, r.findCell id = q.findCell id) : r.cells = q.cells := by
  have found (r : Row C) id : r.cells.find? (fun p => decide (p.1 = id)) = (r.findCell id).map (Prod.mk id) := by
    unfold findCell
    cases hp : r.cells.find? fun p => decide (p.1 = id) with
    | none => rfl
    | some p =>
      obtain rfl : p.1 = id := by simpa using find?_some hp
      rfl
  exact Sorted.eq_of_find? h hq fun id => by rw [found, found, same]

theorem cells_revert_applyReversibly (h : r.Sorted) (ho : other.Sorted) (v : UInt32) :
    ((r.applyReversibly other v).1.revert (r.applyReversibly other v).2).cells = r.cells := by
  rw [applyReversibly_eq h ho]
  have sorted : Lib.Sorted Prod.fst (other.cells.map fun p => (p.1, (r.findCell p.1).map (·.left p.2))) :=
    pairwise_map.2 ho
  refine cells_eq_of_findCell ?_ h fun j => ?_
  · exact foldlRecOn _ _ (h.apply other v) fun r hr l _ => sorted_revertCell hr l.1 l.2
  · rw [findCell_revert sorted, findCell_apply_version h ho, find?_map]
    change Option.elim (((other.cells.find? fun p => decide (p.1 = j))).map _) _ _ = _
    unfold findCell
    cases found : other.cells.find? fun p => decide (p.1 = j) with
    | none => simp
    | some p =>
      obtain rfl : p.1 = j := by simpa using find?_some found
      -- the cell met the one that the row had, or none
      cases met : r.cells.find? fun q => decide (q.1 = p.1) with
      | none => simp [met]
      | some q => simp [met, ColumnCell.revert_merge]

/-- Every atomic cell is stored with its version: it is a cell of one of the rows that were merged. -/
def KeepsVersions (r other result : Row (ColumnCell Key Id)) : Prop :=
  ∀ id c a, result.findCell id = some c → c.data = .atomic a → r.findCell id = some c ∨ other.findCell id = some c

/-- A merge keeps the versions of atomic cells exactly if those that replace others have the version that is handed on. -/
theorem keepsVersions_apply_iff (h : r.Sorted) (ho : other.Sorted) (v : UInt32) :
    KeepsVersions r other (r.apply other v) ↔ ∀ id a x b y, r.findCell id = some ⟨.atomic a, x⟩ →
      other.findCell id = some ⟨.atomic b, y⟩ → a.compareForMerge b = .lt → y = r.handedOn other v := by
  constructor
  · intro keeps id a x b y hd hc lt
    have found := findCell_apply_version h ho v id
    rw [hd, hc, merge_some_some, ColumnCell.merge_atomic, if_pos lt] at found
    rcases keeps id _ b found rfl with same | same
    · rw [hd] at same
      cases same
      rw [AtomicCell.compareForMerge_self] at lt
      cases lt
    · rw [hc] at same
      exact congrArg ColumnCell.mostRecentVersion (some.inj same)
  · intro replaced id c a hc ca
    rw [findCell_apply_version h ho] at hc
    cases hd : r.findCell id with
    | none =>
      rw [hd, merge_none_left] at hc
      exact .inr hc
    | some d => cases he : other.findCell id with
      | none =>
        rw [hd, he, merge_none_right] at hc
        exact .inl hc
      | some e =>
        rw [hd, he, merge_some_some, some_inj] at hc
        subst hc
        obtain ⟨data, x⟩ := d
        obtain ⟨data', y⟩ := e
        cases data with
        | atomic a => cases data' with
          | atomic b =>
            rw [ColumnCell.merge_atomic]
            split
            next lt =>
              exact .inr (by rw [← replaced id a x b y hd he lt])
            · exact .inl rfl
          | counter | collection => exact .inl rfl
        | counter | collection => cases data' <;> cases ca

end Row

end ScyllaMoon.Mutation
