import ScyllaMoon.Ycsb.TwoRounds.Read

/-!
# The order in which the first round is checked

The first round returns a `HashMap`, so that its keys come in any order. The greatest version is the same in
all of them. Whether the versions differ is not: `keys_ts` is `0` before the first key, and also after a key
whose columns all have version `0`, so that such a key is noticed behind the others only.
-/

namespace ScyllaMoon.Ycsb.TwoRounds

open List

variable {K : Type} (cols : List Column)

/-- No column of the key has a version. -/
def Unversioned : Prop :=
  ∀ c ∈ cols, javaInt c.mostRecentVersion ≤ 0

/-- The newest column of the key has version `v`. -/
def NewestIs (v : Int) (cols : List Column) : Prop :=
  (∃ c ∈ cols, javaInt c.mostRecentVersion = v) ∧ ∀ c ∈ cols, javaInt c.mostRecentVersion ≤ v

variable (fetched : List (K × List Column))

/-- Some keys have no version, and the others all have the same one. -/
def Mixed : Prop :=
  ∃ v, 0 < v ∧ (∃ e ∈ fetched, Unversioned e.2) ∧ (∃ e ∈ fetched, NewestIs v e.2) ∧
    ∀ e ∈ fetched, Unversioned e.2 ∨ NewestIs v e.2

variable {v : Int}

/-- The loop over the columns of a key, from a version on. -/
theorem columnsTs_loop (ts : Int) (h : cols.foldl (fun ts c =>
    if javaInt c.mostRecentVersion > ts then javaInt c.mostRecentVersion else ts) ts = v) :
    ts ≤ v ∧ (∀ c ∈ cols, javaInt c.mostRecentVersion ≤ v) ∧
      (v = ts ∨ ∃ c ∈ cols, javaInt c.mostRecentVersion = v) := by
  induction cols generalizing ts with
  | nil => exact ⟨Int.le_of_eq h, nofun, .inl h.symm⟩
  | cons c cols ih =>
    obtain ⟨grows, all, found⟩ := ih _ h
    dsimp only at grows found
    have least : ts ≤ v ∧ javaInt c.mostRecentVersion ≤ v := by
      split at grows <;> omega
    refine ⟨least.1, forall_mem_cons.2 ⟨least.2, all⟩, ?_⟩
    rcases found with same | ⟨x, hx, same⟩
    · split at same
      · exact .inr ⟨c, mem_cons_self, same.symm⟩
      · exact .inl same
    · exact .inr ⟨x, mem_cons_of_mem _ hx, same⟩

theorem columnsTs_spec :
    0 ≤ columnsTs cols ∧ (∀ c ∈ cols, javaInt c.mostRecentVersion ≤ columnsTs cols) ∧
      (columnsTs cols = 0 ∨ ∃ c ∈ cols, javaInt c.mostRecentVersion = columnsTs cols) :=
  columnsTs_loop cols 0 rfl

theorem columnsTs_eq_zero_iff {cols : List Column} : columnsTs cols = 0 ↔ Unversioned cols := by
  obtain ⟨least, all, found⟩ := columnsTs_spec cols
  constructor
  · intro h c hc
    exact h ▸ all c hc
  · intro h
    rcases found with same | ⟨c, hc, same⟩
    · exact same
    · exact Int.le_antisymm (same ▸ h c hc) least

theorem columnsTs_eq_iff {cols : List Column} (pos : 0 < v) : columnsTs cols = v ↔ NewestIs v cols := by
  obtain ⟨-, all, found⟩ := columnsTs_spec cols
  constructor
  · rintro rfl
    exact ⟨found.resolve_left (Int.ne_of_gt pos), all⟩
  · rintro ⟨⟨c, hc, same⟩, newest⟩
    have grows := all c hc
    rcases found with none | ⟨x, hx, eq⟩
    · omega
    · exact Int.le_antisymm (eq ▸ newest x hx) (same ▸ grows)

variable {fetched : List (K × List Column)}

theorem mixed_iff : Mixed fetched ↔
    ∃ v, 0 < v ∧ (∃ e ∈ fetched, columnsTs e.2 = 0) ∧ (∃ e ∈ fetched, columnsTs e.2 = v) ∧
      ∀ e ∈ fetched, columnsTs e.2 = 0 ∨ columnsTs e.2 = v := by
  refine exists_congr fun v => and_congr_right fun pos => ?_
  simp only [columnsTs_eq_zero_iff, columnsTs_eq_iff pos]

variable {fetched order : List (K × List Column)}

theorem Mixed.perm (h : Mixed order) (p : order.Perm fetched) :
    Mixed fetched := by
  obtain ⟨v, pos, ⟨e, he, unversioned⟩, ⟨x, hx, newest⟩, all⟩ := h
  exact ⟨v, pos, ⟨e, p.subset he, unversioned⟩, ⟨x, p.subset hx, newest⟩, fun e he => all e (p.symm.subset he)⟩

/-- One key: the new `keys_ts`, and whether it differs from the keys before. -/
def checkKey (acc : Int × Bool) (e : K × List Column) : Int × Bool :=
  (max acc.1 (columnsTs e.2), acc.2 || (columnsTs e.2 != acc.1 && acc.1 != 0))

theorem check_eq_foldl : check fetched = fetched.foldl checkKey (0, false) := by
  refine congrArg (fun f => fetched.foldl f (0, false)) (funext fun acc => funext fun e => ?_)
  refine Prod.ext ?_ rfl
  dsimp only [checkKey]
  split <;> omega

/-- `keys_ts` is a maximum. -/
theorem fst_foldl_checkKey (acc : Int × Bool) :
    (fetched.foldl checkKey acc).1 = (fetched.map fun e => columnsTs e.2).foldl max acc.1 := by
  induction fetched generalizing acc with
  | nil => rfl
  | cons e fetched ih => exact ih _

/-- The version of the second round does not depend on the order. -/
theorem fst_check_perm (p : order.Perm fetched) :
    (check order).1 = (check fetched).1 := by
  rw [check_eq_foldl, check_eq_foldl, fst_foldl_checkKey, fst_foldl_checkKey]
  exact (p.map _).foldl_eq' (fun x _ y _ z => by omega) 0

/-- Behind a key with a version, all the others must have the same. -/
theorem snd_foldl_checkKey (hv : 0 < v) (fetched : List (K × List Column)) (b : Bool) :
    (fetched.foldl checkKey (v, b)).2 = false ↔ b = false ∧ ∀ e ∈ fetched, columnsTs e.2 = v := by
  induction fetched generalizing v b with
  | nil => simp
  | cons e fetched ih =>
    change (fetched.foldl checkKey (max v (columnsTs e.2), b || (columnsTs e.2 != v && v != 0))).2 = false ↔ _
    rw [ih (by omega), forall_mem_cons]
    have nonzero : v ≠ 0 := Int.ne_of_gt hv
    constructor
    · rintro ⟨both, all⟩
      have split : b = false ∧ columnsTs e.2 = v := by simpa [nonzero] using both
      rw [split.2, Int.max_self] at all
      exact ⟨split.1, split.2, all⟩
    · rintro ⟨hb, same, all⟩
      rw [same, Int.max_self]
      exact ⟨by simp [hb], all⟩

/-- The versions are found to agree if the keys without one come first, and the others agree. -/
theorem snd_check_eq_false_iff : (check fetched).2 = false ↔
    ∃ front back v, fetched = front ++ back ∧ (∀ e ∈ front, columnsTs e.2 = 0) ∧ ∀ e ∈ back, columnsTs e.2 = v := by
  rw [check_eq_foldl]
  induction fetched with
  | nil => exact iff_of_true rfl ⟨[], [], 0, rfl, by simp, by simp⟩
  | cons e fetched ih =>
    have least : 0 ≤ columnsTs e.2 := (columnsTs_spec e.2).1
    have first : (e :: fetched).foldl checkKey (0, false) = fetched.foldl checkKey (columnsTs e.2, false) := by
      simp [checkKey, least]
    rw [first]
    by_cases h0 : columnsTs e.2 = 0
    · rw [h0, ih]
      constructor
      · rintro ⟨front, back, v, rfl, zeros, same⟩
        exact ⟨e :: front, back, v, rfl, forall_mem_cons.2 ⟨h0, zeros⟩, same⟩
      · rintro ⟨_ | ⟨x, front⟩, back, v, split, zeros, same⟩
        · -- the first of the keys that agree has no version, nor have the others
          subst split
          exact ⟨[], fetched, v, rfl, by simp, fun x hx => same x (mem_cons_of_mem _ hx)⟩
        · obtain ⟨rfl, rfl⟩ := cons.inj split
          exact ⟨front, back, v, rfl, (forall_mem_cons.1 zeros).2, same⟩
    · rw [snd_foldl_checkKey (by omega)]
      constructor
      · rintro ⟨-, same⟩
        exact ⟨[], e :: fetched, columnsTs e.2, rfl, by simp, forall_mem_cons.2 ⟨rfl, same⟩⟩
      · rintro ⟨_ | ⟨x, front⟩, back, v, split, zeros, same⟩
        · subst split
          obtain ⟨rfl, same⟩ := forall_mem_cons.1 same
          exact ⟨rfl, same⟩
        · obtain ⟨rfl, rfl⟩ := cons.inj split
          exact absurd (zeros e mem_cons_self) h0

/-- If the keys are found to agree in one order, they all do, or some are without a version. -/
theorem mixed_or_same_of_check (h : (check fetched).2 = false) :
    Mixed fetched ∨ ∃ v, ∀ e ∈ fetched, columnsTs e.2 = v := by
  obtain ⟨front, back, v, rfl, zeros, same⟩ := snd_check_eq_false_iff.1 h
  rcases front with _ | ⟨e, front⟩
  · exact .inr ⟨v, same⟩
  rcases back with _ | ⟨x, back⟩
  · exact .inr ⟨0, by simpa using zeros⟩
  have least : 0 ≤ columnsTs x.2 := (columnsTs_spec x.2).1
  rw [same x mem_cons_self] at least
  by_cases h0 : v = 0
  · subst h0
    exact .inr ⟨0, fun y hy => (mem_append.1 hy).elim (zeros y) (same y)⟩
  refine .inl (mixed_iff.2 ⟨v, by omega, ⟨e, by simp, zeros e mem_cons_self⟩,
    ⟨x, by simp, same x mem_cons_self⟩, fun y hy => ?_⟩)
  exact (mem_append.1 hy).imp (zeros y) (same y)

theorem check_of_same (same : ∀ e ∈ fetched, columnsTs e.2 = v) : (check fetched).2 = false :=
  snd_check_eq_false_iff.2 ⟨[], fetched, v, rfl, by simp, same⟩

/-- With the keys without a version in front nothing is noticed, with them behind the others it is. -/
theorem Mixed.exists_orders (h : Mixed fetched) :
    ∃ order order' : List (K × List Column), order.Perm fetched ∧ order'.Perm fetched ∧
      (check order).2 = false ∧ (check order').2 = true := by
  obtain ⟨v, pos, ⟨e, he, unversioned⟩, ⟨x, hx, newest⟩, all⟩ := mixed_iff.1 h
  have zero : ∀ y ∈ fetched.filter (columnsTs ·.2 = 0), columnsTs y.2 = 0 := by simp
  have nonzero : ∀ y ∈ fetched.filter (fun y => !decide (columnsTs y.2 = 0)), columnsTs y.2 = v := by
    intro y hy
    obtain ⟨hy, h0⟩ := mem_filter.1 hy
    exact (all y hy).resolve_left (by simpa using h0)
  have p := filter_append_perm (fun y => decide (columnsTs y.2 = 0)) fetched
  refine ⟨_, _, p, perm_append_comm.trans p, snd_check_eq_false_iff.2 ⟨_, _, v, rfl, zero, nonzero⟩, ?_⟩
  have last : e ∈ fetched.filter (columnsTs ·.2 = 0) := by simp [he, unversioned]
  have head : x ∈ fetched.filter (fun y => !decide (columnsTs y.2 = 0)) := by simp [hx, newest, Int.ne_of_gt pos]
  rw [← Bool.not_eq_false, check_eq_foldl, foldl_append]
  generalize fetched.filter (fun y => !decide (columnsTs y.2 = 0)) = versioned at nonzero head
  rcases versioned with _ | ⟨y, versioned⟩
  · cases head
  -- from the first key on, `keys_ts` is the version of the others
  intro agree
  have start : checkKey (0, false) y = (v, false) := by
    simp [checkKey, nonzero y mem_cons_self, Int.le_of_lt pos]
  rw [foldl_cons, start, ← foldl_append, snd_foldl_checkKey pos] at agree
  have := agree.2 e (mem_append_right _ last)
  omega

/-- The check comes out the same in every order of the keys, unless some have no version and the others agree. -/
theorem check_order_independent_iff :
    (∀ order : List (K × List Column), order.Perm fetched → check order = check fetched) ↔ ¬Mixed fetched := by
  constructor
  · intro same mixed
    obtain ⟨order, order', p, p', agree, differ⟩ := mixed.exists_orders
    rw [same order p] at agree
    rw [same order' p', agree] at differ
    cases differ
  · intro unmixed order p
    refine Prod.ext (fst_check_perm p) (Bool.eq_iff_iff.2 (not_iff_not.1 ?_))
    rw [Bool.not_eq_true, Bool.not_eq_true]
    constructor
    · intro h
      obtain mixed | ⟨v, same⟩ := mixed_or_same_of_check h
      · exact absurd (mixed.perm p) unmixed
      · exact check_of_same fun e he => same e (p.symm.subset he)
    · intro h
      obtain mixed | ⟨v, same⟩ := mixed_or_same_of_check h
      · exact absurd mixed unmixed
      · exact check_of_same fun e he => same e (p.subset he)

/-- A key that was never written and one that was written at version `5`: a second round is needed in one
order only. -/
theorem check_depends_on_order :
    check [(1, []), (2, [⟨0, [0], 5⟩])] = (5, false) ∧ check [(2, [⟨0, [0], 5⟩]), (1, [])] = (5, true) := by
  decide

end ScyllaMoon.Ycsb.TwoRounds
