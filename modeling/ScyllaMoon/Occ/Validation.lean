import ScyllaMoon.Occ.Read

/-!
# What a validated read returns

If no column ever gets a value twice, a column that shows the same value in both rounds did not change in
between. So the columns that a successful read returns are those of the store at every moment between its
rounds. Their values are not: the comparison consumed them.
-/

namespace ScyllaMoon.Occ

open Lib Function List

variable {K Col : Type}

section Columns

variable [LinearOrder Col]

variable {cols : Columns Col} {c : Col}

theorem valueOf_eq_some (h : Sorted Prod.fst cols) {v : Bytes} : valueOf cols c = some v ↔ (c, v) ∈ cols := by
  rw [h.mem_iff_find?, valueOf, Option.map_eq_some_iff]
  constructor
  · rintro ⟨⟨c', v'⟩, found, rfl⟩
    have hc : c' = c := by simpa using find?_some found
    subst hc
    exact found
  · exact fun found => ⟨_, found, rfl⟩

theorem valueOf_isSome : (valueOf cols c).isSome ↔ c ∈ cols.map Prod.fst := by
  simp [valueOf, find?_isSome]

theorem valueOf_put (r : Row Col) (p : Col × Bytes) (c : Col) :
    valueOf (r.put p).columns c = if c = p.1 then some p.2 else valueOf r.columns c := by
  have found : (upsert Prod.fst p (fun q => (q.1, p.2)) r.columns).find? (fun a => decide (a.1 = c)) = _ :=
    find?_upsert r.sorted (by intro _; rfl) c
  unfold valueOf Row.put
  rw [found]
  split
  · cases r.columns.find? fun a => decide (a.1 = c) <;> rfl
  · rfl

variable {values : Columns Col}

/-- A write only adds columns. -/
theorem isSome_valueOf_foldl_put {r : Row Col} (h : (valueOf r.columns c).isSome) :
    (valueOf (values.foldl Row.put r).columns c).isSome := by
  induction values generalizing r with
  | nil => exact h
  | cons p values ih =>
    refine ih ?_
    rw [valueOf_put]
    split
    · rfl
    · exact h

/-- A value is from the write or was there before. -/
theorem mem_or_of_valueOf_foldl_put {r : Row Col} {v : Bytes}
    (h : valueOf (values.foldl Row.put r).columns c = some v) : (c, v) ∈ values ∨ valueOf r.columns c = some v := by
  induction values generalizing r with
  | nil => exact .inr h
  | cons p values ih =>
    rcases ih h with mem | before
    · exact .inl (mem_cons_of_mem _ mem)
    · rw [valueOf_put] at before
      split at before
      next hc =>
        cases before
        subst hc
        exact .inl mem_cons_self
      · exact .inr before

variable (fields : Fields Col)

theorem Fields.sublist_select (cols : Columns Col) : (fields.select cols).Sublist cols := by
  cases fields with
  | all => exact take_sublist ..
  | only names => exact filter_sublist

theorem Fields.sorted_select (r : Row Col) : Sorted Prod.fst (fields.select r.columns) :=
  r.sorted.sublist (fields.sublist_select _)

theorem Fields.sorted_requested (r : Row Col) : Sorted Prod.fst (fields.requested r.columns) := by
  cases fields with
  | all => exact r.sorted
  | only names => exact r.sorted.sublist filter_sublist

theorem Fields.mem_requested_of_select {fields : Fields Col} {cols' : Columns Col} {p : Col × Bytes}
    (asked : p ∈ fields.select cols) (there : p ∈ cols') : p ∈ fields.requested cols' := by
  cases fields with
  | all => exact there
  | only names => exact mem_filter.2 ⟨there, (mem_filter.1 asked).2⟩

theorem length_le_of_columns {x y : Columns Col} (hx : Sorted Prod.fst x)
    (h : ∀ c, (valueOf x c).isSome → (valueOf y c).isSome) : x.length ≤ y.length := by
  have sub : x.map Prod.fst ⊆ y.map Prod.fst := fun c hc => valueOf_isSome.1 (h c (valueOf_isSome.2 hc))
  simpa using (List.Nodup.subperm hx.nodup sub).length_le

/-- A row with more columns has more of those that are selected. -/
theorem Fields.length_select_le {a b : Row Col} (h : ∀ c, (valueOf a.columns c).isSome → (valueOf b.columns c).isSome) :
    (fields.select a.columns).length ≤ (fields.select b.columns).length := by
  cases fields with
  | all =>
    have le := length_le_of_columns a.sorted h
    simp only [select, length_take]
    omega
  | only names =>
    refine length_le_of_columns ((only names).sorted_select a) fun c hc => ?_
    obtain ⟨p, hp, rfl⟩ := mem_map.1 (valueOf_isSome.1 hc)
    obtain ⟨hp, asked⟩ := mem_filter.1 hp
    obtain ⟨q, hq, e⟩ := mem_map.1 (valueOf_isSome.1 (h p.1 (valueOf_isSome.2 (mem_map_of_mem hp))))
    refine valueOf_isSome.2 (mem_map.2 ⟨q, mem_filter.2 ⟨hq, ?_⟩, e⟩)
    rwa [e]

end Columns

section Result

variable [DecidableEq K] [LinearOrder Col]

namespace Result

variable {cols : Columns Col}

open Prod (fst)

open ByteIterator (ofBytes consumed)

theorem get_putRow_self (h : Sorted fst cols) (r : Result K Col) (k : K) (c : Col) :
    (r.putRow (k, cols)).get k c = (valueOf cols c).map ofBytes := by
  have fills : ∀ row : Col → Option ByteIterator, (cols.foldl (fun (row : Col → Option ByteIterator) p =>
      update row p.1 (some (ofBytes p.2))) row) c =
        ((valueOf cols c).map ofBytes).or (row c) := by
    induction cols with
    | nil => intro row; rfl
    | cons p cols ih =>
      intro row
      obtain ⟨first, h⟩ := pairwise_cons.1 h
      rw [foldl_cons, ih h]
      by_cases hc : p.1 = c
      · have none : valueOf cols c = none := by
          refine Option.not_isSome_iff_eq_none.1 fun some => ?_
          obtain ⟨q, hq, rfl⟩ := mem_map.1 (valueOf_isSome.1 some)
          exact absurd hc (first q hq).ne
        rw [none]
        subst hc
        simp [valueOf]
      · rw [update_of_ne (Ne.symm hc)]
        simp [valueOf, hc]
  unfold get putRow
  rw [update_self]
  exact (fills _).trans (Option.or_none ..)

variable {k : K}

theorem get_putRow_of_ne (r : Result K Col) (e : K × Columns Col) (ne : k ≠ e.1) (c : Col) :
    (r.putRow e).get k c = r.get k c := by
  unfold get putRow
  rw [update_of_ne ne]

/-- After the first round the result has the rows that were fetched. -/
theorem get_foldl_putRow {fetched : List (K × Columns Col)} (sorted : ∀ e ∈ fetched, Sorted fst e.2)
    (nodup : (fetched.map fst).Nodup) (r : Result K Col) (mem : (k, cols) ∈ fetched) (c : Col) :
    (fetched.foldl putRow r).get k c = (valueOf cols c).map ofBytes := by
  have others : ∀ {fetched : List (K × Columns Col)} r, k ∉ fetched.map fst →
      (fetched.foldl putRow r).get k c = r.get k c := by
    intro fetched
    induction fetched with
    | nil => intros; rfl
    | cons e fetched ih =>
      intro r absent
      obtain ⟨ne, absent⟩ := not_or.1 (mem_cons.not.1 absent)
      rw [foldl_cons, ih _ absent, get_putRow_of_ne r e ne]
  induction fetched generalizing r with
  | nil => cases mem
  | cons e fetched ih =>
    obtain ⟨first, sorted⟩ := forall_mem_cons.1 sorted
    obtain ⟨absent, nodup⟩ := nodup_cons.1 nodup
    rcases mem_cons.1 mem with rfl | mem
    · rw [foldl_cons, others _ absent, get_putRow_self first]
    · exact ih sorted nodup _ mem

variable {r r' : Result K Col}

/-- A comparison that finds no difference: the columns were there with these values, and are consumed now. -/
theorem compareColumns_spec (nodup : (cols.map fst).Nodup) (h : compareColumns k cols r = .ok (r', true)) :
    (∀ p ∈ cols, ∃ it, r.get k p.1 = some it ∧ it.bytesLeft = p.2) ∧
      ∀ k' c, r'.get k' c = if k' = k ∧ c ∈ cols.map fst then (r.get k' c).map consumed
        else r.get k' c := by
  induction cols generalizing r with
  | nil =>
    cases h
    exact ⟨nofun, fun k' c => by simp⟩
  | cons p cols ih =>
    obtain ⟨c₀, v⟩ := p
    obtain ⟨absent, nodup⟩ : c₀ ∉ cols.map fst ∧ (cols.map fst).Nodup := nodup_cons.1 nodup
    unfold compareColumns at h
    cases hr : r k with
    | none => simp [hr] at h
    | some row =>
      cases hc : row c₀ with
      | none => simp [hr, hc] at h
      | some it =>
        simp only [hr, hc] at h
        by_cases same : v = it.toArray.1
        · rw [if_pos same] at h
          obtain ⟨there, after⟩ := ih nodup h
          -- the result with the first column consumed
          have step : ∀ k' c, Result.get (update r k (some (update row c₀ (some it.toArray.2)))) k' c =
                if k' = k ∧ c = c₀ then (r.get k' c).map consumed else r.get k' c := by
            intro k' c
            unfold get
            by_cases hk : k' = k
            · subst hk
              by_cases e : c = c₀
              · subst e
                simp [hr, hc, ByteIterator.toArray]
              · simp [hr, e]
            · simp [hk]
          refine ⟨forall_mem_cons.2 ⟨⟨it, by simp [get, hr, hc], same.symm⟩, fun p hp => ?_⟩, fun k' c => ?_⟩
          · obtain ⟨it', found, bytes⟩ := there p hp
            have ne : p.1 ≠ c₀ := fun e => absent (e ▸ mem_map_of_mem hp)
            rw [step, if_neg fun e => ne e.2] at found
            exact ⟨it', found, bytes⟩
          · rw [after, step]
            by_cases hk : k' = k
            · by_cases e : c = c₀
              · subst e
                simp [absent]
              · simp only [e, and_false, if_false, map_cons, mem_cons, false_or]
            · simp [hk]
        · rw [if_neg same] at h
          cases h

variable {entries : List (K × Columns Col)}

theorem validate_cons (h : validate ((k, cols) :: entries) r = .ok (r', true)) :
    ∃ r₁, compareColumns k cols r = .ok (r₁, true) ∧ validate entries r₁ = .ok (r', true) := by
  unfold validate at h
  cases hc : compareColumns k cols r with
  | error r₁ => simp [hc] at h
  | ok p =>
    obtain ⟨r₁, same⟩ := p
    simp only [hc, ok_bind] at h
    cases hv : validate entries r₁ with
    | error r₂ => simp [hv] at h
    | ok q =>
      obtain ⟨r₂, rest⟩ := q
      simp only [hv, ok_bind, pure_eq_ok, Except.ok.injEq, Prod.mk.injEq, Bool.and_eq_true] at h
      obtain ⟨rfl, rfl, rfl⟩ := h
      exact ⟨r₁, rfl, hv⟩

theorem get_validate_of_ne (columns : ∀ e ∈ entries, (e.2.map fst).Nodup)
    (h : validate entries r = .ok (r', true)) (absent : k ∉ entries.map fst) (c : Col) :
    r'.get k c = r.get k c := by
  induction entries generalizing r with
  | nil =>
    cases h
    rfl
  | cons e entries ih =>
    obtain ⟨first, columns⟩ := forall_mem_cons.1 columns
    obtain ⟨ne, absent⟩ := not_or.1 (mem_cons.not.1 absent)
    obtain ⟨r₁, compared, rest⟩ := validate_cons h
    rw [ih columns rest absent, (compareColumns_spec first compared).2, if_neg fun e => ne e.1]

/-- A validation that succeeds has compared all columns of all keys. -/
theorem validate_spec (nodup : (entries.map fst).Nodup)
    (columns : ∀ e ∈ entries, (e.2.map fst).Nodup) (h : validate entries r = .ok (r', true))
    (mem : (k, cols) ∈ entries) :
    (∀ p ∈ cols, ∃ it, r.get k p.1 = some it ∧ it.bytesLeft = p.2) ∧
      ∀ c, r'.get k c = if c ∈ cols.map fst then (r.get k c).map consumed else r.get k c := by
  induction entries generalizing r with
  | nil => cases mem
  | cons e entries ih =>
    obtain ⟨k₀, cols₀⟩ := e
    obtain ⟨absent, nodup⟩ : k₀ ∉ entries.map fst ∧ (entries.map fst).Nodup := nodup_cons.1 nodup
    obtain ⟨first, more⟩ := forall_mem_cons.1 columns
    obtain ⟨r₁, compared, rest⟩ := validate_cons h
    obtain ⟨there, after⟩ := compareColumns_spec first compared
    rcases mem_cons.1 mem with e | mem
    · cases e
      refine ⟨there, fun c => ?_⟩
      rw [get_validate_of_ne more rest absent, after]
      simp only [true_and]
    · have ne : k ≠ k₀ := fun e => absent (e ▸ mem_map_of_mem mem)
      have same : ∀ c, r₁.get k c = r.get k c := fun c => by rw [after, if_neg fun e => ne e.1]
      simpa only [same] using ih nodup more rest mem

end Result

end Result

end ScyllaMoon.Occ
