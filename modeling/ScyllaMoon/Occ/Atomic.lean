import ScyllaMoon.Occ.Validation

/-!
# Are optimistic reads atomic?

A successful `read` is compared with the store at a moment between its two rounds. `Seen` relates what the
first round read to that moment and `Later` what the second round reads after it; together they pin down
which columns the read returns.
-/

namespace ScyllaMoon.Occ

open Lib List Function

variable {K Col : Type} [DecidableEq K] [LinearOrder Col]

open Prod (fst)

/-- What one event does to the store and to the reader. -/
inductive State.Transition (keys : List K) (fields : Fields Col) (s : State K Col) : Event K Col → State K Col → Prop where
  | write (k : K) (values : Columns Col) : Transition keys fields s (.write k values)
      { s with store := update s.store k (values.foldl Row.put (s.store k)) }
  | startFirst (turns : Nat) : s.phase = .ready (turns + 1) →
      Transition keys fields s .startFirst { s with phase := .first turns [] }
  | fetchFirst (k : K) (turns : Nat) (fetched : List (K × Columns Col)) : s.phase = .first turns fetched →
      k ∉ fetched.map fst → Transition keys fields s (.fetch k)
        { s with phase := .first turns (fetched ++ [(k, fields.select (s.store k).columns)]) }
  | fetchSecond (k : K) (turns : Nat) (fetched : List (K × Columns Col)) : s.phase = .second turns fetched →
      k ∉ fetched.map fst → Transition keys fields s (.fetch k)
        { s with phase := .second turns (fetched ++ [(k, fields.select (s.store k).columns)]) }
  | endFirst (turns : Nat) (fetched : List (K × Columns Col)) : s.phase = .first turns fetched →
      (∀ k ∈ keys, k ∈ fetched.map fst) → Transition keys fields s .endFirst
        { s with phase := .between turns, result := fetched.foldl Result.putRow s.result }
  | startSecond (turns : Nat) : s.phase = .between turns →
      Transition keys fields s .startSecond { s with phase := .second turns [] }
  | valid (turns : Nat) (fetched : List (K × Columns Col)) (r : Result K Col) : s.phase = .second turns fetched →
      (∀ k ∈ keys, k ∈ fetched.map fst) → Result.validate fetched s.result = .ok (r, true) →
      Transition keys fields s .endSecond { s with phase := .ok, result := r }
  | retry (e : Event K Col) (turns : Nat) (r : Result K Col) :
      Transition keys fields s e { s with phase := .ready turns, result := r }
  | giveUp : Transition keys fields s .giveUp { s with phase := .error }

variable {fields : Fields Col} {s s' : State K Col} {e : Event K Col} {keys : List K}

theorem State.transition {o : Unit} (h : s.step keys fields e = .ok (s', o)) :
    s.Transition keys fields e s' := by
  cases e with
  | write k values =>
    cases h
    exact .write k values
  | startFirst =>
    simp only [step] at h
    split at h <;> cases h
    exact .startFirst _ ‹_›
  | fetch k =>
    simp only [step] at h
    repeat' split at h
    all_goals cases h
    · exact .fetchFirst _ _ _ ‹_› ‹_ ∧ _›.2
    · exact .fetchSecond _ _ _ ‹_› ‹_ ∧ _›.2
  | endFirst =>
    simp only [step] at h
    repeat' split at h
    all_goals cases h
    exact .endFirst _ _ ‹_› ‹_›
  | startSecond =>
    simp only [step] at h
    split at h <;> cases h
    exact .startSecond _ ‹_›
  | endSecond =>
    simp only [step] at h
    repeat' split at h
    all_goals cases h
    · exact .valid _ _ _ ‹_› ‹_› ‹_›
    · exact .retry ..
    · exact .retry ..
  | exception =>
    simp only [step] at h
    split at h <;> cases h
    all_goals exact .retry ..
  | giveUp =>
    simp only [step] at h
    split at h <;> cases h
    exact .giveUp

/-- The column `c` of `k` had the value `v` at the start, or a write gave it that value. -/
def Held (s₀ : State K Col) (tr : List (Event K Col × Unit)) (k : K) (c : Col) (v : Bytes) : Prop :=
  valueOf (s₀.store k).columns c = some v ∨ ∃ e ∈ tr, ∃ values, e.1 = .write k values ∧ (c, v) ∈ values

/-- No column of a key receives the same value twice. -/
def Event.Fresh (s₀ : State K Col) (tr : List (Event K Col × Unit)) : Event K Col → Prop
  | .write k values => ∀ p ∈ values, ¬ Held s₀ tr k p.1 p.2
  | _ => True

variable {k : K} {c : Col}

omit [DecidableEq K] in
theorem Held.append {s₀ : State K Col} {tr tr' : List (Event K Col × Unit)} {v : Bytes} (h : Held s₀ tr k c v) :
    Held s₀ (tr ++ tr') k c v := by
  rcases h with start | ⟨e, he, written⟩
  · exact .inl start
  · exact .inr ⟨e, mem_append_left _ he, written⟩

/-- What is in the store after an event was there before or is from the event's write. -/
theorem State.Transition.value_from (h : s.Transition keys fields e s') {v : Bytes}
    (now : valueOf (s'.store k).columns c = some v) :
    valueOf (s.store k).columns c = some v ∨ ∃ values, e = .write k values ∧ (c, v) ∈ values := by
  cases h with
  | write k₀ values =>
    dsimp only at now
    by_cases hk : k = k₀
    · subst hk
      rw [update_self] at now
      rcases mem_or_of_valueOf_foldl_put now with mem | before
      · exact .inr ⟨values, rfl, mem⟩
      · exact .inl before
    · rw [update_of_ne hk] at now
      exact .inl now
  | _ => exact .inl now

/-- No event removes a column. -/
theorem State.Transition.columns_grow (h : s.Transition keys fields e s')
    (before : (valueOf (s.store k).columns c).isSome) :
    (valueOf (s'.store k).columns c).isSome := by
  cases h with
  | write k₀ values =>
    dsimp only
    by_cases hk : k = k₀
    · subst hk
      rw [update_self]
      exact isSome_valueOf_foldl_put before
    · rwa [update_of_ne hk]
  | _ => exact before

section First

variable {keys : List K} {fields : Fields Col} {s₀ : State K Col}

/-- The reader has seen this row of `k`. -/
structure Seen (s₀ : State K Col) (tr : List (Event K Col × Unit)) (s : State K Col) (k : K) (row : Row Col) : Prop where
  columns : ∀ c, (valueOf row.columns c).isSome → (valueOf (s.store k).columns c).isSome
  values : ∀ c v, valueOf row.columns c = some v → Held s₀ tr k c v

variable {tr : List (Event K Col × Unit)} {s s' : State K Col} {e : Event K Col}

theorem Seen.step {k : K} {row : Row Col} (h : Seen s₀ tr s k row) (next : s.Transition keys fields e s') :
    Seen s₀ (tr ++ [(e, ())]) s' k row where
  columns c hc := next.columns_grow (h.columns c hc)
  values c v hv := (h.values c v hv).append

/-- The part of the invariant that is about the first round. -/
def FirstRound (keys : List K) (fields : Fields Col) (s₀ : State K Col) (tr : List (Event K Col × Unit))
    (s : State K Col) : Prop :=
  match s.phase with
  | .first _ fetched => (fetched.map fst).Nodup ∧
      ∀ e ∈ fetched, ∃ row : Row Col, e.2 = fields.select row.columns ∧ Seen s₀ tr s e.1 row
  | .between _ => ∀ k ∈ keys, ∃ row : Row Col, Seen s₀ tr s k row ∧
      ∀ c, s.result.get k c = (valueOf (fields.select row.columns) c).map ByteIterator.ofBytes
  | _ => True

/-- The values in the store are those held last, and the first round has seen rows of the store. -/
structure Inv (keys : List K) (fields : Fields Col) (s₀ : State K Col) (tr : List (Event K Col × Unit))
    (s : State K Col) : Prop where
  held : ∀ k c v, valueOf (s.store k).columns c = some v → Held s₀ tr k c v
  round : FirstRound keys fields s₀ tr s

omit [DecidableEq K] in
theorem Inv.seen (h : Inv keys fields s₀ tr s) (k : K) : Seen s₀ tr s k (s.store k) where
  columns _ hc := hc
  values := h.held k

omit [DecidableEq K] [LinearOrder Col] in
theorem nodup_append_fetched {fetched : List (K × Columns Col)} (h : (fetched.map fst).Nodup) {k : K}
    (new : k ∉ fetched.map fst) (cols : Columns Col) : ((fetched ++ [(k, cols)]).map fst).Nodup := by
  rw [map_append, map_singleton]
  refine nodup_append.2 ⟨h, nodup_singleton _, fun a ha b hb => ?_⟩
  rw [mem_singleton.1 hb]
  rintro rfl
  exact new ha

theorem Inv.step (h : Inv keys fields s₀ tr s) (next : s.Transition keys fields e s') :
    Inv keys fields s₀ (tr ++ [(e, ())]) s' where
  held k c v now := by
    rcases next.value_from now with before | ⟨values, rfl, mem⟩
    · exact (h.held k c v before).append
    · exact .inr ⟨_, mem_append_right _ mem_cons_self, values, rfl, mem⟩
  round := by
    have round := h.round
    have seen : ∀ {k row}, Seen s₀ tr s k row → Seen s₀ (tr ++ [(e, ())]) s' k row := fun hs => hs.step next
    unfold FirstRound at round ⊢
    cases next with
    | write k values =>
      dsimp only
      split <;> rename_i phase
      · simp only [phase] at round
        refine round.imp_right fun all e he => ?_
        obtain ⟨row, cols, hrow⟩ := all e he
        exact ⟨row, cols, seen hrow⟩
      · simp only [phase] at round
        intro k hk
        obtain ⟨row, hrow, get⟩ := round k hk
        exact ⟨row, seen hrow, get⟩
      · trivial
    | startFirst turns phase => exact ⟨nodup_nil, forall_mem_nil _⟩
    | fetchFirst k turns fetched phase new =>
      simp only [phase] at round
      refine ⟨nodup_append_fetched round.1 new _, fun e he => ?_⟩
      rcases mem_append.1 he with he | he
      · obtain ⟨row, cols, hrow⟩ := round.2 e he
        exact ⟨row, cols, seen hrow⟩
      · rw [mem_singleton.1 he]
        exact ⟨s.store k, rfl, seen (h.seen k)⟩
    | endFirst turns fetched phase all =>
      simp only [phase] at round
      intro k hk
      obtain ⟨⟨_, cols⟩, he, rfl⟩ := mem_map.1 (all k hk)
      obtain ⟨row, rfl, hrow⟩ := round.2 _ he
      refine ⟨row, seen hrow, Result.get_foldl_putRow (fun e he => ?_) round.1 s.result he⟩
      obtain ⟨row, cols, -⟩ := round.2 e he
      rw [cols]
      exact fields.sorted_select row
    | fetchSecond => trivial
    | startSecond => trivial
    | valid => trivial
    | retry => trivial
    | giveUp => trivial

end First

section Second

variable {keys : List K} {fields : Fields Col} {s₀ s₁ : State K Col} {tr₁ : List (Event K Col × Unit)}

/-- A row of `k` at a time after `s₁`: it has the columns of `s₁`, and no value that was overwritten by then. -/
structure Later (s₀ : State K Col) (tr₁ : List (Event K Col × Unit)) (s₁ : State K Col) (k : K) (row : Row Col) : Prop where
  columns : ∀ c, (valueOf (s₁.store k).columns c).isSome → (valueOf row.columns c).isSome
  values : ∀ c v, valueOf row.columns c = some v → Held s₀ tr₁ k c v → valueOf (s₁.store k).columns c = some v

/-- A reader that was between its rounds in `s₁` and has not started again. -/
def SecondRound (keys : List K) (fields : Fields Col) (s₀ : State K Col) (tr₁ : List (Event K Col × Unit))
    (s₁ s : State K Col) : Prop :=
  match s.phase with
  | .first _ _ => False
  | .between _ => s.result = s₁.result
  | .second _ fetched => s.result = s₁.result ∧ (fetched.map fst).Nodup ∧
      ∀ e ∈ fetched, ∃ row : Row Col, e.2 = fields.select row.columns ∧ Later s₀ tr₁ s₁ e.1 row
  | .ok => ∃ fetched : List (K × Columns Col), Result.validate fetched s₁.result = .ok (s.result, true) ∧
      (∀ k ∈ keys, k ∈ fetched.map fst) ∧ (fetched.map fst).Nodup ∧
      ∀ e ∈ fetched, ∃ row : Row Col, e.2 = fields.select row.columns ∧ Later s₀ tr₁ s₁ e.1 row
  | _ => True

variable {s s' : State K Col} {e : Event K Col}

theorem SecondRound.step (h : SecondRound keys fields s₀ tr₁ s₁ s) (later : ∀ k, Later s₀ tr₁ s₁ k (s.store k))
    (next : s.Transition keys fields e s') (same : e ≠ .startFirst) :
    SecondRound keys fields s₀ tr₁ s₁ s' := by
  unfold SecondRound at h ⊢
  cases next with
  | write => exact h
  | startFirst => exact absurd rfl same
  | fetchFirst k turns fetched phase new | endFirst turns fetched phase all => simp only [phase] at h
  | fetchSecond k turns fetched phase new =>
    simp only [phase] at h
    obtain ⟨result, nodup, rows⟩ := h
    refine ⟨result, nodup_append_fetched nodup new _, fun e he => ?_⟩
    rcases mem_append.1 he with he | he
    · exact rows e he
    · rw [mem_singleton.1 he]
      exact ⟨s.store k, rfl, later k⟩
  | startSecond turns phase =>
    simp only [phase] at h
    exact ⟨h, nodup_nil, nofun⟩
  | valid turns fetched r phase all valid =>
    simp only [phase] at h
    exact ⟨fetched, h.1 ▸ valid, all, h.2⟩
  | retry => trivial
  | giveUp => trivial

variable {tr₂ : List (Event K Col × Unit)}

/-- Writes of new values keep what `Later` says. -/
theorem Later.step (h : ∀ k, Later s₀ tr₁ s₁ k (s.store k)) (next : s.Transition keys fields e s')
    (fresh : e.Fresh s₀ (tr₁ ++ tr₂)) (k : K) : Later s₀ tr₁ s₁ k (s'.store k) where
  columns c hc := next.columns_grow ((h k).columns c hc)
  values c v now held := by
    rcases next.value_from now with before | ⟨values, rfl, mem⟩
    · exact (h k).values c v before held
    · exact absurd held.append (fresh _ mem)

/-- From a moment between the rounds up to the end of the read. -/
theorem second_round {turns : Nat} (between : s₁.phase = .between turns) (same : (Event.startFirst, ()) ∉ tr₂)
    (run : Run (State.step keys fields) (fun tr _ e => e.Fresh s₀ (tr₁ ++ tr)) s₁ tr₂ s) :
    (∀ k, Later s₀ tr₁ s₁ k (s.store k)) ∧ SecondRound keys fields s₀ tr₁ s₁ s := by
  induction run with
  | init =>
    refine ⟨fun k => ⟨fun _ hc => hc, fun _ _ now _ => now⟩, ?_⟩
    unfold SecondRound
    rw [between]
  | snoc _ fresh next ih =>
    obtain ⟨before, first⟩ := not_or.1 (mem_append.not.1 same)
    obtain ⟨later, round⟩ := ih before
    have next := State.transition next
    exact ⟨Later.step later next fresh, round.step later next fun e => first (by simp [e])⟩

omit [DecidableEq K] in
/-- What both rounds agree on is what is asked for in `s₁`. -/
theorem agreed_columns {k : K} {a b : Row Col} (seen : Seen s₀ tr₁ s₁ k a) (later : Later s₀ tr₁ s₁ k b)
    (sub : fields.select b.columns ⊆ fields.select a.columns) :
    fields.select a.columns = fields.select b.columns ∧
      fields.select b.columns ⊆ fields.requested (s₁.store k).columns := by
  constructor
  · refine (Sorted.eq_of_subset (fields.sorted_select b) (fields.sorted_select a) sub ?_).symm
    exact fields.length_select_le fun c hc => later.columns c (seen.columns c hc)
  · intro p hp
    have first : valueOf a.columns p.1 = some p.2 :=
      (valueOf_eq_some a.sorted).2 ((fields.sublist_select _).subset (sub hp))
    have second : valueOf b.columns p.1 = some p.2 :=
      (valueOf_eq_some b.sorted).2 ((fields.sublist_select _).subset hp)
    have now := later.values _ _ second (seen.values _ _ first)
    exact fields.mem_requested_of_select hp ((valueOf_eq_some (s₁.store k).sorted).1 now)

end Second

section Atomic

variable {keys : List K} {fields : Fields Col} {s₀ s : State K Col} {tr : List (Event K Col × Unit)}

/-- A moment of the run at which the reader is between the two rounds of its last turn. -/
structure Between (keys : List K) (fields : Fields Col) (s₀ : State K Col) (tr : List (Event K Col × Unit))
    (s s₁ : State K Col) : Prop where
  reached : ∃ tr₁ tr₂, tr = tr₁ ++ tr₂ ∧ (Event.startFirst, ()) ∉ tr₂ ∧
    Run (State.step keys fields) (fun tr _ e => e.Fresh s₀ tr) s₀ tr₁ s₁ ∧
    Run (State.step keys fields) (fun tr _ e => e.Fresh s₀ (tr₁ ++ tr)) s₁ tr₂ s
  phase : ∃ turns, s₁.phase = .between turns

variable (start : ∃ turns, s₀.phase = .ready turns)
include start

theorem Inv.run
    (run : Run (State.step keys fields) (fun tr _ e => e.Fresh s₀ tr) s₀ tr s) : Inv keys fields s₀ tr s := by
  refine Run.invariant (Inv keys fields s₀) ⟨fun _ _ _ => .inl, ?_⟩ ?_ run
  · obtain ⟨turns, phase⟩ := start
    unfold FirstRound
    rw [phase]
    trivial
  · exact fun _ _ _ _ _ inv _ next => inv.step (State.transition next)

/-- What a successful read returns for a key: columns that are asked for, with nothing left to read in them. -/
theorem returned {s₁ : State K Col} (ok : s.phase = .ok)
    (between : Between keys fields s₀ tr s s₁) {k : K} (hk : k ∈ keys) :
    ∃ b : Row Col, fields.select b.columns ⊆ fields.requested (s₁.store k).columns ∧
      (∀ c, (valueOf (s₁.store k).columns c).isSome → (valueOf b.columns c).isSome) ∧
      ∀ c, s.result.bytes k c = (valueOf (fields.select b.columns) c).map fun _ => [] := by
  obtain ⟨⟨tr₁, tr₂, -, same, before, after⟩, turns, phase⟩ := between
  have first := (Inv.run start before).round
  have second := (second_round phase same after).2
  simp only [FirstRound, phase] at first
  simp only [SecondRound, ok] at second
  obtain ⟨fetched, valid, all, nodup, rows⟩ := second
  obtain ⟨⟨_, cols⟩, mem, rfl⟩ := mem_map.1 (all k hk)
  obtain ⟨b, rfl, later⟩ := rows _ mem
  obtain ⟨a, seen, get⟩ := first _ hk
  have columns : ∀ e ∈ fetched, (e.2.map fst).Nodup := by
    intro e he
    obtain ⟨row, cols, -⟩ := rows e he
    rw [cols]
    exact (fields.sorted_select row).nodup
  obtain ⟨there, returned⟩ := Result.validate_spec nodup columns valid mem
  -- what was compared in the second round is from the first
  have sub : fields.select b.columns ⊆ fields.select a.columns := by
    intro p hp
    obtain ⟨it, found, bytes⟩ := there p hp
    rw [get, Option.map_eq_some_iff] at found
    obtain ⟨v, hv, rfl⟩ := found
    rw [ByteIterator.bytesLeft_ofBytes] at bytes
    subst bytes
    exact (valueOf_eq_some (fields.sorted_select a)).1 hv
  obtain ⟨agreed, requested⟩ := agreed_columns seen later sub
  refine ⟨b, requested, later.columns, fun c => ?_⟩
  unfold Result.bytes
  rw [returned, get, agreed]
  split
  · cases valueOf (fields.select b.columns) c <;> simp
  next absent =>
    rw [← valueOf_isSome, Option.not_isSome_iff_eq_none] at absent
    simp [absent]

/-- A successful read is atomic just when there was nothing in the columns that were asked for. -/
theorem optimistic_read_atomic_iff (ok : s.phase = .ok) :
    (∃ s₁, Between keys fields s₀ tr s s₁ ∧
      ∀ k ∈ keys, ∀ c, s.result.bytes k c = valueOf (fields.requested (s₁.store k).columns) c) ↔
    ∃ s₁, Between keys fields s₀ tr s s₁ ∧ ∀ k ∈ keys, (∀ p ∈ fields.requested (s₁.store k).columns, p.2 = []) ∧
        (fields = .all → (s₁.store k).columns.length ≤ sliceCount) := by
  refine exists_congr fun s₁ => and_congr_right fun between => forall₂_congr fun k hk => ?_
  obtain ⟨b, sub, later, bytes⟩ := returned start ok between hk
  simp only [bytes]
  have sorted := fields.sorted_requested (s₁.store k)
  constructor
  · intro same
    refine ⟨fun p hp => ?_, ?_⟩
    · have h := same p.1
      rw [(valueOf_eq_some sorted).2 hp, Option.map_eq_some_iff] at h
      obtain ⟨_, _, empty⟩ := h
      exact empty.symm
    · rintro rfl
      refine (length_le_of_columns (y := b.columns.take sliceCount) (s₁.store k).sorted fun c hc => ?_).trans
        (length_take_le ..)
      rw [← Option.isSome_map, show (valueOf (b.columns.take sliceCount) c).map _ = _ from same c]
      exact hc
  · rintro ⟨empty, length⟩ c
    have all : fields.select b.columns = fields.requested (s₁.store k).columns := by
      refine Sorted.eq_of_subset (fields.sorted_select b) sorted sub ?_
      refine le_trans ?_ (fields.length_select_le later)
      cases fields with
      | all => simpa [Fields.select, Fields.requested] using length rfl
      | only names => rfl
    rw [all]
    cases hv : valueOf (fields.requested (s₁.store k).columns) c with
    | none => rfl
    | some v => rw [Option.map_some, show v = [] from empty (c, v) ((valueOf_eq_some sorted).1 hv)]

end Atomic

section Concrete

/-- A store with one column in each row, before a read with one turn. -/
def oneColumn (v : Bytes) : State Nat Nat where
  store _ := ⟨[(0, v)], pairwise_singleton ..⟩
  phase := .ready 1

/-- The events of a read of the key 0 that nobody disturbs, up to the end of its first round. -/
def firstEvents : List (Event Nat Nat × Unit) :=
  [(.startFirst, ()), (.fetch 0, ()), (.endFirst, ())]

/-- The other events of that read. -/
def secondEvents : List (Event Nat Nat × Unit) :=
  [(.startSecond, ()), (.fetch 0, ()), (.endSecond, ())]

theorem optimistic_read_atomic_empty :
    ∃ s, s.phase = .ok ∧ ∃ s₁, Between [0] .all (oneColumn []) (firstEvents ++ secondEvents) s s₁ ∧
      ∀ k ∈ [0], ∀ c, s.result.bytes k c = valueOf (Fields.all.requested (s₁.store k).columns) c := by
  have before : Run (State.step [0] .all) (fun tr _ e => e.Fresh (oneColumn []) tr) (oneColumn []) _ _ :=
    .snoc (.snoc (.snoc .init (i := Event.startFirst) trivial rfl) (i := Event.fetch 0) trivial rfl) (i := Event.endFirst) trivial rfl
  have between : Between [0] .all (oneColumn []) (firstEvents ++ secondEvents) _ _ :=
    ⟨⟨firstEvents, secondEvents, rfl, by simp [secondEvents], before, .snoc (.snoc (.snoc .init
      trivial rfl) trivial rfl) trivial rfl⟩, 0, rfl⟩
  refine ⟨_, rfl, (optimistic_read_atomic_iff ⟨1, rfl⟩ rfl).2 ⟨_, between, ?_⟩⟩
  intro k hk
  exact ⟨by simp [Fields.requested, oneColumn], fun _ => by simp [oneColumn, sliceCount]⟩

/-- The value 7 is in the store all the time, and the map that the read returns has nothing to read in it. -/
theorem optimistic_read_drained :
    ∃ s, Run (State.step [0] .all) (fun tr _ e => e.Fresh (oneColumn [7]) tr) (oneColumn [7])
        (firstEvents ++ secondEvents) s ∧ s.phase = .ok ∧
      ¬ ∃ s₁, Between [0] .all (oneColumn [7]) (firstEvents ++ secondEvents) s s₁ ∧
        ∀ k ∈ [0], ∀ c, s.result.bytes k c = valueOf (Fields.all.requested (s₁.store k).columns) c := by
  have before : Run (State.step [0] .all) (fun tr _ e => e.Fresh (oneColumn [7]) tr) (oneColumn [7]) _ _ :=
    .snoc (.snoc (.snoc .init (i := Event.startFirst) trivial rfl) (i := Event.fetch 0) trivial rfl) (i := Event.endFirst) trivial rfl
  have run : Run (State.step [0] .all) (fun tr _ e => e.Fresh (oneColumn [7]) tr) (oneColumn [7]) _ _ :=
    .snoc (.snoc (.snoc before (i := Event.startSecond) trivial rfl) (i := Event.fetch 0) trivial rfl) (i := Event.endSecond) trivial rfl
  refine ⟨_, run, rfl, ?_⟩
  rintro ⟨s₁, ⟨⟨tr₁, tr₂, parts, -, before, -⟩, -⟩, same⟩
  have drained : valueOf (s₁.store 0).columns 0 = some [] := (same 0 mem_cons_self 0).symm
  rcases (Inv.run ⟨1, rfl⟩ before).held 0 0 [] drained with start | ⟨e, he, values, write, -⟩
  · cases start
  · have mem : e ∈ firstEvents ++ secondEvents := parts ▸ mem_append_left _ he
    simp only [firstEvents, secondEvents, cons_append, nil_append, mem_cons, not_mem_nil] at mem
    rcases mem with rfl | rfl | rfl | rfl | rfl | rfl | ⟨⟨⟩⟩ <;> cases write

end Concrete

end ScyllaMoon.Occ
