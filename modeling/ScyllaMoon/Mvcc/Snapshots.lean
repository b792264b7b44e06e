import ScyllaMoon.Mvcc.Gc.Victim

/-!
# Live snapshots

A snapshot shows the version it pins and everything older. A new version in front of it changes
nothing. What can change it is a request that writes into the newest version in place, a collection
that unlinks a version it covers, and an upgrade, which frees the chain. The code guards the first
and the last by the entry's `_snapshot`, which `read` no longer sets; so they are safe only where no
version involved is pinned.
-/

namespace ScyllaMoon.Mvcc

open Lib List Function

variable {S V P : Type}

namespace Heap

def Unpinned (w : Heap S P) (a : Addr) : Prop :=
  ∀ u, w.versions a = some u → u.snapshot = none

/-- The request changes no version that a snapshot covers: in place it writes only to an unpinned newest
version, it collects only behind unpinned versions, and it upgrades only an unpinned chain. -/
def KeepsSnapshots (w : Heap S P) : Op S V P → Prop
  | .apply .. | .applyToIncomplete .. => ∀ a, w.entry.version.version = some a → w.Unpinned a
  | .applyView _ _ _ v =>
    (v ≠ 0 ∧ v ≤ w.entry.highestVersionWritten) ∨
      (w.entry.numVersions ≥ 100 → ∀ xs a ys, w.gcVictim = some a → w.chain = xs ++ a :: ys →
        ∀ b ∈ xs ++ [a], w.Unpinned b)
  | .upgrade .. => ∀ a ∈ w.chain, w.Unpinned a
  | _ => True

end Heap

namespace Chain

/-- The partitions that the snapshot `s` covers in a list of versions. -/
def coveredIn (s : SnapshotId) (es : List (Elem P)) : List P :=
  (es.dropWhile fun e => decide (e.snapshot ≠ some s)).map Elem.partition

/-- Versions that agree on their partitions and on whether `s` pins them. -/
def SameUnder (s : SnapshotId) (e e' : Elem P) : Prop :=
  e'.partition = e.partition ∧ (e'.snapshot = some s ↔ e.snapshot = some s)

variable {s : SnapshotId} {es es' : List (Elem P)}

theorem partitions_congr (h : List.Forall₂ (SameUnder s) es es') :
    es'.map Elem.partition = es.map Elem.partition := by
  induction h with
  | nil => rfl
  | cons he _ ih => rw [map_cons, map_cons, he.1, ih]

theorem coveredIn_congr (h : List.Forall₂ (SameUnder s) es es') : coveredIn s es' = coveredIn s es := by
  unfold coveredIn
  induction h with
  | nil => rfl
  | @cons e e' es es' he hes ih =>
    by_cases hs : e.snapshot = some s
    · simp [hs, he.2.2 hs, he.1, partitions_congr hes]
    · have hs' : e'.snapshot ≠ some s := fun h => hs (he.2.1 h)
      simpa [dropWhile_cons, hs, hs'] using ih

/-- Versions that `s` does not pin, in front of the others, are not covered. -/
theorem coveredIn_append {xs ys : List (Elem P)} (unpinned : ∀ x ∈ xs, x.snapshot ≠ some s) :
    coveredIn s (xs ++ ys) = coveredIn s ys := by
  rw [coveredIn, dropWhile_append_of_pos, coveredIn]
  intro x hx
  simpa using unpinned x hx

variable {e : Elem P}

theorem coveredIn_cons (unpinned : e.snapshot = none) : coveredIn s (e :: es) = coveredIn s es := by
  simp [coveredIn, unpinned]

/-- Writing into an unpinned newest version shows nowhere. -/
theorem coveredIn_inPlace (unpinned : e.snapshot = none) (p : P) :
    coveredIn s ({ e with partition := p } :: es) = coveredIn s (e :: es) := by
  rw [coveredIn_cons unpinned, coveredIn_cons (by exact unpinned)]

theorem sameUnder_set {e' : Elem P} (he : SameUnder s e e') : ∀ {es : List (Elem P)} {i : Nat},
    es[i]? = some e → List.Forall₂ (SameUnder s) es (es.set i e') := by
  intro es
  induction es with
  | nil => exact fun h => nomatch h
  | cons x es ih =>
    intro i h
    cases i with
    | zero =>
      cases h
      exact .cons he (forall₂_same.2 fun _ _ => ⟨rfl, Iff.rfl⟩)
    | succ i => exact .cons ⟨rfl, Iff.rfl⟩ (ih h)

variable {s₀ : SnapshotId}

theorem sameUnder_unpin (ne : s ≠ s₀) (es : List (Elem P)) : List.Forall₂ (SameUnder s) es (es.map (unpin s₀)) := by
  rw [forall₂_map_right_iff, forall₂_same]
  intro e _
  unfold unpin
  split
  next h =>
    exact ⟨rfl, by simp [h, ne.symm]⟩
  · exact ⟨rfl, Iff.rfl⟩

theorem coveredIn_ne_nil (he : e ∈ es) (hs : e.snapshot = some s) : coveredIn s es ≠ [] := by
  intro h
  rw [coveredIn, map_eq_nil_iff, dropWhile_eq_nil_iff] at h
  simpa [hs] using h e he

variable {c c' : Chain S P}

/-- The condition on a request, as the list sees it. -/
structure KeepsSnapshots (c : Chain S P) (op : Op S V P) (c' : Chain S P) : Prop where
  apply : ∀ {s mp mpSchema}, op = .apply s mp mpSchema → ∀ e es, c.elems = e :: es → e.snapshot = none
  incomplete : ∀ {s src srcSchema}, op = .applyToIncomplete s src srcSchema →
    ∀ e es, c.elems = e :: es → e.snapshot = none
  collect : ∀ {s mpv mpSchema v mp i}, op = .applyView s mpv mpSchema v → ¬c.rejects v → c.numVersions ≥ 100 →
    Collects (c.store (c.promoted v) mp) i c' → ∀ e ∈ c.elems.take (i + 1), e.snapshot = none
  upgrade : ∀ {fromSchema toSchema}, op = .upgrade fromSchema toSchema → ∀ e ∈ c.elems, e.snapshot = none

/-- Every live snapshot pins a version of the chain. -/
def SnapshotsListed (c : Chain S P) : Prop :=
  ∀ s snp, c.snapshots s = some snp → coveredIn s c.elems ≠ []

/-- The snapshot `s` of `c'` was taken by the request that led there from `c`, or shows what it showed in `c`. -/
def Unchanged (c c' : Chain S P) (s : SnapshotId) (snp' : Snap S) : Prop :=
  (s = c.nextSnapshot ∧ coveredIn s c'.elems ≠ []) ∨
    ∃ snp, c.snapshots s = some snp ∧ snp.schema = snp'.schema ∧ coveredIn s c'.elems = coveredIn s c.elems

variable {snp' : Snap S}

theorem unchanged_of_snapshots (snaps : c'.snapshots = c.snapshots) (elems : coveredIn s c'.elems = coveredIn s c.elems)
    (hs : c'.snapshots s = some snp') : Unchanged c c' s snp' :=
  .inr ⟨snp', snaps ▸ hs, rfl, elems⟩

/-- A snapshot whose handles were counted shows what it showed. -/
theorem unchanged_of_recount {snp : Snap S} {n : Nat} (live : c.snapshots s₀ = some snp)
    (snaps : c'.snapshots = update c.snapshots s₀ (some { snp with useCount := n }))
    (elems : c'.elems = c.elems) (hs : c'.snapshots s = some snp') : Unchanged c c' s snp' := by
  rw [snaps] at hs
  by_cases h0 : s = s₀
  · subst h0
    rw [update_self, Option.some.injEq] at hs
    subst hs
    exact .inr ⟨snp, live, rfl, by rw [elems]⟩
  · rw [update_of_ne h0] at hs
    exact .inr ⟨snp', hs, rfl, by rw [elems]⟩

variable [PartitionOps S V P]

variable {op : Op S V P} {o : Answer P}

/-- One request that meets the condition changes no live snapshot. -/
theorem Transition.unchanged (h : Transition c op c' o) (keeps : c.KeepsSnapshots op c') (listed : c.SnapshotsListed)
    (hs : c'.snapshots s = some snp') : Unchanged c c' s snp' := by
  cases h with
  | share found pinned live | release live more => exact unchanged_of_recount live rfl rfl hs
  | @pin schema phase t e found unpinned =>
    by_cases hn : s = c.nextSnapshot
    · subst hn
      exact .inl ⟨rfl, coveredIn_ne_nil (List.mem_set (List.getElem?_eq_some_iff.1 found).1 _) rfl⟩
    · refine .inr ⟨snp', (update_of_ne hn ..).symm.trans hs, rfl, coveredIn_congr (sameUnder_set ?_ found)⟩
      exact ⟨rfl, by simp [unpinned, Ne.symm hn]⟩
  | @unpin s₀ snp live last =>
    have hne : s ≠ s₀ := by
      rintro rfl
      simp at hs
    exact .inr ⟨snp', (update_of_ne hne ..).symm.trans hs, rfl, coveredIn_congr (sameUnder_unpin hne _)⟩
  | squash | reject => exact unchanged_of_snapshots rfl rfl hs
  | store | add => exact unchanged_of_snapshots rfl (coveredIn_cons rfl) hs
  | @collect _ _ _ v mp i c' kept written full collects =>
    have hu := keeps.collect rfl kept full collects
    refine unchanged_of_snapshots (by rw [collects.eq]; rfl) ?_ hs
    rw [collects.elems, coveredIn_cons rfl, eraseIdx_eq_take_drop_succ]
    conv_rhs => rw [← take_append_drop (i + 1) c.elems]
    rw [coveredIn_append fun x hx => by simp [hu x (take_subset_take_left _ (Nat.le_succ i) hx)],
      coveredIn_append fun x hx => by simp [hu x hx]]
  | apply elems =>
    exact unchanged_of_snapshots rfl (elems ▸ coveredIn_inPlace (keeps.apply rfl _ _ elems) _) hs
  | incomplete elems =>
    exact unchanged_of_snapshots rfl (elems ▸ coveredIn_inPlace (keeps.incomplete rfl _ _ elems) _) hs
  | upgrade elems =>
    -- every live snapshot is on the chain, and nothing on the chain is pinned
    refine absurd ?_ (listed s snp' hs)
    have hu := keeps.upgrade rfl
    rw [← append_nil c.elems, coveredIn_append fun x hx => by simp [hu x hx]]
    rfl

theorem Transition.snapshotsListed (h : Transition c op c' o) (keeps : c.KeepsSnapshots op c')
    (listed : c.SnapshotsListed) : c'.SnapshotsListed := by
  intro s snp' hs
  rcases h.unchanged keeps listed hs with ⟨-, new⟩ | ⟨snp, hlive, -, same⟩
  · exact new
  · rw [same]
    exact listed s snp hlive

theorem Transition.nextSnapshot_le (h : Transition c op c' o) : c.nextSnapshot ≤ c'.nextSnapshot := by
  cases h with
  | pin => exact Nat.le_succ _
  | collect kept written full collects =>
    rw [collects.eq]
    exact Nat.le_refl _
  | _ => exact Nat.le_refl _

theorem squashed_of_coveredIn {snp : Snap S} (live : c.snapshots s = some snp) {p : P} {ps : List P}
    (covered : coveredIn s c.elems = p :: ps) : c.squashed s = .ok (squash snp.schema p ps) := by
  obtain ⟨e, es, hc, rfl, rfl⟩ := map_eq_cons_iff.1 covered
  unfold squashed snapshotVersions Chain.covered
  rw [live]
  simp only [hc]
  rfl

end Chain

namespace Sim

variable {w : Heap S P} {l : List Addr} {c c' : Chain S P}

/-- A listed version that the heap finds unpinned is unpinned in the list. -/
theorem unpinned (h : Sim w l c) {i : Nat} {e : Elem P} (he : c.elems[i]? = some e)
    (hu : ∀ a, l[i]? = some a → w.Unpinned a) : e.snapshot = none := by
  have hi : i < l.length := by
    rw [h.length_eq]
    exact (List.getElem?_eq_some_iff.1 he).1
  have ha := getElem?_eq_getElem hi
  obtain ⟨u, hv, hue⟩ := h.get ha
  cases he.symm.trans hue
  exact hu _ ha u hv

theorem keepsSnapshots (h : Sim w l c) {op : Op S V P} (keeps : w.KeepsSnapshots op) : c.KeepsSnapshots op c' := by
  have head : (∀ a, w.entry.version.version = some a → w.Unpinned a) →
      ∀ e es, c.elems = e :: es → e.snapshot = none := by
    intro hu e es hc
    refine h.unpinned (i := 0) (by rw [hc]; rfl) fun a ha => hu a ?_
    rw [h.head, head?_eq_getElem?, ha]
  constructor
  · rintro s mp mpSchema rfl
    exact head keeps
  · rintro s src srcSchema rfl
    exact head keeps
  · rintro s mpv mpSchema v mp i rfl kept full collects e he
    obtain rejected | keeps := keeps
    · exact absurd ⟨rejected.1, h.hvw ▸ rejected.2⟩ kept
    obtain ⟨a, u, ha, hi, -, -⟩ := h.gcVictim collects
    obtain ⟨xs, ys, rfl, rfl⟩ := split hi
    obtain ⟨j, hj⟩ := mem_iff_getElem?.1 he
    rw [getElem?_take] at hj
    split at hj
    next hlt =>
      refine h.unpinned hj fun b hb => keeps (h.num ▸ full) xs a ys ha h.chain_eq b ?_
      rw [append_cons, getElem?_append_left (by simpa using hlt)] at hb
      exact mem_of_getElem? hb
    · cases hj
  · rintro fromSchema toSchema rfl e he
    obtain ⟨j, hj⟩ := mem_iff_getElem?.1 he
    refine h.unpinned hj fun b hb => keeps b ?_
    rw [h.chain_eq]
    exact mem_of_getElem? hb

theorem isSome_snapshots (h : Sim w l c) {s : SnapshotId} (live : (w.snapshots s).isSome) :
    ∃ snp, c.snapshots s = some snp := by
  obtain ⟨snp, hs⟩ := Option.isSome_iff_exists.1 live
  exact ⟨snp.toSnap, by rw [← h.snaps, hs]; rfl⟩

end Sim

/-- In a run whose requests all keep the snapshots, a snapshot that is held shows in every later state what
it showed before. -/
theorem live_snapshot_unchanged [PartitionOps S V P] (e : EntryAddr) (mp : P) {tr₁ tr₂ : List (Op S V P × Answer P)}
    {w₁ w₂ : Heap S P} {s : SnapshotId}
    (run₁ : Run Heap.step (fun _ w op => w.KeepsSnapshots op) (Heap.ofPartition e mp) tr₁ w₁)
    (run₂ : Run Heap.step (fun _ w op => w.KeepsSnapshots op) w₁ tr₂ w₂)
    (live₁ : (w₁.snapshots s).isSome) (live₂ : (w₂.snapshots s).isSome) :
    ∃ p, w₁.squashed s = .ok p ∧ w₂.squashed s = .ok p := by
  obtain ⟨l₁, c₁, sim₁, listed₁⟩ := Sim.run (fun _ _ c => c.SnapshotsListed) (Sim.ofPartition e mp)
    (fun s snp hs => by cases hs) (fun _ _ _ _ _ _ _ _ _ sim listed keeps h _ _ =>
      h.snapshotsListed (sim.keepsSnapshots keeps) listed) run₁
  obtain ⟨snp₁, hs₁⟩ := sim₁.isSome_snapshots live₁
  have old : s < c₁.nextSnapshot := by
    by_contra hle
    obtain ⟨snp, hs⟩ := Option.isSome_iff_exists.1 live₁
    cases hs.symm.trans (sim₁.pins.fresh (by rw [sim₁.next]; exact Nat.not_lt.1 hle))
  -- from here on `s` is dropped for good or shows what it shows in `c₁`
  obtain ⟨l₂, c₂, sim₂, -, -, same₂⟩ := Sim.run (fun _ _ c => c.SnapshotsListed ∧ s < c.nextSnapshot ∧
      ∀ snp, c.snapshots s = some snp → snp.schema = snp₁.schema ∧
        Chain.coveredIn s c.elems = Chain.coveredIn s c₁.elems) sim₁
    ⟨listed₁, old, fun snp hs => by cases hs₁.symm.trans hs; exact ⟨rfl, rfl⟩⟩
    (fun _ w l c op w' l' c' o sim ⟨listed, hlt, same⟩ keeps h _ _ => by
      have hk : c.KeepsSnapshots op c' := sim.keepsSnapshots keeps
      refine ⟨h.snapshotsListed hk listed, Nat.lt_of_lt_of_le hlt h.nextSnapshot_le, fun snp' hs' => ?_⟩
      rcases h.unchanged hk listed hs' with ⟨heq, -⟩ | ⟨snp, hs, hschema, hcov⟩
      · exact absurd heq (Nat.ne_of_lt hlt)
      · rw [← hschema, hcov]
        exact same snp hs) run₂
  obtain ⟨snp₂, hs₂⟩ := sim₂.isSome_snapshots live₂
  obtain ⟨hschema, hcov⟩ := same₂ snp₂ hs₂
  obtain ⟨p, ps, hp⟩ := exists_cons_of_ne_nil (listed₁ s snp₁ hs₁)
  refine ⟨Chain.squash snp₁.schema p ps, ?_, ?_⟩
  · rw [sim₁.squashed, Chain.squashed_of_coveredIn hs₁ hp]
  · rw [sim₂.squashed, Chain.squashed_of_coveredIn hs₂ (hcov.trans hp), hschema]

theorem live_snapshot_unchanged_by_write : ∃ p, (entryAfter [put 1 0 7, readAt 1]).squashed 0 = .ok p ∧
      (entryAfter [put 1 0 7, readAt 1, put 2 1 8]).squashed 0 = .ok p := by
  have run₁ : Run Heap.step (fun _ w op => w.KeepsSnapshots op) newEntry _ (entryAfter [put 1 0 7, readAt 1]) :=
    .snoc (.snoc .init (i := put 1 0 7) (.inr fun full => absurd full (by decide)) rfl) (i := readAt 1) trivial rfl
  have run₂ : Run Heap.step (fun _ w op => w.KeepsSnapshots op) (entryAfter [put 1 0 7, readAt 1]) _
      (entryAfter [put 1 0 7, readAt 1, put 2 1 8]) :=
    .snoc .init (i := put 2 1 8) (.inr fun full => absurd full (by decide)) rfl
  exact live_snapshot_unchanged 0 _ run₁ run₂ rfl rfl

/-- A snapshot of the newest version shows a write that `apply` makes afterwards, in place. -/
theorem live_snapshot_changed_in_place : ∃ p q, (trace Heap.step newEntry [put 1 0 7, readAt 1, .squashed 0,
      .apply usertable (Mutation.MutationPartition.build (putByte 1 8)) usertable, .squashed 0]).filterMap squashedContent =
        [p, q] ∧ p ≠ q :=
  ⟨_, _, rfl, by decide⟩

end ScyllaMoon.Mvcc
