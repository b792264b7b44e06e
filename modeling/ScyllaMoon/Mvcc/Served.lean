import ScyllaMoon.Mvcc.Contents
import ScyllaMoon.Mvcc.RepeatableRead

/-!
# What a read serves

A read at `t` hands out a snapshot of the version it looks up and of everything older. Which versions these
are depends on the numbers and partitions in the chain only, so reads and drops do not change it.
-/

namespace ScyllaMoon.Mvcc

open Lib Function List

variable {S V P : Type}

namespace Chain

variable {c c' : Chain S P}

/-- The versions without the snapshots on them. -/
def stored (c : Chain S P) : List (UInt32 × P) :=
  c.elems.map fun e => (e.number, e.partition)

/-- The partitions of the version that a read at `t` looks up and of the older ones. -/
def served (c : Chain S P) (t : UInt32) : List P :=
  (c.elems.drop (c.lookup t)).map Elem.partition

theorem lookup_congr (same : c'.stored = c.stored) (t : UInt32) : c'.lookup t = c.lookup t := by
  have index : ∀ d : Chain S P, d.elems.findIdx? (fun e => decide (e.number ≤ t)) =
      d.stored.findIdx? fun v => decide (v.1 ≤ t) := fun d => by
    rw [stored, findIdx?_map]
    rfl
  have number : ∀ i : Nat, (c'.elems[i]?).map Elem.number = (c.elems[i]?).map Elem.number := fun i => by
    have := congrArg (fun vs => (vs[i]?).map Prod.fst) same
    simpa [stored, getElem?_map, comp_def] using this
  unfold lookup
  rw [index, index, same]
  split
  · cases c.stored.findIdx? fun v => decide (v.1 ≤ t) with
    | none => rfl
    | some i =>
      have here := number i
      cases he : c.elems[i]? <;> cases he' : c'.elems[i]? <;> simp_all
  · rfl

theorem served_congr (same : c'.stored = c.stored) (t : UInt32) : c'.served t = c.served t := by
  have partitions : ∀ d : Chain S P, d.served t = (d.stored.drop (d.lookup t)).map Prod.snd := fun d => by
    rw [served, stored, ← map_drop, map_map]
    rfl
  rw [partitions, partitions, lookup_congr same, same]

theorem lookup_lt (nonempty : c.elems ≠ []) (t : UInt32) : c.lookup t < c.elems.length := by
  have pos := length_pos_of_ne_nil nonempty
  unfold lookup
  split
  · split
    · exact pos
    · split
      next i _ e he =>
        split
        · exact pos
        · exact (List.getElem?_eq_some_iff.1 he).1
      · exact pos
  · exact pos

theorem served_ne_nil (nonempty : c.elems ≠ []) (t : UInt32) : c.served t ≠ [] := by
  have := lookup_lt nonempty t
  simpa [served] using this

theorem Contents.served {Good : P → Prop} (h : c.Contents Good) (t : UInt32) : ∀ p ∈ c.served t, Good p :=
  forall_mem_map.2 fun e he => h.elems e (mem_of_mem_drop he)

/-- Every snapshot on a listed version was taken with the schema `schema`. -/
def PinnedWith (schema : S) (c : Chain S P) : Prop :=
  ∀ e ∈ c.elems, ∀ s, e.snapshot = some s → ∃ snp, c.snapshots s = some snp ∧ snp.schema = schema

theorem stored_set {e : Elem P} {i : Nat} (found : c.elems[i]? = some e) (snapshot : Option SnapshotId) :
    (c.elems.set i { e with snapshot }).map (fun e => (e.number, e.partition)) = c.stored := by
  obtain ⟨hi, rfl⟩ := List.getElem?_eq_some_iff.1 found
  rw [map_set, stored]
  exact ext_getElem? fun j => by
    rw [getElem?_set]
    split
    next hj =>
      subst hj
      simp [hi]
    · rfl

theorem stored_unpin (s : SnapshotId) (c : Chain S P) :
    (c.elems.map (unpin s)).map (fun e => (e.number, e.partition)) = c.stored := by
  rw [map_map]
  refine map_congr_left fun e _ => ?_
  simp only [comp, unpin]
  split <;> rfl

variable [PartitionOps S V P]

/-- A request that only reads or drops leaves the versions as they are. -/
theorem Transition.stored_eq {op : Op S V P} {o : Answer P} (h : Transition c op c' o)
    (quiet : (∃ schema phase t, op = .read schema phase t) ∨ ∃ s, op = .drop s) : c'.stored = c.stored := by
  cases h with
  | share | release => rfl
  | pin found => exact stored_set found _
  | unpin => exact stored_unpin _ c
  | _ => simp at quiet

end Chain

namespace Sim

variable {w w' : Heap S P} {l : List Addr} {c : Chain S P}

theorem elems_ne_nil (h : Sim w l c) : c.elems ≠ [] := by
  obtain ⟨_, _, _, _, -, -, -, hc⟩ := h.exists_head
  rw [hc]
  exact cons_ne_nil _ _

/-- A snapshot on a listed version covers it and everything older. -/
theorem snapshotVersions_listed (h : Sim w l c) {i : Nat} {e : Elem P} (he : c.elems[i]? = some e) {s : SnapshotId}
    (hs : e.snapshot = some s) {snp : Snap S} (live : c.snapshots s = some snp) :
    w.snapshotVersions s = .ok (snp.schema, (c.elems.drop i).map Elem.partition) := by
  obtain ⟨hi, rfl⟩ := List.getElem?_eq_some_iff.1 he
  have hil : i < l.length := h.length_eq ▸ hi
  have hl : l = l.take i ++ l[i] :: l.drop (i + 1) := by
    rw [← drop_eq_getElem_cons, take_append_drop]
  obtain ⟨es, x, fs, hc, hes, hx, hfs⟩ := h.split_elems hl
  have len : es.length = i := by
    have := congrArg length hes
    rw [length_map, length_map, length_take_of_le (Nat.le_of_lt hil)] at this
    exact this.symm
  have drop : c.elems.drop i = x :: fs := by rw [hc, ← len, drop_left]
  have hxe : x = c.elems[i] := by
    rw [drop_eq_getElem_cons hi] at drop
    exact (cons.inj drop).1.symm
  obtain ⟨psnp, hps, hv⟩ := h.pins.pinned hx (hxe ▸ hs)
  obtain ⟨x', fs', hcov, hx', hfs'⟩ := h.covered_of_mem hps hv hl
  cases hx.symm.trans hx'
  have tail : fs' = fs := map_injective_iff.2 (Option.some_injective _) (hfs'.symm.trans hfs)
  rw [h.snapshotVersions, Chain.snapshotVersions, live, hcov, drop, tail]
  rfl

variable [PartitionOps S V P]

/-- A read with the schema of the entry never fails, hands out the versions that it serves and leaves the
versions as they are. -/
theorem read_served (h : Sim w l c) {schema : S} (pinned : c.PinnedWith schema) (phase : UInt64) (t : UInt32) :
    ∃ w' s n p c', w.step (.read schema phase t) = .ok (w', .snapshot s n p) ∧
      w'.snapshotVersions s = .ok (schema, c.served t) ∧ Sim w' l c' ∧ c'.stored = c.stored ∧
      Chain.Transition c (.read schema phase t) c' (.snapshot s n p) := by
  have bound := Chain.lookup_lt h.elems_ne_nil t
  obtain ⟨w', s, n, p, step⟩ : ∃ w' s n p, w.step (.read schema phase t) = .ok (w', .snapshot s n p) := by
    obtain ⟨w', s, step⟩ := h.read_ok schema phase (getElem?_eq_getElem bound)
    exact ⟨w', s, _, _, step⟩
  obtain ⟨c', l', sim', transition, same⟩ := h.transition step
  have hl : l' = l := same
  subst hl
  have stored := transition.stored_eq (.inl ⟨_, _, _, rfl⟩)
  refine ⟨w', s, n, p, c', step, ?_, sim', stored, transition⟩
  rw [← Chain.served_congr stored t, Chain.served, Chain.lookup_congr stored t]
  cases transition with
  | @share _ _ _ e s' snp found snapshot live =>
    obtain ⟨snp', live', schema'⟩ := pinned e (mem_of_getElem? found) s snapshot
    cases live.symm.trans live'
    rw [sim'.snapshotVersions_listed found snapshot (update_self ..)]
    simp only [schema']
  | @pin _ _ _ e found unpinned =>
    have here : (c.elems.set (c.lookup t) { e with snapshot := some c.nextSnapshot })[c.lookup t]? =
        some { e with snapshot := some c.nextSnapshot } := by
      rw [getElem?_set_self bound]
    rw [sim'.snapshotVersions_listed here rfl (update_self ..)]

end Sim

namespace Chain

variable {c c' : Chain S P} {schema : S}

theorem PinnedWith.recount (h : c.PinnedWith schema) {s₀ : SnapshotId} {snp₀ : Snap S} (live : c.snapshots s₀ = some snp₀)
    (n : Nat) : ∀ e ∈ c.elems, ∀ s, e.snapshot = some s → ∃ snp,
      update c.snapshots s₀ (some { snp₀ with useCount := n }) s = some snp ∧ snp.schema = schema := by
  intro e he s hs
  obtain ⟨snp, hsnp, hschema⟩ := h e he s hs
  by_cases hne : s = s₀
  · subst hne
    cases live.symm.trans hsnp
    exact ⟨_, update_self .., hschema⟩
  · exact ⟨snp, (update_of_ne hne ..).trans hsnp, hschema⟩

variable [PartitionOps S V P]

/-- Reads use the schema of the entry, and an upgrade leaves no pinned version. -/
theorem Transition.pinnedWith {op : Op S V P} {o : Answer P} (ht : Transition c op c' o)
    (own : ∀ schema' phase t, op = .read schema' phase t → schema' = schema)
    (keeps : ∀ fromSchema toSchema, op ≠ .upgrade fromSchema toSchema)
    (fresh : c.snapshots c.nextSnapshot = none) (h : c.PinnedWith schema) : c'.PinnedWith schema := by
  cases ht with
  | share _ _ live | release live => exact h.recount live _
  | @pin schema' _ t e found unpinned =>
    intro x hx s hs
    rcases mem_or_eq_of_mem_set hx with hx | rfl
    · obtain ⟨snp, hsnp, hschema⟩ := h x hx s hs
      have hne : s ≠ c.nextSnapshot := by
        rintro rfl
        rw [fresh] at hsnp
        cases hsnp
      exact ⟨snp, (update_of_ne hne ..).trans hsnp, hschema⟩
    · cases hs
      exact ⟨_, update_self .., own _ _ _ rfl⟩
  | @unpin s₀ =>
    intro x hx s hs
    obtain ⟨y, hy, rfl⟩ := mem_map.1 hx
    unfold Chain.unpin at hs
    split at hs
    · cases hs
    next hne =>
      obtain ⟨snp, hsnp, hschema⟩ := h y hy s hs
      have other : s ≠ s₀ := by
        rintro rfl
        exact hne hs
      exact ⟨snp, (update_of_ne other ..).trans hsnp, hschema⟩
  | squash => exact h
  | reject => exact h
  | store | add => exact forall_mem_cons.2 ⟨nofun, h⟩
  | @collect _ _ _ v mp i _ _ _ _ collects =>
    rw [collects.eq]
    intro x hx
    rcases mem_cons.1 (mem_of_mem_eraseIdx hx) with rfl | hx
    · exact nofun
    · exact h x hx
  | apply elems | incomplete elems =>
    have all := h
    unfold PinnedWith at all
    rw [elems] at all
    obtain ⟨head, rest⟩ := forall_mem_cons.1 all
    exact forall_mem_cons.2 ⟨head, rest⟩
  | upgrade => exact absurd rfl (keeps _ _)

end Chain

end ScyllaMoon.Mvcc
