import ScyllaMoon.Mvcc.Transition

/-!
# Invariants of the partitions

A property that the functions of `mutation_partition` keep holds of every partition that an entry and its
snapshots ever hold, if it holds of what the callers bring.
-/

namespace ScyllaMoon.Mvcc

open Lib Function List

variable {S V P : Type} [PartitionOps S V P]

/-- The functions that build partitions keep `Good`, from writes that are `GoodView`. -/
structure ContentInvariant (GoodView : V → Prop) (Good : P → Prop) : Prop where
  empty : ∀ s : S, Good (PartitionOps.empty s)
  continuous : ∀ {p : P} (b : Bool), Good p → Good (PartitionOps.setStaticRowContinuous p b)
  apply : ∀ {p q : P} (s t : S), Good p → Good q → Good (PartitionOps.apply s p q t)
  applyView : ∀ {p : P} {v : V} (s t : S) (n : UInt32), Good p → GoodView v → Good (PartitionOps.applyView s p v t n)
  setMostRecentVersion : ∀ {p q : P} (s : S) (n : UInt32), Good p →
    PartitionOps.setMostRecentVersion s p n = some q → Good q
  applyIncomplete : ∀ {dst src : List P} (s : S), (∀ p ∈ dst, Good p) → (∀ p ∈ src, Good p) →
    Good (PartitionOps.applyIncomplete s dst src)

/-- What the request brings is good. -/
def Op.Brings (GoodView : V → Prop) (Good : P → Prop) : Op S V P → Prop
  | .applyView _ mpv _ _ => GoodView mpv
  | .apply _ mp _ => Good mp
  | .applyToIncomplete _ src _ => ∀ p ∈ src, Good p
  | _ => True

namespace ContentInvariant

variable {GoodView : V → Prop} {Good : P → Prop}

section

variable (h : ContentInvariant GoodView Good)
include h

theorem freshLike (s : S) (p : P) : Good (freshLike s p) :=
  h.continuous _ (h.empty s)

theorem foldl_apply (s t : S) {p : P} {ps : List P} (hp : Good p)
    (hps : ∀ q ∈ ps, Good q) : Good (ps.foldl (PartitionOps.apply s · · t) p) :=
  foldlRecOn ps _ hp fun _ hr q hq => h.apply s t hr (hps q hq)

theorem writtenPartition {s mpSchema : S} {mpv : V} {v n : UInt32} {mp : P}
    (hv : GoodView mpv) (hw : writtenPartition s mpv mpSchema v n = .ok mp) : Good mp := by
  have applied : Good (PartitionOps.applyView s (PartitionOps.empty s) mpv mpSchema n) :=
    h.applyView s mpSchema n (h.empty s) hv
  unfold Mvcc.writtenPartition at hw
  simp only at hw
  split at hw
  · split at hw
    next q hq =>
      cases hw
      exact h.setMostRecentVersion s n applied hq
    · cases hw
  · cases hw
    exact applied

theorem incompleteSource (s srcSchema : S) {src : List P}
    (hsrc : ∀ p ∈ src, Good p) : ∀ p ∈ incompleteSource s src srcSchema, Good p := by
  unfold Mvcc.incompleteSource
  split
  · simp
  · split
    · simpa using h.foldl_apply s srcSchema (h.freshLike s _) hsrc
    · exact hsrc

end

end ContentInvariant

omit [PartitionOps S V P] in
theorem Elem.detach_eq_some {e : Elem P} {detached : SnapshotId → Option P} {s : SnapshotId} {p : P}
    (h : e.detach detached s = some p) : p = e.partition ∨ detached s = some p := by
  cases hs : e.snapshot with
  | none =>
    simp only [Elem.detach, hs] at h
    exact .inr h
  | some t =>
    simp only [Elem.detach, hs, update_apply] at h
    split at h
    · exact .inl (Option.some.inj h).symm
    · exact .inr h

namespace Chain

variable {c c' : Chain S P} {GoodView : V → Prop} {Good : P → Prop}

/-- Every partition the chain holds, or a snapshot alone, is good. -/
structure Contents (Good : P → Prop) (c : Chain S P) : Prop where
  elems : ∀ e ∈ c.elems, Good e.partition
  detached : ∀ {s p}, c.detached s = some p → Good p

theorem Contents.partitions (h : c.Contents Good) : ∀ p ∈ c.partitions, Good p :=
  forall_mem_map.2 h.elems

theorem Contents.unlink (h : c.Contents Good) (i : Nat) : (c.unlink i).Contents Good := by
  refine ⟨fun e he => h.elems e (mem_of_mem_eraseIdx he), fun {s p} hp => ?_⟩
  cases he : c.elems[i]? with
  | none =>
    simp only [Chain.unlink, he] at hp
    exact h.detached hp
  | some e =>
    simp only [Chain.unlink, he] at hp
    rcases Elem.detach_eq_some hp with rfl | hp
    · exact h.elems e (mem_of_getElem? he)
    · exact h.detached hp

theorem Contents.store (h : c.Contents Good) (n : UInt32) {mp : P} (hmp : Good mp) : (c.store n mp).Contents Good :=
  ⟨forall_mem_cons.2 ⟨hmp, h.elems⟩, h.detached⟩

/-- `p` is a partition that the request puts into the chain. -/
inductive Builds (c : Chain S P) : Op S V P → P → Prop where
  | written {s mpv mpSchema v mp} : ¬c.rejects v → writtenPartition s mpv mpSchema v (c.promoted v) = .ok mp →
      Builds c (.applyView s mpv mpSchema v) mp
  | applied {s mp mpSchema e es} : c.elems = e :: es →
      Builds c (.apply s mp mpSchema) (PartitionOps.apply s e.partition mp mpSchema)
  | incomplete {s src srcSchema e es} : c.elems = e :: es → Builds c (.applyToIncomplete s src srcSchema)
      (PartitionOps.applyIncomplete s (e.partition :: es.map Elem.partition) (incompleteSource s src srcSchema))
  | fresh {s e es} : c.elems = e :: es → Builds c (.addVersion s) (freshLike s e.partition)
  | upgraded {fromSchema toSchema e es} : c.elems = e :: es →
      Builds c (.upgrade fromSchema toSchema) (c.upgraded fromSchema toSchema e.partition)

variable {op : Op S V P} {o : Answer P}

/-- A request that puts good partitions into the chain leaves good partitions. -/
theorem Transition.contents_of_builds (ht : Transition c op c' o) (good : ∀ p, c.Builds op p → Good p)
    (h : c.Contents Good) : c'.Contents Good := by
  cases ht with
  | share | release => exact ⟨h.elems, h.detached⟩
  | pin found =>
    refine ⟨fun e he => ?_, h.detached⟩
    rcases mem_or_eq_of_mem_set he with he | rfl
    · exact h.elems e he
    · have read := h.elems _ (mem_of_getElem? found)
      exact read
  | @unpin s =>
    refine ⟨fun e he => ?_, fun {t p} hp => ?_⟩
    · obtain ⟨e', he', rfl⟩ := mem_map.1 he
      unfold Chain.unpin
      split <;> exact h.elems e' he'
    · have hp : update c.detached s none t = some p := hp
      rw [update_apply] at hp
      split at hp
      · cases hp
      · exact h.detached hp
  | squash => exact h
  | reject => exact h
  | store kept written => exact h.store _ (good _ (.written kept written))
  | @collect _ _ _ v mp i _ kept written full collects =>
    have stored : (c.store (c.promoted v) mp).Contents Good := h.store _ (good _ (.written kept written))
    rw [collects.eq]
    exact ⟨(stored.unlink (i + 1)).elems, (stored.unlink (i + 1)).detached⟩
  | apply elems =>
    have rest := (forall_mem_cons.1 (elems ▸ h.elems)).2
    exact ⟨forall_mem_cons.2 ⟨good _ (.applied elems), rest⟩, h.detached⟩
  | incomplete elems =>
    have rest := (forall_mem_cons.1 (elems ▸ h.elems)).2
    exact ⟨forall_mem_cons.2 ⟨good _ (.incomplete elems), rest⟩, h.detached⟩
  | add elems => exact ⟨forall_mem_cons.2 ⟨good _ (.fresh elems), h.elems⟩, h.detached⟩
  | upgrade elems => exact ⟨forall_mem_singleton.2 (good _ (.upgraded elems)), h.detached⟩

/-- A request that brings good partitions builds good partitions. -/
theorem Builds.good (inv : ContentInvariant GoodView Good) {p : P} (hb : c.Builds op p)
    (brings : op.Brings GoodView Good) (h : c.Contents Good) : Good p := by
  cases hb with
  | written _ written => exact inv.writtenPartition brings written
  | @applied _ _ _ e es elems =>
    have head : Good e.partition := h.elems e (elems ▸ mem_cons_self)
    exact inv.apply _ _ head brings
  | incomplete elems =>
    have dst := forall_mem_map.2 h.elems
    rw [elems, map_cons] at dst
    exact inv.applyIncomplete _ dst (inv.incompleteSource _ _ brings)
  | fresh => exact inv.freshLike _ _
  | upgraded => exact inv.foldl_apply _ _ (inv.freshLike _ _) h.partitions

/-- A request that brings good partitions leaves good partitions. -/
theorem Transition.contents (inv : ContentInvariant GoodView Good) (ht : Transition c op c' o)
    (brings : op.Brings GoodView Good) (h : c.Contents Good) : c'.Contents Good :=
  ht.contents_of_builds (fun _ hb => hb.good inv brings h) h

variable {s : SnapshotId}

/-- What a snapshot covers is good. -/
theorem Contents.snapshotVersions (h : c.Contents Good) {schema : S} {ps : List P}
    (hs : c.snapshotVersions s = .ok (schema, ps)) : ∀ p ∈ ps, Good p := by
  unfold Chain.snapshotVersions at hs
  split at hs
  · cases hs
  · split at hs
    next e es hcov =>
      cases hs
      have hsub : ∀ e' ∈ e :: es, Good e'.partition := fun e' he' =>
        h.elems e' ((dropWhile_sublist _).subset (hcov ▸ he'))
      exact forall_mem_map.2 hsub
    · split at hs
      next p hp =>
        cases hs
        exact forall_mem_singleton.2 (h.detached hp)
      · cases hs

/-- Every live snapshot has a version, in the chain or alone. -/
def SnapshotsHeld (c : Chain S P) : Prop :=
  ∀ s snp, c.snapshots s = some snp → (∃ e ∈ c.elems, e.snapshot = some s) ∨ (c.detached s).isSome

omit [PartitionOps S V P] in
theorem SnapshotsHeld.unlink (h : c.SnapshotsHeld) (i : Nat) : (c.unlink i).SnapshotsHeld := by
  intro s snp hs
  cases hi : c.elems[i]? with
  | none =>
    have same : c.elems.eraseIdx i = c.elems := eraseIdx_of_length_le (getElem?_eq_none_iff.1 hi)
    simpa only [Chain.unlink, hi, same] using h s snp hs
  | some x =>
    simp only [Chain.unlink, hi]
    have kept : (c.detached s).isSome → (x.detach c.detached s).isSome := fun hd => by
      cases hx : x.snapshot with
      | none => simpa only [Elem.detach, hx] using hd
      | some t =>
        simp only [Elem.detach, hx, update_apply]
        split
        · rfl
        · exact hd
    rcases h s snp hs with ⟨e, he, hes⟩ | hd
    · obtain ⟨j, hj⟩ := mem_iff_getElem?.1 he
      by_cases hij : j = i
      · subst hij
        cases hi.symm.trans hj
        exact .inr (by simp [Elem.detach, hes])
      · exact .inl ⟨e, mem_eraseIdx_iff_getElem?.2 ⟨j, hij, hj⟩, hes⟩
    · exact .inr (kept hd)

/-- Only an upgrade takes the version from under a snapshot. -/
theorem Transition.snapshotsHeld (ht : Transition c op c' o)
    (keeps : ∀ fromSchema toSchema, op ≠ .upgrade fromSchema toSchema) (h : c.SnapshotsHeld) : c'.SnapshotsHeld := by
  -- counting handles does not change which snapshots there are
  have recount : ∀ {s₀ snp₀ n}, c.snapshots s₀ = some snp₀ → ∀ s snp,
      update c.snapshots s₀ (some { snp₀ with useCount := n }) s = some snp →
        (∃ e ∈ c.elems, e.snapshot = some s) ∨ (c.detached s).isSome := by
    intro s₀ snp₀ n live s snp hs
    by_cases hne : s = s₀
    · exact h s snp₀ (hne ▸ live)
    · rw [update_of_ne hne] at hs
      exact h s snp hs
  have pushed {new} s snp (hs : c.snapshots s = some snp) :
      (∃ e ∈ new :: c.elems, e.snapshot = some s) ∨ (c.detached s).isSome :=
    (h s snp hs).imp_left (Exists.imp fun x hx => ⟨mem_cons_of_mem _ hx.1, hx.2⟩)
  cases ht with
  | share _ _ live | release live => exact recount live
  | @pin _ _ t e found unpinned =>
    intro s snp hs
    have bound := (List.getElem?_eq_some_iff.1 found).1
    by_cases hn : s = c.nextSnapshot
    · exact .inl ⟨_, mem_set bound _, by rw [hn]⟩
    · rcases h s snp ((update_of_ne hn ..).symm.trans hs) with ⟨x, hx, hxs⟩ | hd
      · obtain ⟨j, hj⟩ := mem_iff_getElem?.1 hx
        have hne : c.lookup t ≠ j := by
          rintro rfl
          cases found.symm.trans hj
          rw [unpinned] at hxs
          cases hxs
        exact .inl ⟨x, mem_of_getElem? ((getElem?_set_ne hne).trans hj), hxs⟩
      · exact .inr hd
  | @unpin s₀ =>
    intro s snp hs
    have hne : s ≠ s₀ := by
      rintro rfl
      simp at hs
    rcases h s snp ((update_of_ne hne ..).symm.trans hs) with ⟨x, hx, hxs⟩ | hd
    · refine .inl ⟨Chain.unpin s₀ x, mem_map_of_mem hx, ?_⟩
      rw [Chain.unpin, if_neg (by simpa [hxs] using hne), hxs]
    · exact .inr (by simpa [update_of_ne hne] using hd)
  | squash => exact h
  | reject => exact h
  | store => exact pushed
  | @collect _ _ _ v mp i _ _ _ _ collects =>
    have stored : (c.store (c.promoted v) mp).SnapshotsHeld := pushed
    rw [collects.eq]
    exact stored.unlink (i + 1)
  | apply elems | incomplete elems =>
    intro s snp hs
    rcases h s snp hs with ⟨x, hx, hxs⟩ | hd
    · rw [elems] at hx
      rcases mem_cons.1 hx with rfl | hx
      · exact .inl ⟨_, mem_cons_self, hxs⟩
      · exact .inl ⟨x, mem_cons_of_mem _ hx, hxs⟩
    · exact .inr hd
  | add => exact pushed
  | upgrade => exact absurd rfl (keeps _ _)

/-- A snapshot that has a version covers it, and possibly older ones. -/
theorem SnapshotsHeld.snapshotVersions (h : c.SnapshotsHeld) {snp : Snap S} (live : c.snapshots s = some snp) :
    ∃ p ps, c.snapshotVersions s = .ok (snp.schema, p :: ps) := by
  unfold Chain.snapshotVersions
  rw [live]
  cases hc : c.covered s with
  | cons e es => exact ⟨e.partition, es.map Elem.partition, rfl⟩
  | nil =>
    rcases h s snp live with ⟨e, he, hes⟩ | hd
    · have none := dropWhile_eq_nil_iff.1 hc e he
      simp [hes] at none
    · obtain ⟨p, hp⟩ := Option.isSome_iff_exists.1 hd
      exact ⟨p, [], by simp [hp]⟩

end Chain

variable {e : EntryAddr} {tr : List (Op S V P × Answer P)} {s : SnapshotId}

/-- In a run without an upgrade, every live snapshot has its versions. -/
theorem snapshotVersions_ok {mp : P} {w : Heap S P}
    (run : Run Heap.step (fun _ _ op => ∀ fromSchema toSchema, op ≠ .upgrade fromSchema toSchema) (Heap.ofPartition e mp) tr w)
    (live : (w.snapshots s).isSome) :
    ∃ schema p ps, w.snapshotVersions s = .ok (schema, p :: ps) := by
  obtain ⟨l, c, sim, held⟩ := Sim.run (fun _ _ c => c.SnapshotsHeld) (Sim.ofPartition e mp) (fun _ _ hs => by cases hs)
    (fun _ _ _ _ _ _ _ _ _ _ held keeps h _ _ => h.snapshotsHeld keeps held) run
  obtain ⟨snp, hs⟩ := Option.isSome_iff_exists.1 live
  obtain ⟨p, ps, hv⟩ := held.snapshotVersions (by rw [← sim.snaps, hs]; rfl : c.snapshots s = some snp.toSnap)
  exact ⟨_, p, ps, (sim.snapshotVersions s).trans hv⟩

/-- In every run whose requests bring good partitions, the snapshots cover good partitions. -/
theorem snapshotVersions_good {GoodView : V → Prop} {Good : P → Prop} (inv : ContentInvariant GoodView Good) {mp : P}
    (hmp : Good mp) {w : Heap S P}
    (run : Run Heap.step (fun _ _ op => op.Brings GoodView Good) (Heap.ofPartition e mp) tr w) {schema : S}
    {ps : List P} (hs : w.snapshotVersions s = .ok (schema, ps)) : ∀ p ∈ ps, Good p := by
  obtain ⟨l, c, sim, contents⟩ := Sim.run (fun _ _ c => c.Contents Good) (Sim.ofPartition e mp)
    ⟨forall_mem_singleton.2 hmp, nofun⟩
    (fun _ _ _ _ _ _ _ _ _ _ contents brings h _ _ => h.contents inv brings contents) run
  exact contents.snapshotVersions (sim.snapshotVersions s ▸ hs)

end ScyllaMoon.Mvcc
