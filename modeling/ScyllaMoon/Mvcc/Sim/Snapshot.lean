import ScyllaMoon.Mvcc.Sim.Relation

/-!
# Snapshots in the simulation

`partition_entry::read`, the release of a snapshot and `partition_snapshot::squashed()`, on the heap
and on the list. None of them changes which addresses are on the chain.
-/

namespace ScyllaMoon.Mvcc

open Lib Function List

variable {S V P : Type}

namespace Heap

/-- The loop of `read` finds the version at the first position numbered at most `t`. -/
theorem findVersion_eq {w : Heap S P} {t : UInt32} : ∀ {l : List Addr} {es : List (Elem P)},
    l.map w.elem? = es.map some →
      w.findVersion t l = .ok ((es.findIdx? fun e => decide (e.number ≤ t)).bind (l[·]?)) := by
  intro l
  induction l with
  | nil =>
    intro es h
    obtain rfl : es = [] := by simpa using h.symm
    rfl
  | cons a l ih =>
    intro es h
    cases es with
    | nil => cases h
    | cons e es =>
      obtain ⟨ha, hl⟩ := cons.inj h
      obtain ⟨v, hv, rfl⟩ := elem?_eq_some.1 ha
      rw [findVersion, getVersion_of hv, ok_bind, findIdx?_cons]
      by_cases hn : v.versionNumber ≤ t
      · simp [hn, PartitionVersion.toElem]
      · simp [hn, PartitionVersion.toElem, ih hl, Option.bind_map]

theorem partitionsAlong_cons (w : Heap S P) (a : Addr) (l : List Addr) : w.partitionsAlong (a :: l) = (do
    let v ← w.getVersion a
    return v.partition :: (← w.partitionsAlong l)) := by
  rw [partitionsAlong, mapM_cons]
  cases w.getVersion a <;> rfl

theorem partitionsAlong_eq {w : Heap S P} : ∀ {l : List Addr} {es : List (Elem P)}, l.map w.elem? = es.map some →
    w.partitionsAlong l = .ok (es.map Elem.partition) := by
  intro l
  induction l with
  | nil =>
    intro es h
    obtain rfl : es = [] := by simpa using h.symm
    rfl
  | cons a l ih =>
    intro es h
    obtain ⟨e, es, rfl, ha, hl⟩ := map_eq_cons_iff.1 h.symm
    obtain ⟨v, hv, rfl⟩ := elem?_eq_some.1 ha.symm
    rw [partitionsAlong_cons, getVersion_of hv, ok_bind, ih hl.symm]
    rfl

/-- A loop that gathers the partitions along the chain. -/
theorem foldlM_partition {β : Type} (w : Heap S P) (g : β → P → β) (l : List Addr) (b : β) : l.foldlM (fun b a => do
      let v ← w.getVersion a
      return g b v.partition) b = (do return (← w.partitionsAlong l).foldl g b) := by
  induction l generalizing b with
  | nil => rfl
  | cons a l ih =>
    rw [foldlM_cons, partitionsAlong_cons]
    cases w.getVersion a with
    | error f => rfl
    | ok v =>
      refine (ih (g b v.partition)).trans ?_
      cases hl : w.partitionsAlong l <;> rfl

theorem squashedAlong_eq [PartitionOps S V P] (w : Heap S P) (s : S) (l : List Addr) :
    w.squashedAlong s l = (do Chain.squashVersions (s, ← w.partitionsAlong l)) := by
  cases l with
  | nil => rfl
  | cons a l =>
    rw [squashedAlong, partitionsAlong_cons]
    cases w.getVersion a with
    | error f => rfl
    | ok v =>
      refine (foldlM_partition w (PartitionOps.apply s · · s) l v.partition).trans ?_
      cases hl : w.partitionsAlong l <;> rfl

/-- `partition_snapshot::squashed()` sums the versions of the snapshot. -/
theorem squashed_eq [PartitionOps S V P] (w : Heap S P) (s : SnapshotId) :
    w.squashed s = w.snapshotVersions s >>= Chain.squashVersions := by
  unfold squashed snapshotVersions
  cases w.getSnapshot s with
  | error f => rfl
  | ok snp =>
    simp only [ok_bind]
    cases snp.version.version with
    | some a =>
      simp only [pure_eq_ok, ok_bind, squashedAlong_eq]
      cases w.partitionsAlong (w.elementsFromThis a) <;> rfl
    | none =>
      cases w.entry.version.get with
      | error f => rfl
      | ok a =>
        simp only [pure_eq_ok, ok_bind, squashedAlong_eq]
        cases w.partitionsAlong (w.elementsFromThis a) <;> rfl

end Heap

namespace Sim

variable {w : Heap S P} {l : List Addr} {c : Chain S P}

theorem lookup (h : Sim w l c) (t : UInt32) :
    ∃ a v, w.lookup t = .ok a ∧ l[c.lookup t]? = some a ∧ w.versions a = some v ∧
      c.elems[c.lookup t]? = some v.toElem := by
  obtain ⟨head, tl, hv, -, rfl, hh, hhv, -⟩ := h.exists_head
  have hget : w.entry.version.get = .ok head := by simp only [PartitionVersionRef.get, hh]
  have hall : w.elementsFromThis head = head :: tl := h.elementsFromThis (nil_append _).symm
  suffices hs : ∃ a, w.lookup t = .ok a ∧ (head :: tl)[c.lookup t]? = some a by
    obtain ⟨a, ha, hi⟩ := hs
    obtain ⟨v, hv, he⟩ := h.get hi
    exact ⟨a, v, ha, hi, hv, he⟩
  unfold Heap.lookup Chain.lookup
  rw [hget, ok_bind]
  by_cases ht : t > 0
  · rw [if_pos ht, if_pos ht, hall, Heap.findVersion_eq h.elems]
    cases hf : c.elems.findIdx? fun e => decide (e.number ≤ t) with
    | none => exact ⟨head, rfl, rfl⟩
    | some i =>
      have hi : i < (head :: tl).length := by
        rw [h.length_eq]
        exact (findIdx?_eq_some_iff_findIdx_eq.1 hf).1
      have hia := getElem?_eq_getElem hi
      obtain ⟨v, hv, he⟩ := h.get hia
      simp only [Option.bind_some, hia, ok_bind, Heap.getVersion_of hv, he]
      by_cases hz : v.versionNumber = 0
      · rw [if_pos hz, if_pos (by exact hz)]
        exact ⟨head, rfl, rfl⟩
      · rw [if_neg hz, if_neg (by exact hz)]
        exact ⟨_, rfl, hia⟩
  · rw [if_neg ht, if_neg ht]
    exact ⟨head, rfl, rfl⟩

variable {s : SnapshotId} {snp : PartitionSnapshot S}

open Option (map_some some)

theorem snapshots_eq (h : Sim w l c) (hs : w.snapshots s = some snp) : c.snapshots s = some snp.toSnap := by
  rw [← h.snaps s, hs, map_some]

theorem snapshots_none (h : Sim w l c) (hs : w.snapshots s = none) : c.snapshots s = none := by
  rw [← h.snaps s, hs, Option.map_none]

theorem snaps_update (h : Sim w l c) (s : SnapshotId) (snp : Option (PartitionSnapshot S)) (t : SnapshotId) :
    (Function.update w.snapshots s snp t).map PartitionSnapshot.toSnap =
      Function.update c.snapshots s (snp.map PartitionSnapshot.toSnap) t := by
  by_cases ht : t = s
  · subst ht
    rw [update_self, update_self]
  · rw [update_of_ne ht, update_of_ne ht, h.snaps]

theorem recount (h : Sim w l c) (hs : w.snapshots s = some snp) {n : Nat} (pos : 0 < n) :
    Sim (w.putSnapshot s { snp with useCount := n }) l
      { c with snapshots := Function.update c.snapshots s (some { snp.toSnap with useCount := n }) } :=
  { h with
    last := h.last.congr rfl (Nat.le_refl _) fun _ _ ha => ha
    snaps := h.snaps_update s (some { snp with useCount := n })
    pins := h.pins.recount hs pos }

open Heap (elem?_of getSnapshot getVersion)

variable {v : PartitionVersion P}

theorem pin (h : Sim w l c) {i : Nat} {a : Addr} (hi : l[i]? = some a)
    (hv : w.versions a = some v) (unpinned : v.snapshot = none) (schema : S) (phase : UInt64) :
    Sim { w with
        versions := Function.update w.versions a (some { v with snapshot := some w.nextSnapshot })
        snapshots := Function.update w.snapshots w.nextSnapshot
          (some { schema, version := { version := some a }, phase, useCount := 1 })
        nextSnapshot := w.nextSnapshot + 1 } l
      { c with
        elems := c.elems.set i { v.toElem with snapshot := some c.nextSnapshot }
        snapshots := Function.update c.snapshots c.nextSnapshot (some { schema, phase, useCount := 1 })
        nextSnapshot := c.nextSnapshot + 1 } := by
  have ha : a ∈ l := mem_of_getElem? hi
  rw [← h.next]
  refine h.update hv (h.map_update hi _)
    (h.snaps_update w.nextSnapshot _) rfl ?_ (show v.backref = _ from h.backrefs hv) fun _ => rfl
  exact h.pins.pin (elem?_of hv) unpinned ha (h.allocated_lt hv) rfl Nat.one_pos

theorem noteRead (h : Sim w l c) (t : UInt32) : Sim (w.noteRead t) l (c.noteRead t) :=
  h.counters (h.last.congr rfl (Nat.le_refl _) fun _ _ ha => ha) (by rw [h.hvr]) h.hvw h.num

variable {a : Addr}

theorem takeSnapshot (h : Sim w l c) {i : Nat} (hi : l[i]? = some a)
    (hv : w.versions a = some v) (he : c.elems[i]? = some v.toElem) (entrySchema : S) (phase : UInt64) :
    ∃ w' s c', w.takeSnapshot entrySchema phase a = .ok (w', s) ∧
      c.takeSnapshot entrySchema phase i = .ok (c', .snapshot s v.versionNumber v.partition) ∧ Sim w' l c' ∧
      ∃ snp v', w'.snapshots s = some snp ∧ snp.version.version = some a ∧ w'.versions a = some v' ∧
        v'.versionNumber = v.versionNumber ∧ v'.partition = v.partition := by
  unfold Heap.takeSnapshot Chain.takeSnapshot
  rw [Heap.getVersion_of hv, ok_bind, he]
  cases hvs : v.snapshot with
  | some s =>
    obtain ⟨snp, hs, hsv⟩ := h.pins.pinned (elem?_of hv) hvs
    have hes : v.toElem.snapshot = some s := hvs
    simp only [getSnapshot, hs, ok_bind, hes, h.snapshots_eq hs]
    exact ⟨_, s, _, rfl, rfl, h.recount hs (Nat.succ_pos _), _, v, update_self .., hsv, hv, rfl, rfl⟩
  | none =>
    have hes : v.toElem.snapshot = none := hvs
    simp only [Heap.putSnapshot, Heap.modifyVersion, getVersion, hv, ok_bind, pure_eq_ok, hes, ← h.next]
    refine ⟨_, _, _, rfl, rfl, ?_, _, _, update_self .., rfl, update_self .., rfl, rfl⟩
    rw [h.next]
    have := h.pin hi hv hvs entrySchema phase
    rwa [h.next] at this

variable [PartitionOps S V P]

section

variable (h : Sim w l c)
include h

/-- `read` no longer sets the entry's own `_snapshot`, so `open_version` never adds a version. -/
theorem openVersion (s : S) (phase : UInt64) : w.openVersion s phase = .ok w := by
  simp only [Heap.openVersion, h.unset]

theorem read (entrySchema : S) (phase : UInt64) (t : UInt32) : Agree (SameAnswer fun w' c' => Sim w' l c')
      (w.step (.read entrySchema phase t)) (c.step (.read entrySchema phase t)) := by
  obtain ⟨a, v, hlook, hi, hv, he⟩ := (h.noteRead t).lookup t
  obtain ⟨w', s, c', hw, hc, hs, snp, v', hsnp, hsv, hv', hn, hp⟩ :=
    (h.noteRead t).takeSnapshot hi hv he entrySchema phase
  have hanswer : w'.snapshotVersion s = .ok v' := by
    simp only [Heap.snapshotVersion, getSnapshot, hsnp, ok_bind, PartitionVersionRef.get, hsv,
      Heap.getVersion_of hv']
  have hc' : c.read entrySchema phase t = .ok (c', .snapshot s v.versionNumber v.partition) := hc
  simp only [Heap.step, Heap.read, Chain.step, h.openVersion, ok_bind, hlook, hw, hanswer, hn, hp, hc']
  exact .ok ⟨rfl, hs⟩

section

variable (hs : w.snapshots s = some snp)
include hs

section

variable (hsv : snp.version.version = some a)
include hsv

theorem snapshot_iff {b : Addr} {e : Elem P} (hb : w.elem? b = some e) : e.snapshot = some s ↔ b = a := by
  constructor
  · intro hes
    obtain ⟨snp', hs', hv'⟩ := h.pins.pinned hb hes
    obtain rfl : snp = snp' := some.inj (hs.symm.trans hs')
    exact some.inj (hv'.symm.trans hsv)
  · rintro rfl
    exact h.pins.inj hb hs hsv

/-- A snapshot on a listed version covers the chain from there on. -/
theorem covered_of_mem {xs ys : List Addr} (hl : l = xs ++ a :: ys) :
    ∃ e es, c.covered s = e :: es ∧ w.elem? a = some e ∧ ys.map w.elem? = es.map some := by
  obtain ⟨es, e, fs, hc, hes, he, hfs⟩ := h.split_elems hl
  refine ⟨e, fs, ?_, he, hfs⟩
  have hnot : ∀ e' ∈ es, decide (e'.snapshot ≠ some s) = true := by
    intro e' he'
    obtain ⟨b, hb, hbe⟩ := mem_map.1 (hes ▸ mem_map_of_mem he')
    have hba : b ≠ a := by
      rintro rfl
      have hnd := hl ▸ h.chain.nodup
      exact (nodup_middle.1 hnd).notMem (mem_append_left _ hb)
    simpa using fun hes' => hba ((h.snapshot_iff hs hsv hbe).1 hes')
  have hyes := (h.snapshot_iff hs hsv he).2 rfl
  rw [Chain.covered, hc, dropWhile_append_of_pos hnot, dropWhile_cons_of_neg (by simp [hyes])]

/-- A snapshot on a version that is not listed covers nothing of the chain. -/
theorem covered_of_notMem (hl : a ∉ l) : c.covered s = [] := by
  rw [Chain.covered, dropWhile_eq_nil_iff]
  intro e he
  obtain ⟨b, hb, hbe⟩ := mem_map.1 (h.elems ▸ mem_map_of_mem he)
  simpa using fun hes => hl ((h.snapshot_iff hs hsv hbe).1 hes ▸ hb)

/-- What is left of a snapshot's version: a place in the list, a partition of its own, or nothing. -/
theorem detached_eq (hl : a ∉ l) : c.detached s = (w.elem? a).map Elem.partition := by
  cases he : w.elem? a with
  | some e => exact h.pins.alone hs hsv he hl
  | none =>
    by_contra hne
    obtain ⟨p, hp⟩ := Option.ne_none_iff_exists'.1 hne
    obtain ⟨snp', b, e, hs', hsv', hb, -⟩ := h.pins.detached hp
    obtain rfl : snp = snp' := some.inj (hs.symm.trans hs')
    obtain rfl : a = b := some.inj (hsv.symm.trans hsv')
    rw [he] at hb
    cases hb

/-- The version of a snapshot is allocated exactly if it is listed or detached. -/
theorem allocated_iff :
    ((∃ e ∈ c.elems, e.snapshot = some s) ∨ (c.detached s).isSome) ↔ ∃ v, w.versions a = some v := by
  have hlisted : (∃ e ∈ c.elems, e.snapshot = some s) ↔ a ∈ l := by
    constructor
    · rintro ⟨e, he, hes⟩
      obtain ⟨b, hb, hbe⟩ := mem_map.1 (h.elems ▸ mem_map_of_mem he)
      exact (h.snapshot_iff hs hsv hbe).1 hes ▸ hb
    · intro ha
      obtain ⟨xs, ys, hl⟩ := append_of_mem ha
      obtain ⟨es, e, fs, hc, -, he, -⟩ := h.split_elems hl
      exact ⟨e, by simp [hc], (h.snapshot_iff hs hsv he).2 rfl⟩
  rw [hlisted]
  by_cases hl : a ∈ l
  · exact ⟨fun _ => h.allocated hl, fun _ => .inl hl⟩
  · rw [h.detached_eq hs hsv hl, Option.isSome_map]
    simp only [hl, false_or, Option.isSome_iff_exists, Heap.elem?_eq_some]
    exact ⟨fun ⟨_, v, hv, _⟩ => ⟨v, hv⟩, fun ⟨v, hv⟩ => ⟨_, v, hv, rfl⟩⟩

end

end

/-- The last handle of a snapshot on an allocated version goes. -/
theorem unpin {s : SnapshotId} {snp : PartitionSnapshot S} (hs : w.snapshots s = some snp)
    {a : Addr} (hsv : snp.version.version = some a) (hv : w.versions a = some v) :
    Sim { w with
        versions := Function.update w.versions a (some { v with snapshot := none, backref := none })
        snapshots := Function.update w.snapshots s none } l
      { c with
        elems := c.elems.map (Chain.unpin s)
        snapshots := Function.update c.snapshots s none
        detached := Function.update c.detached s none
        registered := c.registered && !c.onHead s } := by
  have hea := elem?_of hv
  have helems : l.map (Function.update w.elem? a (some { v.toElem with snapshot := none })) =
      (c.elems.map (Chain.unpin s)).map some := by
    have hpt : ∀ b ∈ l, Function.update w.elem? a (some { v.toElem with snapshot := none }) b =
        (w.elem? b).map (Chain.unpin s) := by
      intro b hb
      obtain ⟨u, hu⟩ := h.allocated hb
      have heb := elem?_of hu
      by_cases hba : b = a
      · subst hba
        have := (h.snapshot_iff hs hsv hea).2 rfl
        rw [update_self, hea, map_some, Chain.unpin, if_pos this]
      · rw [update_of_ne hba, heb, map_some, Chain.unpin,
          if_neg fun hc => hba ((h.snapshot_iff hs hsv heb).1 hc)]
    calc l.map (Function.update w.elem? a (some { v.toElem with snapshot := none }))
        = l.map fun b => (w.elem? b).map (Chain.unpin s) := map_congr_left hpt
      _ = (l.map w.elem?).map (Option.map (Chain.unpin s)) := by rw [map_map]; rfl
      _ = (c.elems.map (Chain.unpin s)).map some := by rw [h.elems]; simp
  have honHead : c.onHead s = decide (l.head? = some a) := by
    obtain ⟨b, tl, u, es, rfl, -, hu, hc⟩ := h.exists_head
    have := h.snapshot_iff hs hsv (elem?_of hu)
    simp only [Chain.onHead, hc, Option.any_some, head?_cons, some.injEq, this]
  refine h.update hv helems (h.snaps_update s none) h.next ?_ ?_ ?_
  · exact h.pins.unpin hea hs hsv
  · rw [honHead]
    by_cases hh : l.head? = some a <;> simp [hh]
  · intro hh
    simp [honHead, hh]

theorem drop (s : SnapshotId) : Agree (fun w' c' => Sim w' l c') (w.dropSnapshot s) (c.drop s) := by
  unfold Heap.dropSnapshot Chain.drop
  cases hs : w.snapshots s with
  | none =>
    rw [h.snapshots_none hs]
    simp only [getSnapshot, hs, error_bind]
    exact .error
  | some snp =>
    simp only [getSnapshot, hs, ok_bind, h.snapshots_eq hs, pure_eq_ok]
    by_cases hu : snp.useCount > 1
    · rw [if_pos hu, if_pos (by exact hu)]
      exact .ok (h.recount hs (by omega))
    · rw [if_neg hu, if_neg (by exact hu)]
      obtain ⟨-, a, -, hsv, -⟩ := h.pins.holds hs
      have hreach := h.allocated_iff hs hsv
      simp only [hsv, Heap.releaseRef]
      cases hv : w.versions a with
      | none =>
        rw [if_neg (by rw [hreach, hv]; simp)]
        simp only [Heap.modifyVersion, getVersion, hv, error_bind]
        exact .error
      | some v =>
        rw [if_pos (hreach.2 ⟨v, hv⟩)]
        simp only [Heap.modifyVersion, getVersion, hv, ok_bind, pure_eq_ok, update_self, update_idem]
        exact .ok (h.unpin hs hsv hv)

theorem snapshotVersions (s : SnapshotId) : w.snapshotVersions s = c.snapshotVersions s := by
  unfold Heap.snapshotVersions Chain.snapshotVersions
  cases hs : w.snapshots s with
  | none =>
    rw [h.snapshots_none hs]
    simp only [getSnapshot, hs, error_bind]
  | some snp =>
    obtain ⟨-, a, hlt, hsv, -⟩ := h.pins.holds hs
    simp only [getSnapshot, hs, ok_bind, h.snapshots_eq hs, hsv, pure_eq_ok]
    by_cases hl : a ∈ l
    · obtain ⟨xs, ys, hl⟩ := append_of_mem hl
      obtain ⟨e, es, hcov, he, hes⟩ := h.covered_of_mem hs hsv hl
      have covered : (a :: ys).map w.elem? = (e :: es).map some := by rw [map_cons, he, hes, map_cons]
      rw [h.elementsFromThis hl, hcov, Heap.partitionsAlong_eq covered]
      rfl
    · rw [h.covered_of_notMem hs hsv hl, h.detached_eq hs hsv hl]
      -- there is fuel for one element at least, since `a` was allocated at some time
      obtain ⟨n, hn⟩ : ∃ n, w.brk = n + 1 := Nat.exists_eq_succ_of_ne_zero (Nat.ne_zero_of_lt hlt)
      have hwalk : w.elementsFromThis a = a :: w.links.elementsFrom n (w.links a).next := by
        rw [Heap.elementsFromThis, hn, Links.elementsFrom]
      cases he : w.elem? a with
      | none =>
        rw [hwalk, Heap.partitionsAlong_cons, getVersion, Option.map_eq_none_iff.1 he]
        rfl
      | some e =>
        have hend : w.links.elementsFrom n none = [] := by cases n <;> rfl
        obtain ⟨v, hv, -⟩ := Heap.elem?_eq_some.1 he
        have alone : [a].map w.elem? = [e].map some := by rw [map_singleton, he, map_singleton]
        rw [hwalk, h.unlisted hv hl, hend, Heap.partitionsAlong_eq alone]
        rfl

theorem squashed (s : SnapshotId) : w.squashed s = c.squashed s := by
  rw [Heap.squashed_eq, h.snapshotVersions, Chain.squashed]

end

end Sim

end ScyllaMoon.Mvcc
