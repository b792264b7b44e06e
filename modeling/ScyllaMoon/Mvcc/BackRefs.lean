import ScyllaMoon.Mvcc.Transition
import ScyllaMoon.Mvcc.Usertable

/-!
# References to versions

A version knows the `partition_version_ref` that owns it (`_backref`) and the snapshot on it
(`_snapshot`). The reference inside a snapshot is built by the constructor that does not register it,
but its destructor clears the back reference all the same. So the newest version keeps its back
reference to the entry as long as no snapshot on it is destroyed while it is the newest.
-/

namespace ScyllaMoon.Mvcc

open Lib

variable {S V P : Type}

namespace Heap

/-- The newest version is registered with the entry and no version with anything else, and a version
points to a snapshot exactly if that snapshot is live and holds it. -/
structure RefsConsistent (w : Heap S P) : Prop where
  head : ∃ a v, w.entry.version.version = some a ∧ w.versions a = some v ∧ v.backref = some (.ofEntry w.self)
  snapshot : ∀ {a v}, w.versions a = some v → ∀ s, v.snapshot = some s ↔
    ∃ snp, w.snapshots s = some snp ∧ snp.version.version = some a
  unique : ∀ {a v r}, w.versions a = some v → v.backref = some r →
    r = .ofEntry w.self ∧ w.entry.version.version = some a

/-- The request destroys no snapshot of the newest version. -/
def KeepsHeadRef (w : Heap S P) : Op S V P → Prop
  | .drop s => ∀ snp, w.snapshots s = some snp → snp.useCount ≤ 1 → snp.version.version ≠ w.entry.version.version
  | _ => True

end Heap

namespace Sim

variable {w : Heap S P} {l : List Addr} {c c' : Chain S P}

theorem refsConsistent (h : Sim w l c) (registered : c.registered = true) : w.RefsConsistent := by
  constructor
  · obtain ⟨a, tl, v, -, hl, hh, hv, -⟩ := h.exists_head
    refine ⟨a, v, hh, hv, ?_⟩
    rw [h.backrefs hv, if_pos ⟨registered, by rw [hl]; rfl⟩]
  · intro a v hv s
    constructor
    · exact h.pins.pinned (Heap.elem?_of hv)
    · rintro ⟨snp, hs, ha⟩
      exact h.pins.inj (Heap.elem?_of hv) hs ha
  · intro a v r hv hr
    rw [h.backrefs hv] at hr
    split at hr
    next hh =>
      cases hr
      exact ⟨rfl, h.head.trans hh.2⟩
    · cases hr

/-- The last handle to a snapshot that the condition admits is not on the newest version. -/
theorem onHead_eq_false (h : Sim w l c) {s : SnapshotId} {snp : Snap S} (live : c.snapshots s = some snp)
    (last : ¬1 < snp.useCount) (keeps : w.KeepsHeadRef (.drop s : Op S V P)) : c.onHead s = false := by
  obtain ⟨a, tl, v, es, hl, hh, hv, hc⟩ := h.exists_head
  rw [Chain.onHead, hc, List.head?_cons, Option.any_some, decide_eq_false_iff_not]
  intro hs
  obtain ⟨snp', hs', ha⟩ := h.pins.pinned (Heap.elem?_of hv) hs
  have hsnap := h.snaps s
  rw [hs', live, Option.map_some, Option.some.injEq] at hsnap
  refine keeps snp' hs' ?_ (ha.trans hh.symm)
  rw [← hsnap] at last
  exact Nat.not_lt.1 last

variable [PartitionOps S V P]

/-- One request that meets the condition leaves the newest version registered. -/
theorem registered_step (h : Sim w l c) {op : Op S V P} {o : Answer P} (ht : Chain.Transition c op c' o)
    (keeps : w.KeepsHeadRef op) (registered : c.registered = true) : c'.registered = true := by
  cases ht with
  | unpin live last =>
    rw [registered, h.onHead_eq_false live last keeps]
    rfl
  | collect kept written full collects =>
    rw [collects.eq]
    rfl
  | store | add | upgrade => rfl
  | share | pin | release | squash | reject | apply | incomplete => exact registered

end Sim

/-- In a run that destroys no snapshot of the newest version, the references are consistent in every state. -/
theorem refs_consistent [PartitionOps S V P] (e : EntryAddr) (mp : P) {tr : List (Op S V P × Answer P)} {w : Heap S P}
    (run : Run Heap.step (fun _ w op => w.KeepsHeadRef op) (Heap.ofPartition e mp) tr w) : w.RefsConsistent := by
  obtain ⟨l, c, sim, registered⟩ := Sim.run (fun _ _ c => c.registered = true) (Sim.ofPartition e mp) rfl
    (fun _ _ _ _ _ _ _ _ _ sim registered keeps h _ _ => sim.registered_step h keeps registered) run
  exact sim.refsConsistent registered

theorem refs_consistent_after_write : (entryAfter [readAt 0, put 1 0 7, .drop 0]).RefsConsistent := by
  have keeps : (entryAfter [readAt 0, put 1 0 7]).KeepsHeadRef (.drop 0 : UsertableOp) := by
    intro snp hs _
    cases hs
    decide
  have run : Run Heap.step (fun _ w op => w.KeepsHeadRef op) newEntry _ (entryAfter [readAt 0, put 1 0 7]) :=
    .snoc (.snoc .init (i := readAt 0) trivial rfl) (i := put 1 0 7) trivial rfl
  exact refs_consistent 0 _ (run.snoc keeps
    (show Heap.step _ _ = .ok (entryAfter [readAt 0, put 1 0 7, .drop 0], .done) from rfl))

/-- Dropping a snapshot of the newest version clears the entry's registration. -/
theorem head_ref_lost : ∃ tr w, Run Heap.step (fun _ _ _ => True) newEntry tr w ∧ ¬w.RefsConsistent := by
  refine ⟨_, entryAfter [readAt 0, .drop 0],
    .snoc (.snoc .init (i := readAt 0) trivial rfl) (i := .drop 0) trivial rfl, fun consistent => ?_⟩
  obtain ⟨a, v, ha, hv, hb⟩ := consistent.head
  cases ha
  cases hv
  cases hb

end ScyllaMoon.Mvcc
