import ScyllaMoon.Mvcc.Alike
import ScyllaMoon.Mvcc.Usertable

/-!
# Schema upgrades

`partition_entry::upgrade` squashes the chain into one fresh version and frees the old ones. The fresh
version has number 0, `last_version` still points to a freed version and the counters stay. So an
upgrade does not show only where there is nothing to squash: a chain of one unpinned version numbered
0 that `last_version` does not point to.
-/

namespace ScyllaMoon.Mvcc

open Lib

variable {S V P : Type} [PartitionOps S V P]

/-- The upgrade meets a chain of one unpinned version, numbered 0 and not `last_version`, and a schema that
keeps its columns. -/
def Heap.UpgradesBase (w : Heap S P) : Op S V P → Prop
  | .upgrade fromSchema toSchema => ∃ a v, w.chain = [a] ∧ w.versions a = some v ∧ v.versionNumber = 0 ∧
      v.snapshot = none ∧ w.entry.lastVersion ≠ some a ∧
      PartitionOps.apply toSchema (freshLike toSchema v.partition) v.partition fromSchema = v.partition
  | _ => True

/-- The request and its answer, unless it is an upgrade. -/
def Op.unlessUpgrade : Op S V P × Answer P → Option (Op S V P × Answer P)
  | (.upgrade _ _, _) => none
  | p => some p

variable {fromSchema toSchema : S}

/-- There is nothing to squash in a chain of one version. -/
theorem Chain.upgrade_base {c : Chain S P} {p : P}
    (elems : c.elems = [{ number := 0, partition := p }]) (last : c.last.free = c.last)
    (keeps : PartitionOps.apply toSchema (freshLike toSchema p) p fromSchema = p) :
    c.upgrade fromSchema toSchema = .ok { c with registered := true } := by
  have hup : c.upgraded fromSchema toSchema p = p := by
    rw [Chain.upgraded, Chain.partitions, elems]
    exact keeps
  rw [Chain.upgrade, elems]
  simp only [hup, last, ← elems]

theorem Sim.upgradesBase {w w' : Heap S P} {l : List Addr} {c : Chain S P} (h : Sim w l c)
    {o : Answer P} (base : w.UpgradesBase (.upgrade fromSchema toSchema : Op S V P))
    (hs : w.step (.upgrade fromSchema toSchema) = .ok (w', o)) : ∃ l' b, Sim w' l' { c with registered := b } := by
  obtain ⟨a, v, hchain, hv, number, unpinned, notLast, keeps⟩ := base
  rw [h.chain_eq] at hchain
  subst hchain
  have helem : c.elems = [{ number := 0, partition := v.partition }] := by
    obtain ⟨e, he⟩ := List.length_eq_one_iff.1 h.length_eq.symm
    have hall := h.elems
    rw [he, List.map_singleton, Heap.elem?_of hv, PartitionVersion.toElem, number, unpinned, List.map_singleton] at hall
    rw [he, Option.some.inj (List.cons.inj hall).1]
  have hlast : c.last.free = c.last := by
    have hat := h.last
    cases hcl : c.last with
    | null | dangling => rfl
    | idx i =>
      rw [hcl] at hat
      obtain ⟨x, hx, hi⟩ := hat
      rw [List.mem_singleton.1 (List.mem_of_getElem? hi)] at hx
      exact absurd hx notLast
  have hag := h.step (.upgrade fromSchema toSchema)
  rw [hs, Chain.step, Chain.upgrade_base helem hlast keeps] at hag
  obtain ⟨⟨c', o'⟩, hc, -, l', -, hs'⟩ := hag.of_ok
  cases hc
  exact ⟨l', true, hs'⟩

/-- Requests interleaved with upgrades of a base version alone are answered as they would be without the
upgrades, and so is every request that comes next. -/
theorem upgrade_transparent (e : EntryAddr) (mp : P) {tr : List (Op S V P × Answer P)} {w : Heap S P}
    (run : Run Heap.step (fun _ w op => w.UpgradesBase op) (Heap.ofPartition e mp) tr w) :
    ∃ w₂, Run Heap.step (fun _ _ _ => True) (Heap.ofPartition e mp) (tr.filterMap Op.unlessUpgrade) w₂ ∧
      ∀ op : Op S V P, answer (w.step op) = answer (w₂.step op) := by
  have start : (Heap.ofPartition e mp : Heap S P).Alike (Heap.ofPartition e mp) := Heap.alike_refl (Sim.ofPartition e mp)
  obtain ⟨w₂, run₂, alike⟩ := run.visible Heap.step Heap.Alike Op.unlessUpgrade
    (fun _ w op w' o w₂ base hs h silent => by
      cases op with
      | upgrade fromSchema toSchema => exact h.of_sim fun l c sim => sim.upgradesBase base hs
      | _ => cases silent)
    (fun _ w op w' o w₂ op' o' _ hs h shown => by
      cases op with
      | upgrade => cases shown
      | _ =>
        cases shown
        exact h.step_ok hs)
    start
  exact ⟨w₂, run₂, fun op => (alike.step op).answer_eq⟩

/-- The next version of the table's schema, with the same columns. -/
def usertable2 : Mutation.TableSchema :=
  { usertable with version := 2 }

theorem upgrade_transparent_between : ∃ w₂, Run Heap.step (fun _ _ _ => True) newEntry
      [(readAt 0, .snapshot 0 0 {}), (.drop 0, .done), (put 1 0 7, .write ⟨true, 1⟩)] w₂ ∧ ∀ op : UsertableOp,
      answer ((entryAfter [readAt 0, .drop 0, .upgrade usertable usertable2, put 1 0 7]).step op) = answer (w₂.step op) := by
  have read : Run Heap.step (fun _ w op => w.UpgradesBase op) newEntry _ (entryAfter [readAt 0, .drop 0]) :=
    .snoc (.snoc .init (i := readAt 0) trivial rfl) (i := (.drop 0 : UsertableOp)) trivial rfl
  have run : Run Heap.step (fun _ w op => w.UpgradesBase op) newEntry _
      (entryAfter [readAt 0, .drop 0, .upgrade usertable usertable2, put 1 0 7]) :=
    .snoc (.snoc read (i := (.upgrade usertable usertable2 : UsertableOp)) ⟨0, _, rfl, rfl, rfl, rfl, nofun, by decide⟩ rfl)
      (i := put 1 0 7) trivial rfl
  exact upgrade_transparent 0 _ run

/-- After an upgrade a read at version 1 no longer finds the write numbered 1. -/
theorem upgrade_loses_number : servedNumber (answer ((entryAfter [put 1 0 7]).step (readAt 1))) = some 1 ∧
      servedNumber (answer ((entryAfter [put 1 0 7, .upgrade usertable usertable2]).step (readAt 1))) = some 0 :=
  ⟨rfl, rfl⟩

end ScyllaMoon.Mvcc
