import ScyllaMoon.Lib.Run
import ScyllaMoon.Mvcc.Sim.Pins

/-!
# The heap is the list

`Sim w l c` relates a heap `w` to the list model `c`: `l` is the chain of addresses, newest first,
and every field of `c` is what `w` stores along it. The relation holds of a new entry, and each
operation either faults on both sides with the same fault or keeps it (`sim_step`). The invariants
that make the pointer code meaningful are part of it: a live snapshot and the version it pins point
at each other, the entry's own `_snapshot` is null, and no version other than the newest is
registered with a reference.
-/

namespace ScyllaMoon.Mvcc

open Lib Function List Option

variable {S V P : Type}

def PartitionVersion.toElem (v : PartitionVersion P) : Elem P where
  number := v.versionNumber
  partition := v.partition
  snapshot := v.snapshot

def PartitionSnapshot.toSnap (s : PartitionSnapshot S) : Snap S where
  schema := s.schema
  phase := s.phase
  useCount := s.useCount

/-- The versions without their back references. -/
def Heap.elem? (w : Heap S P) : Addr → Option (Elem P) :=
  Option.map PartitionVersion.toElem ∘ w.versions

/-- `last_version` of `w` is at the place `last` of the chain `l`. -/
def LastAt (w : Heap S P) (l : List Addr) : LastVersion → Prop
  | .null => w.entry.lastVersion = none
  | .dangling => ∃ a, w.entry.lastVersion = some a ∧ a < w.brk ∧ w.versions a = none
  | .idx i => ∃ a, w.entry.lastVersion = some a ∧ l[i]? = some a

/-- The heap `w`, with the chain `l`, stores the list model `c`. -/
structure Sim (w : Heap S P) (l : List Addr) (c : Chain S P) : Prop where
  chain : w.links.IsChain l
  nonempty : l ≠ []
  head : w.entry.version.version = l.head?
  unset : w.entry.snapshot = none
  fresh : ∀ {a}, w.brk ≤ a → w.versions a = none
  elems : l.map w.elem? = c.elems.map some
  last : LastAt w l c.last
  hvr : w.entry.highestVersionRead = c.highestVersionRead
  hvw : w.entry.highestVersionWritten = c.highestVersionWritten
  num : w.entry.numVersions = c.numVersions
  snaps : ∀ s, (w.snapshots s).map PartitionSnapshot.toSnap = c.snapshots s
  next : w.nextSnapshot = c.nextSnapshot
  pins : Pins w.elem? w.snapshots w.brk w.nextSnapshot l c.detached
  unlisted : ∀ {a v}, w.versions a = some v → a ∉ l → w.links a = {}
  backrefs : ∀ {a v}, w.versions a = some v →
    v.backref = if c.registered ∧ l.head? = some a then some (.ofEntry w.self) else none

variable {l : List Addr}

/-- A pointer stays where it is when no freed version comes back. -/
theorem LastAt.congr {w w' : Heap S P} {last : LastVersion} (h : LastAt w l last)
    (same : w'.entry.lastVersion = w.entry.lastVersion) (grow : w.brk ≤ w'.brk)
    (freed : ∀ a, a < w.brk → w.versions a = none → w'.versions a = none) : LastAt w' l last := by
  cases last with
  | null => exact same.trans h
  | dangling =>
    obtain ⟨a, ha, hlt, hva⟩ := h
    exact ⟨a, same.trans ha, Nat.lt_of_lt_of_le hlt grow, freed a hlt hva⟩
  | idx i =>
    obtain ⟨a, ha, hi⟩ := h
    exact ⟨a, same.trans ha, hi⟩

theorem LastAt.push {w : Heap S P} {last : LastVersion} {new : Addr} (h : LastAt w l last) :
    LastAt w (new :: l) last.push := by
  cases last <;> exact h

namespace Heap

variable {w : Heap S P} {a : Addr} {v : PartitionVersion P}

theorem elem?_of (h : w.versions a = some v) : w.elem? a = some v.toElem := by
  rw [elem?, comp, h, Option.map_some]

theorem elem?_eq_some {e : Elem P} : w.elem? a = some e ↔ ∃ v, w.versions a = some v ∧ v.toElem = e :=
  Option.map_eq_some_iff

variable (h : w.versions a = some v)
include h

@[simp] theorem getVersion_of : w.getVersion a = .ok v := by
  rw [getVersion, h]

@[simp] theorem deref_of : w.deref (some a) = .ok a := by
  simp only [deref, h]

theorem modifyVersion_of (f : PartitionVersion P → PartitionVersion P) :
    w.modifyVersion a f = .ok { w with versions := update w.versions a (some (f v)) } := by
  simp [modifyVersion, h]

end Heap

namespace Sim

variable {w : Heap S P} {l : List Addr} {c : Chain S P}

variable {a : Addr}

section

variable (h : Sim w l c)
include h

theorem allocated_lt {v : PartitionVersion P} (hv : w.versions a = some v) : a < w.brk := by
  by_contra hlt
  have := h.fresh (Nat.not_lt.1 hlt)
  rw [hv] at this
  cases this

/-- What the list model stores at a position is the version at that address. -/
theorem get {i : Nat} (ha : l[i]? = some a) : ∃ v, w.versions a = some v ∧ c.elems[i]? = some v.toElem := by
  have hi : (l.map w.elem?)[i]? = (c.elems.map some)[i]? := by rw [h.elems]
  rw [getElem?_map, getElem?_map, ha, map_some] at hi
  obtain ⟨e, he, hw⟩ := map_eq_some_iff.1 hi.symm
  obtain ⟨v, hv, rfl⟩ := Heap.elem?_eq_some.1 hw.symm
  exact ⟨v, hv, he⟩

theorem length_eq : l.length = c.elems.length := by
  have := congrArg length h.elems
  simpa using this

theorem allocated (ha : a ∈ l) : ∃ v, w.versions a = some v := by
  obtain ⟨i, hi⟩ := mem_iff_getElem?.1 ha
  obtain ⟨v, hv, -⟩ := h.get hi
  exact ⟨v, hv⟩

theorem brk_notMem : w.brk ∉ l := fun hm => by
  obtain ⟨v, hv⟩ := h.allocated hm
  exact Nat.lt_irrefl _ (h.allocated_lt hv)

theorem length_le : l.length ≤ w.brk := by
  have hs : l ⊆ range w.brk := fun a ha => by
    obtain ⟨v, hv⟩ := h.allocated ha
    exact mem_range.2 (h.allocated_lt hv)
  simpa using (subperm_of_subset h.chain.nodup hs).length_le

/-- The fuel of the traversals always reaches the end of the chain. -/
theorem chain_eq : w.chain = l := by
  rw [Heap.chain, h.head]
  exact h.chain.seg.elementsFrom h.length_le

theorem elementsFromThis {xs ys : List Addr} (hl : l = xs ++ a :: ys) : w.elementsFromThis a = a :: ys := by
  have hle := h.length_le
  have hc := h.chain
  subst hl
  exact hc.elementsFrom (by simp at hle ⊢; omega)

end

end Sim

namespace Sim

variable {w : Heap S P} {l : List Addr} {c : Chain S P}

variable {a : Addr} {v : PartitionVersion P}

theorem ofPartition_versions {e : EntryAddr} {mp : P} (h : (Heap.ofPartition e mp : Heap S P).versions a = some v) :
    a = 0 ∧ v = { partition := mp, backref := some (.ofEntry e) } := by
  simp only [Heap.ofPartition] at h
  by_cases h0 : a = 0
  · rw [h0, update_self, some.injEq] at h
    exact ⟨h0, h.symm⟩
  · rw [update_of_ne h0] at h
    cases h

theorem ofPartition (e : EntryAddr) (mp : P) :
    Sim (Heap.ofPartition e mp) [0] (Chain.ofPartition mp : Chain S P) where
  chain := ⟨⟨rfl, rfl, trivial⟩, by simp⟩
  nonempty := by simp
  head := rfl
  unset := rfl
  fresh {a} ha := by
    by_contra hne
    obtain ⟨v, hv⟩ := ne_none_iff_exists'.1 hne
    rw [(ofPartition_versions hv).1] at ha
    exact Nat.not_succ_le_zero 0 ha
  elems := rfl
  last := rfl
  hvr := rfl
  hvw := rfl
  num := rfl
  snaps _ := rfl
  next := rfl
  pins := by
    refine ⟨fun {a e s} ha hs => ?_, fun {s snp} h => ?_, fun {s snp a e} h => ?_, fun {s p} h => ?_, fun _ => rfl⟩
    · obtain ⟨v, hv, rfl⟩ := Heap.elem?_eq_some.1 ha
      rw [(ofPartition_versions hv).2] at hs
      cases hs
    all_goals cases h
  unlisted _ _ := rfl
  backrefs {a v} hv := by
    obtain ⟨rfl, rfl⟩ := ofPartition_versions hv
    rfl

/-- A split of the chain of addresses splits the list of versions. -/
theorem split_elems (h : Sim w l c) {xs ys : List Addr} (hl : l = xs ++ a :: ys) :
    ∃ es e fs, c.elems = es ++ e :: fs ∧ xs.map w.elem? = es.map some ∧ w.elem? a = some e ∧
      ys.map w.elem? = fs.map some := by
  have helems := h.elems
  rw [hl, map_append, map_cons, eq_comm, map_eq_append_iff] at helems
  obtain ⟨es, fs', hc, hes, hfs⟩ := helems
  obtain ⟨e, fs, rfl, he, hfs⟩ := map_eq_cons_iff.1 hfs
  exact ⟨es, e, fs, hc, hes.symm, he.symm, hfs.symm⟩

theorem exists_head (h : Sim w l c) : ∃ a tl v es, l = a :: tl ∧ w.entry.version.version = some a ∧
    w.versions a = some v ∧ c.elems = v.toElem :: es := by
  obtain ⟨a, tl, rfl⟩ := exists_cons_of_ne_nil h.nonempty
  obtain ⟨es, e, fs, hc, hes, he, -⟩ := h.split_elems (nil_append _).symm
  obtain rfl : es = [] := by simpa using hes.symm
  obtain ⟨v, hv, rfl⟩ := Heap.elem?_eq_some.1 he
  exact ⟨a, tl, v, fs, rfl, h.head, hv, hc⟩

/-- The counters and `last_version` change, the chain does not. -/
theorem counters (h : Sim w l c) {lv : Option Addr} {k : LastVersion} {r r' n n' m m' : UInt32}
    (hl : LastAt { w with entry := { w.entry with lastVersion := lv } } l k) (hr : r = r') (hn : n = n')
    (hm : m = m') :
    Sim { w with entry := { w.entry with
        lastVersion := lv, highestVersionRead := r, highestVersionWritten := n, numVersions := m } } l
      { c with last := k, highestVersionRead := r', highestVersionWritten := n', numVersions := m' } :=
  { h with last := by cases k <;> exact hl, hvr := hr, hvw := hn, num := hm }

theorem split {i : Nat} (ha : l[i]? = some a) : ∃ xs ys, l = xs ++ a :: ys ∧ xs.length = i := by
  obtain ⟨hi, rfl⟩ := List.getElem?_eq_some_iff.1 ha
  exact ⟨l.take i, l.drop (i + 1), by simp, by simp; omega⟩

/-- One version and the table of snapshots change, the chain does not. -/
theorem update (h : Sim w l c) {u : PartitionVersion P} (hv : w.versions a = some v)
    {snapshots' : SnapshotId → Option (PartitionSnapshot S)} {next' cnext' : SnapshotId} {elems' : List (Elem P)}
    {csnaps' : SnapshotId → Option (Snap S)} {detached' : SnapshotId → Option P} {registered' : Bool}
    (elems : l.map (update w.elem? a (some u.toElem)) = elems'.map some)
    (snaps : ∀ s, (snapshots' s).map PartitionSnapshot.toSnap = csnaps' s) (next : next' = cnext')
    (pins : Pins (update w.elem? a (some u.toElem)) snapshots' w.brk next' l detached')
    (backref : u.backref = if registered' ∧ l.head? = some a then some (.ofEntry w.self) else none)
    (others : l.head? ≠ some a → registered' = c.registered) :
    Sim { w with versions := update w.versions a (some u), snapshots := snapshots', nextSnapshot := next' } l
      { c with elems := elems', snapshots := csnaps', nextSnapshot := cnext', detached := detached',
               registered := registered' } := by
  have hel : Option.map PartitionVersion.toElem ∘ Function.update w.versions a (some u) =
      Function.update w.elem? a (some u.toElem) := Function.comp_update ..
  refine { h with fresh := fun {b} hb => ?_, elems := ?_, last := ?_, snaps, next, pins := ?_, unlisted := fun {b t} ht hb => ?_,
                  backrefs := fun {b t} ht => ?_ }
  · have hba : b ≠ a := fun e => Nat.lt_irrefl _ (Nat.lt_of_lt_of_le (h.allocated_lt hv) (e ▸ hb))
    exact (update_of_ne hba ..).trans (h.fresh hb)
  · simpa only [Heap.elem?, hel] using elems
  · refine h.last.congr rfl (Nat.le_refl _) fun b _ hvb => ?_
    have hba : b ≠ a := fun e => by rw [e, hv] at hvb; cases hvb
    exact (update_of_ne hba ..).trans hvb
  · simpa only [Heap.elem?, hel] using pins
  · by_cases hba : b = a
    · exact h.unlisted (hba ▸ hv) hb
    · exact h.unlisted ((update_of_ne hba ..).symm.trans ht) hb
  · by_cases hba : b = a
    · subst hba
      simp only [update_self, some.injEq] at ht
      exact ht ▸ backref
    · simp only [update_of_ne hba] at ht
      rw [h.backrefs ht]
      by_cases hh : l.head? = some a
      · have hb : l.head? ≠ some b := fun e => hba (some.inj (e.symm.trans hh))
        simp [hb]
      · rw [others hh]

/-- A listed version changes: so does its place in the list. -/
theorem map_update {i : Nat} (h : Sim w l c) (hi : l[i]? = some a) (e : Elem P) :
    l.map (Function.update w.elem? a (some e)) = (c.elems.set i e).map some := by
  obtain ⟨hlt, rfl⟩ := List.getElem?_eq_some_iff.1 hi
  rw [h.chain.nodup.map_update, if_pos (List.getElem_mem hlt), h.chain.nodup.idxOf_getElem, h.elems, List.map_set]

end Sim

end ScyllaMoon.Mvcc
