import ScyllaMoon.Lib.Register
import ScyllaMoon.Mvcc.Numbering

/-!
# A `partition_entry` as a register

As long as the collector has nothing to do, an entry that is only read and written is a register: its
chain is the versions of the register, behind them the version it was created with, and its counters
are those of the register. `payload` is what the caller wants to know of a partition.
-/

namespace ScyllaMoon.Mvcc

open Lib List

variable {S V P α : Type}

/-- The chain holds the versions of `r`, and behind them the version numbered 0. -/
structure Chain.Shows (payload : P → α) (c : Chain S P) (r : Register α) : Prop where
  elems : ∃ base, c.elems.map (fun e => (e.number.toNat, payload e.partition)) = r.versions ++ [(0, base)]
  positive : ∀ v ∈ r.versions, 0 < v.1
  written : c.highestVersionWritten.toNat = r.written
  read : c.highestVersionRead.toNat = r.read
  count : c.numVersions.toNat = r.versions.length

namespace Chain.Shows

variable {payload : P → α} {c c' : Chain S P} {r : Register α}

theorem ofPartition (payload : P → α) (mp : P) : (Chain.ofPartition mp : Chain S P).Shows payload .empty where
  elems := ⟨payload mp, rfl⟩
  positive := nofun
  written := rfl
  read := rfl
  count := rfl

/-- What does not touch numbers, partitions and counters does not show. -/
theorem congr (h : c.Shows payload r) (elems : c'.elems.map (fun e => (e.number.toNat, payload e.partition)) =
      c.elems.map fun e => (e.number.toNat, payload e.partition))
    (hvw : c'.highestVersionWritten = c.highestVersionWritten) (hvr : c'.highestVersionRead = c.highestVersionRead)
    (num : c'.numVersions = c.numVersions) : c'.Shows payload r where
  elems := by
    rw [elems]
    exact h.elems
  positive := h.positive
  written := hvw ▸ h.written
  read := hvr ▸ h.read
  count := num ▸ h.count

theorem noteRead (h : c.Shows payload r) (t : UInt32) : (c.noteRead t).Shows payload (r.note t.toNat) where
  elems := h.elems
  positive := h.positive
  written := h.written
  count := h.count
  read := by
    have hr := h.read
    simp only [Chain.noteRead, Register.note]
    split <;> rename_i lt <;> rw [gt_iff_lt, UInt32.lt_iff_toNat_lt] at lt <;> omega

/-- A read at `t` looks up what the register has there; at 0 it is the newest version. -/
theorem lookup (h : c.Shows payload r) {t : UInt32}
    (old : t = 0 ∧ r.versions ≠ [] ∨ t ≠ 0 ∧ ∃ v ∈ r.versions, v.1 ≤ t.toNat) {e : Elem P}
    (found : c.elems[c.lookup t]? = some e) :
    (t = 0 → r.versions.head? = some (e.number.toNat, payload e.partition)) ∧
      (t ≠ 0 → r.get t.toNat = some (e.number.toNat, payload e.partition)) := by
  obtain ⟨base, elems⟩ := h.elems
  rcases old with ⟨rfl, loaded⟩ | ⟨ht, v, hv, le⟩
  · refine ⟨fun _ => ?_, absurd rfl⟩
    have head := congrArg head? elems
    rw [head?_map, head?_eq_getElem?, show c.elems[0]? = some e from found] at head
    obtain ⟨u, us, hu⟩ := exists_cons_of_ne_nil loaded
    rw [hu] at head ⊢
    exact head.symm
  · refine ⟨fun h0 => absurd h0 ht, fun _ => ?_⟩
    obtain ⟨u, hu⟩ := Register.exists_get hv le
    have first : (c.elems.find? fun e => decide (e.number ≤ t)).map (fun e => (e.number.toNat, payload e.partition)) =
        some u := by
      have : (r.versions ++ [(0, base)]).find? (fun v => decide (v.1 ≤ t.toNat)) = some u :=
        find?_append.trans (by rw [show r.versions.find? _ = some u from hu]; rfl)
      rw [← elems, find?_map] at this
      simpa only [Function.comp_def, UInt32.le_iff_toNat_le] using this
    obtain ⟨x, hx, rfl⟩ := Option.map_eq_some_iff.1 first
    obtain ⟨hle, i, hi, rfl, before⟩ := find?_eq_some_iff_getElem.1 hx
    have hidx : c.elems.findIdx? (fun e => decide (e.number ≤ t)) = some i :=
      findIdx?_eq_some_iff_getElem.2 ⟨hi, by simpa using hle, by simpa using before⟩
    have hget : c.elems[i]? = some c.elems[i] := getElem?_eq_getElem hi
    have pos : c.elems[i].number ≠ 0 := fun h0 => by
      have := h.positive _ (Register.mem_of_get hu)
      simp [h0] at this
    have hl : c.lookup t = i := by
      unfold Chain.lookup
      rw [if_pos (UInt32.pos_iff_ne_zero.2 ht), hidx]
      simp only [hget, if_neg pos]
    rw [hl, hget] at found
    cases found
    exact hu

variable [PartitionOps S V P] {o : Answer P}

theorem read_step (h : c.Shows payload r) {schema : S} {phase : UInt64} {t : UInt32}
    (next : Transition c (.read schema phase t) c' o) :
    c'.Shows payload (r.note t.toNat) ∧ ∃ s n p, o = .snapshot s n p ∧
      (t = 0 → r.versions ≠ [] → r.versions.head? = some (n.toNat, payload p)) ∧
      (t ≠ 0 → (∃ v ∈ r.versions, v.1 ≤ t.toNat) → r.get t.toNat = some (n.toNat, payload p)) := by
  have look : ∀ {e}, c.elems[c.lookup t]? = some e →
      (t = 0 → r.versions ≠ [] → r.versions.head? = some (e.number.toNat, payload e.partition)) ∧
      (t ≠ 0 → (∃ v ∈ r.versions, v.1 ≤ t.toNat) → r.get t.toNat = some (e.number.toNat, payload e.partition)) :=
    fun found => ⟨fun ht loaded => (h.lookup (.inl ⟨ht, loaded⟩) found).1 ht,
      fun ht old => (h.lookup (.inr ⟨ht, old⟩) found).2 ht⟩
  cases next with
  | share found => exact ⟨(h.noteRead t).congr rfl rfl rfl rfl, _, _, _, rfl, look found⟩
  | pin found =>
    refine ⟨(h.noteRead t).congr ?_ rfl rfl rfl, _, _, _, rfl, look found⟩
    obtain ⟨hi, he⟩ := List.getElem?_eq_some_iff.1 found
    rw [map_set, ← he]
    exact ext_getElem? fun j => by
      rw [getElem?_set]
      split
      next hj =>
        subst hj
        simp [hi, Chain.noteRead]
      · rfl

theorem drop_step (h : c.Shows payload r) {s : SnapshotId} (next : Transition c (.drop s) c' o) :
    c'.Shows payload r := by
  cases next with
  | release => exact h.congr rfl rfl rfl rfl
  | unpin =>
    refine h.congr ?_ rfl rfl rfl
    rw [map_map]
    refine map_congr_left fun e _ => ?_
    simp only [Function.comp, Chain.unpin]
    split <;> rfl

/-- A write is rejected, or is stored as the newest version. -/
theorem write_step (h : c.Shows payload r) {s mpSchema : S} {mpv : V} {v : UInt32}
    (next : Transition c (.applyView s mpv mpSchema v) c' o) (fits : ¬c.rejects v → r.versions.length < 100 ∧
      NumberFits c.highestVersionRead c.highestVersionWritten (.applyView s mpv mpSchema v : Op S V P)) :
    (o = .write ⟨false, c.highestVersionWritten⟩ ∧ v ≠ 0 ∧ v.toNat ≤ r.written ∧ c'.Shows payload r) ∨
      ∃ n mp, ∃ new : r.written < n.toNat, ¬c.rejects v ∧ o = .write ⟨true, n⟩ ∧ n = c.promoted v ∧
        writtenPartition s mpv mpSchema v n = .ok mp ∧ (v ≠ 0 → r.read < n.toNat ∧ v.toNat ≤ n.toNat) ∧
        (v = 0 → n.toNat = r.written + 1) ∧ c'.Shows payload (r.push n.toNat (payload mp) new) := by
  cases next with
  | reject rejected =>
    refine .inl ⟨rfl, rejected.1, ?_, h⟩
    rw [← h.written]
    exact UInt32.le_iff_toNat_le.1 rejected.2
  | @store _ _ _ _ mp kept written =>
    obtain ⟨few, low, high⟩ := fits kept
    obtain ⟨above, unread, plain⟩ := promotedVersion_gt kept low high
    rw [UInt32.lt_iff_toNat_lt, h.written] at above
    refine .inr ⟨c.promoted v, mp, above, kept, rfl, rfl, written, fun hv => ⟨?_, ?_⟩, fun hv => ?_, ?_⟩
    · rw [← h.read]
      exact UInt32.lt_iff_toNat_lt.1 (unread hv)
    · have high := unread hv
      unfold Chain.promoted promotedVersion at high ⊢
      simp only [hv, ne_eq, not_false_eq_true, true_and, if_false] at high ⊢
      split
      next le =>
        rw [if_pos le] at high
        exact Nat.le_of_lt (Nat.lt_of_le_of_lt (UInt32.le_iff_toNat_le.1 le) high)
      · exact Nat.le_refl _
    · rw [← h.written]
      exact plain hv
    · obtain ⟨base, elems⟩ := h.elems
      refine ⟨⟨base, ?_⟩, forall_mem_cons.2 ⟨Nat.lt_of_le_of_lt (Nat.zero_le _) above, h.positive⟩, rfl, h.read, ?_⟩
      · exact congrArg ((_, _) :: ·) elems
      · simp only [Chain.store, Register.push, length_cons, UInt32.toNat_add]
        have : c.numVersions.toNat + (1 : UInt32).toNat = r.versions.length + 1 := by rw [h.count]; rfl
        omega
  | collect kept written full =>
    have : (100 : UInt32).toNat ≤ c.numVersions.toNat := UInt32.le_iff_toNat_le.1 full
    rw [h.count] at this
    exact absurd (fits kept).1 (Nat.not_lt.2 this)

end Chain.Shows

/-- The newest version of the chain that is not numbered above `t`. -/
def Heap.newestUpTo (w : Heap S P) (t : UInt32) : Option (UInt32 × P) :=
  ((w.chain.filterMap w.versions).find? fun v => decide (v.versionNumber ≤ t)).map fun v =>
    (v.versionNumber, v.partition)

/-- The entry is the register `r`, as far as `payload` shows. -/
def Heap.Shows (payload : P → α) (w : Heap S P) (r : Register α) : Prop :=
  ∃ l c, Sim w l c ∧ c.Shows payload r

namespace Heap.Shows

variable {payload : P → α} {w w' : Heap S P} {r : Register α}

theorem ofPartition (payload : P → α) (e : EntryAddr) (mp : P) :
    (Heap.ofPartition e mp : Heap S P).Shows payload .empty :=
  ⟨_, _, .ofPartition e mp, .ofPartition payload mp⟩

section

variable (h : w.Shows payload r)
include h

theorem written : w.entry.highestVersionWritten.toNat = r.written := by
  obtain ⟨l, c, sim, shows⟩ := h
  rw [sim.hvw, shows.written]

theorem read : w.entry.highestVersionRead.toNat = r.read := by
  obtain ⟨l, c, sim, shows⟩ := h
  rw [sim.hvr, shows.read]

/-- A number in the chain that a write stored. -/
theorem exists_version {n : UInt32} (hn : n ∈ w.numbers) (pos : n ≠ 0) : ∃ v ∈ r.versions, v.1 = n.toNat := by
  obtain ⟨l, c, sim, shows⟩ := h
  obtain ⟨base, elems⟩ := shows.elems
  rw [sim.numbers_eq] at hn
  obtain ⟨e, he, rfl⟩ := mem_map.1 hn
  have mem : (e.number.toNat, payload e.partition) ∈ r.versions ++ [(0, base)] := by
    rw [← elems]
    exact mem_map.2 ⟨e, he, rfl⟩
  rcases mem_append.1 mem with mem | mem
  · exact ⟨_, mem, rfl⟩
  · have zero : e.number.toNat = (0 : UInt32).toNat := congrArg Prod.fst (mem_singleton.1 mem)
    exact absurd (UInt32.toNat_inj.1 zero) pos

theorem positive {v : Nat × α} (hv : v ∈ r.versions) : 0 < v.1 := by
  obtain ⟨l, c, sim, shows⟩ := h
  exact shows.positive v hv

theorem lt_size {v : Nat × α} (hv : v ∈ r.versions) : v.1 < 4294967296 := by
  obtain ⟨l, c, sim, shows⟩ := h
  obtain ⟨base, elems⟩ := shows.elems
  have mem : v ∈ c.elems.map fun e => (e.number.toNat, payload e.partition) := by
    rw [elems]
    exact mem_append_left _ hv
  obtain ⟨e, -, rfl⟩ := mem_map.1 mem
  exact e.number.toNat_lt

theorem newestUpTo {t : UInt32} {n : Nat} {a : α} (found : r.get t.toNat = some (n, a)) :
    ∃ m p, w.newestUpTo t = some (m, p) ∧ m.toNat = n ∧ m ≠ 0 ∧ payload p = a := by
  obtain ⟨l, c, sim, shows⟩ := h
  obtain ⟨base, elems⟩ := shows.elems
  have versions : (l.filterMap w.versions).map PartitionVersion.toElem = c.elems := by
    have := congrArg (filterMap id) sim.elems
    simpa [map_filterMap, Heap.elem?, filterMap_map, Function.comp_def] using this
  rw [← versions, map_map] at elems
  have first : (r.versions ++ [(0, base)]).find? (fun v => decide (v.1 ≤ t.toNat)) = some (n, a) :=
    find?_append.trans (by rw [show r.versions.find? _ = some (n, a) from found]; rfl)
  rw [← elems, find?_map, Option.map_eq_some_iff] at first
  obtain ⟨v, hv, eq⟩ := first
  obtain ⟨number, partition⟩ := Prod.mk.inj eq
  refine ⟨v.versionNumber, v.partition, ?_, number, ?_, partition⟩
  · unfold Heap.newestUpTo
    rw [sim.chain_eq]
    exact congrArg _ hv
  · rintro zero
    have pos := shows.positive _ (Register.mem_of_get found)
    simp [← number, PartitionVersion.toElem, zero] at pos

end

variable [PartitionOps S V P]

theorem read_step (h : w.Shows payload r) {schema : S} {phase : UInt64} {t : UInt32} {o : Answer P}
    (next : w.step (.read schema phase t) = .ok (w', o)) :
    w'.Shows payload (r.note t.toNat) ∧ ∃ s n p, o = .snapshot s n p ∧
      (t = 0 → r.versions ≠ [] → r.versions.head? = some (n.toNat, payload p)) ∧
      (t ≠ 0 → (∃ v ∈ r.versions, v.1 ≤ t.toNat) → r.get t.toNat = some (n.toNat, payload p)) := by
  obtain ⟨l, c, sim, shows⟩ := h
  obtain ⟨c', l', sim', transition, -⟩ := sim.transition next
  exact (shows.read_step transition).imp_left fun shows => ⟨l', c', sim', shows⟩

theorem drop_step (h : w.Shows payload r) {s : SnapshotId} {o : Answer P} (next : w.step (.drop s) = .ok (w', o)) :
    w'.Shows payload r := by
  obtain ⟨l, c, sim, shows⟩ := h
  obtain ⟨c', l', sim', transition, -⟩ := sim.transition next
  exact ⟨l', c', sim', shows.drop_step transition⟩

theorem write_step (h : w.Shows payload r) {s mpSchema : S} {mpv : V} {v : UInt32} {o : Answer P}
    (next : w.step (.applyView s mpv mpSchema v) = .ok (w', o))
    (fits : ¬(v ≠ 0 ∧ v ≤ w.entry.highestVersionWritten) → w.entry.numVersions < 100 ∧
      NumberFits w.entry.highestVersionRead w.entry.highestVersionWritten (.applyView s mpv mpSchema v : Op S V P)) :
    (o = .write ⟨false, w.entry.highestVersionWritten⟩ ∧ v ≠ 0 ∧ v.toNat ≤ r.written ∧ w'.Shows payload r) ∨
      ∃ n mp, ∃ new : r.written < n.toNat, ¬(v ≠ 0 ∧ v ≤ w.entry.highestVersionWritten) ∧ o = .write ⟨true, n⟩ ∧
        n = promotedVersion w.entry.highestVersionRead w.entry.highestVersionWritten v ∧
        writtenPartition s mpv mpSchema v n = .ok mp ∧ (v ≠ 0 → r.read < n.toNat ∧ v.toNat ≤ n.toNat) ∧
        (v = 0 → n.toNat = r.written + 1) ∧ w'.Shows payload (r.push n.toNat (payload mp) new) := by
  obtain ⟨l, c, sim, shows⟩ := h
  obtain ⟨c', l', sim', transition, -⟩ := sim.transition next
  rw [sim.hvr, sim.hvw, sim.num] at fits
  rw [sim.hvr, sim.hvw]
  have room : ¬c.rejects v → r.versions.length < 100 ∧ NumberFits c.highestVersionRead c.highestVersionWritten
      (.applyView s mpv mpSchema v) := fun kept => (fits kept).imp_left fun few => by
    rw [← shows.count]
    exact UInt32.lt_iff_toNat_lt.1 few
  rcases shows.write_step transition room with ⟨ho, hv, le, shows'⟩ | ⟨n, mp, new, kept, ho, hn, written, tagged, plain, shows'⟩
  · exact .inl ⟨ho, hv, le, l', c', sim', shows'⟩
  · exact .inr ⟨n, mp, new, kept, ho, hn, written, tagged, plain, l', c', sim', shows'⟩

end Heap.Shows

end ScyllaMoon.Mvcc
