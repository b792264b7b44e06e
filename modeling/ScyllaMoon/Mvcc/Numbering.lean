import ScyllaMoon.Mvcc.Transition
import ScyllaMoon.Mvcc.Usertable

/-!
# The number of a write

`partition_entry::apply` numbers an untagged write by `highest_version_written` and a tagged one by
its own version, moved past `highest_version_read` if that was read already. As long as the `+ 1`
fits in 32 bits, every number in the chain is at most `highest_version_written`, so an accepted write
is newer than the whole chain. Only a tagged write is also newer than every read.
-/

namespace ScyllaMoon.Mvcc

open Lib List

variable {S V P : Type}

/-- The version numbers of the chain, newest first. -/
def Heap.numbers (w : Heap S P) : List UInt32 :=
  w.chain.filterMap fun a => (w.versions a).map PartitionVersion.versionNumber

def Chain.numbers (c : Chain S P) : List UInt32 :=
  c.elems.map Elem.number

/-- The `+ 1` that numbers the write, if one is taken, does not wrap around. -/
def NumberFits (highestVersionRead highestVersionWritten : UInt32) : Op S V P → Prop
  | .applyView _ _ _ v =>
    (v = 0 → highestVersionWritten.toNat + 1 < 4294967296) ∧
      (v ≠ 0 → v ≤ highestVersionRead → highestVersionRead.toNat + 1 < 4294967296)
  | _ => True

theorem Sim.numbers_eq {w : Heap S P} {l : List Addr} {c : Chain S P} (h : Sim w l c) : w.numbers = c.numbers := by
  have hmap : l.filterMap (fun a => (w.elem? a).map Elem.number) = c.numbers := by
    have := congrArg (filterMap (Option.map Elem.number)) h.elems
    simpa [Chain.numbers, filterMap_map, Function.comp_def, filterMap_eq_map'] using this
  rw [Heap.numbers, h.chain_eq, ← hmap]
  refine filterMap_congr fun a _ => ?_
  cases hv : w.versions a with
  | none => simp [Heap.elem?, hv]
  | some v => simp [Heap.elem?, hv, PartitionVersion.toElem]

/-- A number that fits is newer than every write, and newer than every read if the write is tagged. -/
theorem promotedVersion_gt {hvr hvw v : UInt32} (kept : ¬(v ≠ 0 ∧ v ≤ hvw))
    (low : v = 0 → hvw.toNat + 1 < 4294967296) (high : v ≠ 0 → v ≤ hvr → hvr.toNat + 1 < 4294967296) :
    hvw < promotedVersion hvr hvw v ∧ (v ≠ 0 → hvr < promotedVersion hvr hvw v) ∧
      (v = 0 → (promotedVersion hvr hvw v).toNat = hvw.toNat + 1) := by
  unfold promotedVersion
  simp only [UInt32.lt_iff_toNat_lt, UInt32.le_iff_toNat_le] at *
  by_cases hv : v = 0
  · subst hv
    have := low rfl
    simp [UInt32.toNat_add]
    omega
  · have hkept : ¬v.toNat ≤ hvw.toNat := fun h => kept ⟨hv, h⟩
    by_cases hr : v.toNat ≤ hvr.toNat
    · have := high hv hr
      simp [hv, hr, UInt32.toNat_add]
      omega
    · simp [hv, hr]
      omega

namespace Chain

variable [PartitionOps S V P] {c c' : Chain S P} {op : Op S V P} {o : Answer P}

@[simp] theorem unpin_number (s : SnapshotId) (e : Elem P) : (unpin s e).number = e.number := by
  unfold unpin
  split <;> rfl

theorem numbers_set {es : List (Elem P)} {i : Nat} {e e' : Elem P} (he : es[i]? = some e)
    (same : e'.number = e.number) : (es.set i e').map Elem.number = es.map Elem.number := by
  obtain ⟨hi, rfl⟩ := List.getElem?_eq_some_iff.1 he
  have hi' : i < (es.map Elem.number).length := by simpa using hi
  have hself := List.set_getElem_self hi'
  rwa [getElem_map, ← same, ← map_set] at hself

/-- The numbers after a request: those that were there, 0, and that of an accepted write. -/
theorem Transition.numbers_sub (h : Transition c op c' o) {n : UInt32} (hn : n ∈ c'.numbers) :
    n ∈ c.numbers ∨ n = 0 ∨ ∃ r, o = .write r ∧ r.accepted = true ∧ n = r.commitVersion := by
  cases h with
  | share | release | squash | reject => exact .inl hn
  | pin found => exact .inl (by simpa [numbers, numbers_set found] using hn)
  | unpin => exact .inl (by simpa [numbers] using hn)
  | store =>
    rcases mem_cons.1 hn with rfl | hn
    · exact .inr (.inr ⟨_, rfl, rfl, rfl⟩)
    · exact .inl hn
  | collect kept written full collects =>
    rw [collects.eq] at hn
    obtain ⟨e, he, rfl⟩ := mem_map.1 hn
    rcases mem_cons.1 (mem_of_mem_eraseIdx he) with rfl | he
    · exact .inr (.inr ⟨_, rfl, rfl, rfl⟩)
    · exact .inl (mem_map_of_mem he)
  | apply elems | incomplete elems => exact .inl (by simpa [numbers, elems] using hn)
  | add elems =>
    rcases mem_cons.1 hn with rfl | hn
    · exact .inr (.inl rfl)
    · exact .inl hn
  | upgrade => exact .inr (.inl (mem_singleton.1 hn))

/-- An accepted write stands at the head of the chain under its number, and is the highest written. -/
theorem Transition.accepted {s mpSchema : S} {mpv : V} {v : UInt32} {r : WriteResult}
    (h : Transition c (.applyView s mpv mpSchema v) c' (.write r)) (acc : r.accepted = true) :
    ¬c.rejects v ∧ r.commitVersion = c.promoted v ∧ c'.highestVersionWritten = r.commitVersion ∧
      c'.numbers.head? = some r.commitVersion := by
  cases h with
  | reject => cases acc
  | store kept => exact ⟨kept, rfl, rfl, rfl⟩
  | collect kept written full collects =>
    rw [collects.eq]
    exact ⟨kept, rfl, rfl, rfl⟩

theorem Transition.highestVersionWritten_eq (h : Transition c op c' o)
    (other : ∀ r, o = .write r → r.accepted = false) : c'.highestVersionWritten = c.highestVersionWritten := by
  cases h with
  | store | collect => cases other _ rfl
  | _ => rfl

/-- Every number of the chain is at most `highest_version_written`. -/
def NumbersLe (c : Chain S P) : Prop :=
  ∀ n ∈ c.numbers, n ≤ c.highestVersionWritten

theorem Transition.accepted_gt {s mpSchema : S} {mpv : V} {v : UInt32} {r : WriteResult}
    (h : Transition c (.applyView s mpv mpSchema v) c' (.write r)) (acc : r.accepted = true)
    (fits : NumberFits c.highestVersionRead c.highestVersionWritten (.applyView s mpv mpSchema v : Op S V P)) :
    c.highestVersionWritten < r.commitVersion ∧ (v ≠ 0 → c.highestVersionRead < r.commitVersion) ∧
      (v = 0 → r.commitVersion.toNat = c.highestVersionWritten.toNat + 1) := by
  obtain ⟨kept, hn, -, -⟩ := h.accepted acc
  rw [hn]
  exact promotedVersion_gt kept fits.1 fits.2

theorem Transition.numbersLe (h : Transition c op c' o) (inv : c.NumbersLe)
    (fits : NumberFits c.highestVersionRead c.highestVersionWritten op) : c'.NumbersLe := by
  intro n hn
  by_cases acc : ∃ r, o = .write r ∧ r.accepted = true
  · obtain ⟨r, rfl, acc⟩ := acc
    obtain ⟨s, mpv, mpSchema, v, rfl⟩ : ∃ s mpv mpSchema v, op = .applyView s mpv mpSchema v := by
      cases h <;> exact ⟨_, _, _, _, rfl⟩
    obtain ⟨-, -, hw, -⟩ := h.accepted acc
    have hlt := (h.accepted_gt acc fits).1
    rw [hw]
    rcases h.numbers_sub hn with hn | rfl | ⟨r', hr, -, rfl⟩
    · exact UInt32.le_of_lt (UInt32.lt_of_le_of_lt (inv n hn) hlt)
    · exact UInt32.zero_le
    · cases hr
      exact UInt32.le_refl _
  · rw [h.highestVersionWritten_eq fun r hr => by simpa using fun ha => acc ⟨r, hr, ha⟩]
    rcases h.numbers_sub hn with hn | rfl | ⟨r, hr, ha, -⟩
    · exact inv n hn
    · exact UInt32.zero_le
    · exact absurd ⟨r, hr, ha⟩ acc

end Chain

/-- Every accepted write of a run is stored in front of the chain and above all its numbers. A tagged
one is also above every version read so far; an untagged one follows the last write whatever was read. -/
theorem accepted_write_number [PartitionOps S V P] (e : EntryAddr) (mp : P)
    {tr : List (Op S V P × Answer P)} {w w' : Heap S P} {r : WriteResult}
    (run : Run Heap.step (fun _ w op => NumberFits w.entry.highestVersionRead w.entry.highestVersionWritten op)
      (Heap.ofPartition e mp) tr w)
    (s : S) (mpv : V) (mpSchema : S) (v : UInt32)
    (fits : NumberFits w.entry.highestVersionRead w.entry.highestVersionWritten (.applyView s mpv mpSchema v : Op S V P))
    (write : w.applyView s mpv mpSchema v = .ok (w', r)) (accepted : r.accepted = true) :
    w'.numbers.head? = some r.commitVersion ∧ (∀ n ∈ w.numbers, n < r.commitVersion) ∧
      (v ≠ 0 → w.entry.highestVersionRead < r.commitVersion) ∧
      (v = 0 → r.commitVersion.toNat = w.entry.highestVersionWritten.toNat + 1) := by
  obtain ⟨l, c, sim, inv⟩ := Sim.run (fun _ _ c => c.NumbersLe) (Sim.ofPartition e mp)
    (by simp [Chain.NumbersLe, Chain.numbers, Chain.ofPartition])
    (fun _ _ _ _ _ _ _ _ _ sim inv fits h _ _ => h.numbersLe inv (by rw [← sim.hvr, ← sim.hvw]; exact fits)) run
  have step : w.step (.applyView s mpv mpSchema v) = .ok (w', .write r) := by
    rw [Heap.step, write]
    rfl
  obtain ⟨c', l', sim', h, -⟩ := sim.transition step
  rw [sim.hvr, sim.hvw] at fits ⊢
  obtain ⟨hw, hr, hu⟩ := h.accepted_gt accepted fits
  rw [sim'.numbers_eq, sim.numbers_eq]
  exact ⟨(h.accepted accepted).2.2.2, fun n hn => UInt32.lt_of_le_of_lt (inv n hn) hw, hr, hu⟩

theorem accepted_write_number_promoted : ∃ tr w w' r, Run Heap.step
        (fun _ w op => NumberFits w.entry.highestVersionRead w.entry.highestVersionWritten op) newEntry tr w ∧
      w.applyView usertable (putByte 1 7) usertable 5 = .ok (w', r) ∧ r.commitVersion = 11 ∧
      w'.numbers.head? = some r.commitVersion ∧ (∀ n ∈ w.numbers, n < r.commitVersion) ∧
      w.entry.highestVersionRead < r.commitVersion := by
  have run : Run Heap.step
      (fun _ w op => NumberFits w.entry.highestVersionRead w.entry.highestVersionWritten op) newEntry _ _ :=
    .snoc .init (i := readAt 10) trivial rfl
  have number := accepted_write_number (P := Mutation.MutationPartition Nat Mutation.Cell) 0 {} run usertable
    (putByte 1 7) usertable 5 ⟨by decide, fun _ _ => by decide⟩ rfl rfl
  exact ⟨_, _, _, _, run, rfl, rfl, number.1, number.2.1, number.2.2.1 (by decide)⟩

/-- After a read at version 10, an untagged write is stored under number 1. -/
theorem untagged_write_below_read : ∃ tr w w' r, Run Heap.step (fun _ _ _ => True) newEntry tr w ∧
      w.applyView usertable (putByte 1 7) usertable 0 = .ok (w', r) ∧ r.accepted = true ∧
      r.commitVersion < w.entry.highestVersionRead :=
  ⟨_, _, _, _, .snoc .init trivial (i := readAt 10) rfl, rfl, rfl, by decide⟩

end ScyllaMoon.Mvcc
