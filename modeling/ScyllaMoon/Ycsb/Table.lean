import ScyllaMoon.Mvcc.Register
import ScyllaMoon.Ycsb.Columns

/-!
# The table of the clients

One `partition_entry` for each key. As long as no key has more than 100 versions the entries are registers
of the columns that were written, and the columns of a version carry its number.
-/

namespace ScyllaMoon.Ycsb

open Lib Mutation Mvcc Function

variable {K S Pos : Type} [DecidableEq K] [Position Pos]

/-- The entries hold the versions of the registers, and each version is stamped with its number. -/
structure Table (now : Int) (entries : K → Heap S (MutationPartition Pos Cell)) (regs : K → Register (List Column)) :
    Prop where
  shows : ∀ k, (entries k).Shows (columns now) (regs k)
  stamped : ∀ k, ∀ v ∈ (regs k).versions, columnsTs v.2 = v.1

/-- A write at `v` is rejected, or there is room for its version and the number of it is an `int`. -/
def Room (e : PartitionEntry) (v : UInt32) : Prop :=
  v ≠ 0 ∧ v ≤ e.highestVersionWritten ∨ e.numVersions < 100 ∧ v.toNat < 2147483648 ∧
    (v = 0 → e.highestVersionWritten.toNat + 1 < 2147483648) ∧
    (v ≠ 0 → v ≤ e.highestVersionRead → e.highestVersionRead.toNat + 1 < 2147483648)

theorem promotedVersion_lt {hvr hvw v : UInt32} (small : v.toNat < 2147483648)
    (low : v = 0 → hvw.toNat + 1 < 2147483648) (high : v ≠ 0 → v ≤ hvr → hvr.toNat + 1 < 2147483648) :
    (promotedVersion hvr hvw v).toNat < 2147483648 := by
  unfold promotedVersion
  by_cases hv : v = 0
  · have := low hv
    simp [hv, UInt32.toNat_add]
    omega
  · by_cases hr : v ≤ hvr
    · have := high hv hr
      simp [hv, hr, UInt32.toNat_add]
      omega
    · simpa [hv, hr] using small

variable {r : Register (List Column)}

theorem extends_update {regs : K → Register (List Column)} {k : K} (h : (regs k).Extends r) (k' : K) :
    (regs k').Extends (update regs k r k') := by
  by_cases hk : k' = k
  · subst hk
    simpa using h
  · simpa [hk] using Register.Extends.refl _

namespace Table

variable {now : Int} {entries : K → Heap S (MutationPartition Pos Cell)} {regs : K → Register (List Column)}

omit [DecidableEq K] in
theorem ofPartition (now : Int) (addr : K → EntryAddr) :
    Table now (fun k => (Heap.ofPartition (addr k) {} : Heap S (MutationPartition Pos Cell))) fun _ => .empty where
  shows k := Heap.Shows.ofPartition (columns now) (addr k) _
  stamped := nofun

theorem update (h : Table now entries regs) {k : K} {w : Heap S (MutationPartition Pos Cell)}
    (shows : w.Shows (columns now) r) (stamped : ∀ v ∈ r.versions, columnsTs v.2 = v.1) :
    Table now (update entries k w) (update regs k r) where
  shows k' := by
    by_cases hk : k' = k
    · subst hk
      simpa using shows
    · simpa [hk] using h.shows k'
  stamped k' := by
    by_cases hk : k' = k
    · subst hk
      simpa using stamped
    · simpa [hk] using h.stamped k'

variable [SchemaOps S Cell] {w : Heap S (MutationPartition Pos Cell)} {o : Answer (MutationPartition Pos Cell)} {k : K}

variable (h : Table now entries regs)
include h

theorem read {schema : S} {phase : UInt64} {t : UInt32} (next : (entries k).step (.read schema phase t) = .ok (w, o)) :
    Table now (Function.update entries k w) (Function.update regs k ((regs k).note t.toNat)) ∧
      ∃ s n p, o = .snapshot s n p ∧
        (t = 0 → (regs k).versions ≠ [] → (regs k).versions.head? = some (n.toNat, columns now p)) ∧
        (t ≠ 0 → (∃ v ∈ (regs k).versions, v.1 ≤ t.toNat) → (regs k).get t.toNat = some (n.toNat, columns now p)) := by
  obtain ⟨shows, answer⟩ := (h.shows k).read_step next
  exact ⟨h.update shows (h.stamped k), answer⟩

theorem drop {s : SnapshotId} (next : (entries k).step (.drop s) = .ok (w, o)) :
    Table now (Function.update entries k w) regs := by
  simpa using h.update (k := k) ((h.shows k).drop_step next) (h.stamped k)

/-- A write is rejected, or its columns become the newest version. -/
theorem write {schema : S} {i : Insert} {v : UInt32}
    (next : (entries k).step (.applyView schema i.view schema v) = .ok (w, o)) (room : Room (entries k).entry v)
    (stamps : v ≠ 0 ∨ SchemaOps.cfName Cell schema = "data") :
    (o = .write ⟨false, (entries k).entry.highestVersionWritten⟩ ∧ v ≠ 0 ∧ v.toNat ≤ (regs k).written ∧
      Table now (Function.update entries k w) regs) ∨
    ∃ n, ∃ new : (regs k).written < n.toNat, o = .write ⟨true, n⟩ ∧
      ¬(v ≠ 0 ∧ v ≤ (entries k).entry.highestVersionWritten) ∧
      n = promotedVersion (entries k).entry.highestVersionRead (entries k).entry.highestVersionWritten v ∧
      (v ≠ 0 → (regs k).read < n.toNat ∧ v.toNat ≤ n.toNat) ∧ (v = 0 → n.toNat = (regs k).written + 1) ∧
      Table now (Function.update entries k w) (Function.update regs k ((regs k).push n.toNat (i.stored n) new)) := by
  have fits : ¬(v ≠ 0 ∧ v ≤ (entries k).entry.highestVersionWritten) → _ := room.resolve_left
  have rejectedOr := (h.shows k).write_step next fun kept => by
    obtain ⟨few, -, low, high⟩ := fits kept
    refine ⟨few, fun hv => ?_, fun hv hr => ?_⟩
    · have := low hv
      omega
    · have := high hv hr
      omega
  rcases rejectedOr with ⟨ho, hv, le, shows⟩ | ⟨n, mp, new, kept, ho, hn, written, tagged, plain, shows⟩
  · exact .inl ⟨ho, hv, le, by simpa using h.update (k := k) shows (h.stamped k)⟩
  · obtain ⟨few, small, low, high⟩ := fits kept
    obtain ⟨cols, first⟩ := Insert.columns_written now stamps written
    rw [cols] at shows
    refine .inr ⟨n, new, ho, kept, hn, tagged, plain, h.update shows (List.forall_mem_cons.2 ⟨?_, h.stamped k⟩)⟩
    exact Insert.columnsTs_stored first (hn ▸ promotedVersion_lt small low high)

end Table

end ScyllaMoon.Ycsb
