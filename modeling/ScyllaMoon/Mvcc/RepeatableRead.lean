import ScyllaMoon.Mvcc.Gc.Victim

/-!
# Repeatable versioned reads

Tagged writes keep the chain sorted, newest number first, so `read(t)` finds the greatest number not
above `t`, and a later write is numbered above every `t` that was read. What a read at `t` returned
therefore stays its answer for as long as the collector leaves that version alone. When everything
numbered 1 to `t` is gone, `read(t)` falls back to the newest version and its answer moves.
-/

namespace ScyllaMoon.Mvcc

open Lib List

variable {S V P : Type}

namespace Heap

/-- The request leaves the answers of the past reads `tr` alone. A read at `t` finds a version numbered 1
to `t`. A write is tagged; unless it is rejected its number fits, and if it collects then not a version
that a read returned. -/
def KeepsReads (tr : List (Op S V P × Answer P)) (w : Heap S P) : Op S V P → Prop
  | .read _ _ t => t = 0 ∨ ∃ n ∈ w.numbers, n ≠ 0 ∧ n ≤ t
  | .drop _ => True
  | .applyView _ _ _ v =>
    v ≠ 0 ∧ (v ≤ w.entry.highestVersionWritten ∨
      (v ≤ w.entry.highestVersionRead → w.entry.highestVersionRead.toNat + 1 < 4294967296) ∧
      (w.entry.numVersions ≥ 100 → ∀ a u, w.gcVictim = some a → w.versions a = some u →
        ∀ schema phase t s p, t ≠ 0 → (.read schema phase t, .snapshot s u.versionNumber p) ∉ tr))
  | _ => False

end Heap

namespace Chain

variable {c c' : Chain S P}

open UInt32 (le_of_lt le_refl le_trans)

/-- On a sorted chain a read at `t` finds the greatest number not above `t`, if one from 1 on is left. -/
theorem lookup_sorted (sorted : c.numbers.Pairwise (· > ·)) {t : UInt32} (found : ∃ n ∈ c.numbers, n ≠ 0 ∧ n ≤ t) :
    ∃ e, c.elems[c.lookup t]? = some e ∧ e.number ∈ c.numbers ∧ e.number ≠ 0 ∧ e.number ≤ t ∧
      ∀ m ∈ c.numbers, m ≤ t → m ≤ e.number := by
  obtain ⟨n, hn, hn0, hnt⟩ := found
  obtain ⟨x, hx, rfl⟩ := mem_map.1 hn
  have ht : t > 0 := UInt32.lt_of_lt_of_le (UInt32.pos_iff_ne_zero.2 hn0) hnt
  obtain ⟨i, hi⟩ : ∃ i, c.elems.findIdx? (fun e => decide (e.number ≤ t)) = some i :=
    Option.isSome_iff_exists.1 (by simpa using ⟨x, hx, hnt⟩)
  obtain ⟨hlt, hp, before⟩ := findIdx?_eq_some_iff_getElem.1 hi
  have he : c.elems[i]? = some c.elems[i] := getElem?_eq_getElem hlt
  have greatest : ∀ m ∈ c.numbers, m ≤ t → m ≤ c.elems[i].number := by
    intro m hm hmt
    obtain ⟨j, hj, rfl⟩ := getElem_of_mem hm
    rw [Chain.numbers, length_map] at hj
    have hnum : c.numbers[j] = c.elems[j].number := getElem_map ..
    rw [hnum] at hmt ⊢
    rcases Nat.lt_trichotomy i j with hij | rfl | hji
    · have := pairwise_iff_getElem.1 sorted i j (by simpa [Chain.numbers] using hlt)
        (by simpa [Chain.numbers] using hj) hij
      simp only [Chain.numbers, getElem_map] at this
      exact le_of_lt this
    · exact le_refl _
    · exact absurd hmt (by simpa using before j hji)
  have hne : c.elems[i].number ≠ 0 := fun e => by
    have := greatest _ hn hnt
    rw [e] at this
    exact hn0 (UInt32.le_zero_iff.1 this)
  have hlook : c.lookup t = i := by
    simp only [lookup, if_pos ht, hi, he, if_neg hne]
  refine ⟨c.elems[i], by rw [hlook, he], mem_map_of_mem (getElem_mem hlt), hne, ?_, greatest⟩
  simpa using hp

/-- What the reads of `tr` rely on: the chain is sorted, no number is above `highest_version_written`, and
each read at `t` returned the number that is still the greatest not above `t`. -/
structure ReadsKept (tr : List (Op S V P × Answer P)) (c : Chain S P) : Prop where
  sorted : c.numbers.Pairwise (· > ·)
  le : c.NumbersLe
  served : ∀ {schema phase t s n p}, (.read schema phase t, .snapshot s n p) ∈ tr → t ≠ 0 →
    n ∈ c.numbers ∧ n ≠ 0 ∧ n ≤ t ∧ t ≤ c.highestVersionRead ∧ ∀ m ∈ c.numbers, m ≤ t → m ≤ n

variable {tr : List (Op S V P × Answer P)}

/-- The chain changes below no read: what was returned stays, and what is new is above every read. -/
theorem ReadsKept.rewrite (inv : ReadsKept tr c) (sorted : c'.numbers.Pairwise (· > ·)) (le : c'.NumbersLe)
    (hvr : c.highestVersionRead ≤ c'.highestVersionRead)
    (new : ∀ m ∈ c'.numbers, m ∈ c.numbers ∨ c.highestVersionRead < m)
    (kept : ∀ schema phase t s n p, (.read schema phase t, .snapshot s n p) ∈ tr → t ≠ 0 → n ∈ c.numbers → n ∈ c'.numbers) :
    ReadsKept tr c' := by
  refine ⟨sorted, le, fun {schema phase t s n p} hm ht => ?_⟩
  obtain ⟨hn, hn0, hnt, hr, greatest⟩ := inv.served hm ht
  refine ⟨kept _ _ _ _ _ _ hm ht hn, hn0, hnt, le_trans hr hvr, fun m hm' hmt => ?_⟩
  rcases new m hm' with hold | hnew
  · exact greatest m hold hmt
  · exact absurd (UInt32.lt_of_lt_of_le hnew (le_trans hmt hr)) (UInt32.lt_irrefl _)

theorem ReadsKept.quiet (inv : ReadsKept tr c) (numbers : c'.numbers = c.numbers)
    (hvw : c'.highestVersionWritten = c.highestVersionWritten) (hvr : c.highestVersionRead ≤ c'.highestVersionRead) :
    ReadsKept tr c' := by
  refine inv.rewrite (by rw [numbers]; exact inv.sorted) (fun n hn => ?_) hvr (fun m hm => .inl (numbers ▸ hm))
    fun _ _ _ _ _ _ _ _ hn => by rwa [numbers]
  rw [hvw]
  exact inv.le n (numbers ▸ hn)

variable {op : Op S V P}

/-- A request that is not a read adds nothing to keep. -/
theorem ReadsKept.append {o : Answer P} (inv : ReadsKept tr c)
    (new : ∀ schema phase t s n p, op = .read schema phase t → o = .snapshot s n p → t ≠ 0 → n ∈ c.numbers ∧ n ≠ 0 ∧ n ≤ t ∧ t ≤ c.highestVersionRead ∧ ∀ m ∈ c.numbers, m ≤ t → m ≤ n) :
    ReadsKept (tr ++ [(op, o)]) c := by
  refine ⟨inv.sorted, inv.le, fun hm ht => ?_⟩
  rcases mem_append.1 hm with hm | hm
  · exact inv.served hm ht
  · cases mem_singleton.1 hm
    exact new _ _ _ _ _ _ rfl rfl ht

theorem noteRead_ge (c : Chain S P) (t : UInt32) : c.highestVersionRead ≤ (c.noteRead t).highestVersionRead ∧
    t ≤ (c.noteRead t).highestVersionRead := by
  simp only [noteRead]
  split
  next ht =>
    exact ⟨le_of_lt ht, le_refl _⟩
  next ht =>
    exact ⟨le_refl _, UInt32.not_lt.1 ht⟩

variable {tr : List (Op S V P × Answer P)}

/-- A read keeps the past reads and joins them. -/
theorem ReadsKept.read (inv : ReadsKept tr c) {schema : S} {phase : UInt64}
    {t : UInt32} {e : Elem P} {s : SnapshotId} (found : c.elems[c.lookup t]? = some e)
    (old : t = 0 ∨ ∃ n ∈ c.numbers, n ≠ 0 ∧ n ≤ t) (numbers : c'.numbers = c.numbers)
    (hvw : c'.highestVersionWritten = c.highestVersionWritten)
    (hvr : c'.highestVersionRead = (c.noteRead t).highestVersionRead) :
    ReadsKept (tr ++ [(.read schema phase t, .snapshot s e.number e.partition)]) c' := by
  have hge := c.noteRead_ge t
  rw [← hvr] at hge
  refine (inv.quiet numbers hvw hge.1).append fun _ _ t' s' n p hop ho ht => ?_
  cases hop
  cases ho
  obtain ⟨e', he', hm, hn0, hnt, greatest⟩ := lookup_sorted inv.sorted (old.resolve_left ht)
  cases found.symm.trans he'
  rw [numbers]
  exact ⟨hm, hn0, hnt, hge.2, greatest⟩

/-- A write above everything written and read keeps the past reads, if what else it drops was not read. -/
theorem ReadsKept.write (inv : ReadsKept tr c) {n : UInt32} {ms : List UInt32}
    (hw : c.highestVersionWritten < n) (hr : c.highestVersionRead < n) (numbers : c'.numbers = n :: ms)
    (sub : ms.Sublist c.numbers) (hvw : c'.highestVersionWritten = n)
    (hvr : c'.highestVersionRead = c.highestVersionRead)
    (kept : ∀ schema phase t s m p, (.read schema phase t, .snapshot s m p) ∈ tr → t ≠ 0 → m ∈ c.numbers → m ∈ ms) :
    ReadsKept tr c' := by
  have above : ∀ m ∈ ms, m < n := fun m hm => UInt32.lt_of_le_of_lt (inv.le m (sub.subset hm)) hw
  refine inv.rewrite ?_ ?_ (by rw [hvr]; exact le_refl _) ?_ ?_
  · rw [numbers]
    exact pairwise_cons.2 ⟨above, inv.sorted.sublist sub⟩
  · intro m hm
    rw [numbers] at hm
    rw [hvw]
    rcases mem_cons.1 hm with rfl | hm
    · exact le_refl _
    · exact le_of_lt (above m hm)
  · intro m hm
    rw [numbers] at hm
    rcases mem_cons.1 hm with rfl | hm
    · exact .inr hr
    · exact .inl (sub.subset hm)
  · intro schema phase t s m p hm ht hmem
    rw [numbers]
    exact mem_cons_of_mem _ (kept _ _ _ _ _ _ hm ht hmem)

variable [PartitionOps S V P]

theorem Transition.readsKept {o : Answer P} (h : Transition c op c' o) (inv : ReadsKept tr c)
    (old : ∀ schema phase t, op = .read schema phase t → t = 0 ∨ ∃ n ∈ c.numbers, n ≠ 0 ∧ n ≤ t)
    (tagged : ∀ s mpv mpSchema v, op = .applyView s mpv mpSchema v → ¬c.rejects v → v ≠ 0 ∧ (v ≤ c.highestVersionRead → c.highestVersionRead.toNat + 1 < 4294967296))
    (spared : ∀ s mpv mpSchema v mp i, op = .applyView s mpv mpSchema v → ¬c.rejects v → c.numVersions ≥ 100 → Collects (c.store (c.promoted v) mp) i c' → ∀ n, c.numbers[i]? = some n → ∀ schema phase t s p, t ≠ 0 → (.read schema phase t, .snapshot s n p) ∉ tr)
    (memtable : op.IsMemtable) : ReadsKept (tr ++ [(op, o)]) c' := by
  cases h with
  | share found => exact inv.read found (old _ _ _ rfl) rfl rfl rfl
  | pin found => exact inv.read found (old _ _ _ rfl) (numbers_set found rfl) rfl rfl
  | release => exact .append (inv.quiet rfl rfl (le_refl _)) fun _ _ _ _ _ _ hop => by cases hop
  | unpin =>
    exact .append (inv.quiet (by simp [Chain.numbers]) rfl (le_refl _)) fun _ _ _ _ _ _ hop => by cases hop
  | squash | reject => exact inv.append fun _ _ _ _ _ _ hop => by cases hop
  | store kept written few =>
    obtain ⟨hv, high⟩ := tagged _ _ _ _ rfl kept
    obtain ⟨hw, hr, -⟩ := promotedVersion_gt kept (fun h0 => absurd h0 hv) fun _ => high
    exact .append (inv.write hw (hr hv) rfl (.refl _) rfl rfl fun _ _ _ _ _ _ _ _ hm => hm)
      fun _ _ _ _ _ _ hop => by cases hop
  | collect kept written full collects =>
    obtain ⟨hv, high⟩ := tagged _ _ _ _ rfl kept
    obtain ⟨hw, hr, -⟩ := promotedVersion_gt kept (fun h0 => absurd h0 hv) fun _ => high
    refine .append (inv.write hw (hr hv) collects.numbers (eraseIdx_sublist ..) ?_ ?_ ?_)
      fun _ _ _ _ _ _ hop => by cases hop
    · rw [collects.eq]
      rfl
    · rw [collects.eq]
      rfl
    · intro schema phase t s m p hm ht hmem
      obtain ⟨j, hj⟩ := mem_iff_getElem?.1 hmem
      refine mem_eraseIdx_iff_getElem?.2 ⟨j, fun e => ?_, hj⟩
      exact spared _ _ _ _ _ _ rfl kept full collects m (e ▸ hj) _ _ _ _ _ ht hm
  | apply | incomplete | add | upgrade => cases memtable

end Chain

namespace Sim

variable {w : Heap S P} {l : List Addr} {c c' : Chain S P}

variable [PartitionOps S V P]

/-- A read never fails, and answers with the version that the list looks up. -/
theorem read_ok (h : Sim w l c) (schema : S) (phase : UInt64) {t : UInt32} {e : Elem P}
    (he : c.elems[c.lookup t]? = some e) :
    ∃ w' s, w.step (.read schema phase t) = .ok (w', .snapshot s e.number e.partition) := by
  have hc : ∃ c' s, c.step (.read schema phase t) = .ok (c', .snapshot s e.number e.partition) := by
    have he' : (c.noteRead t).elems[c.lookup t]? = some e := he
    simp only [Chain.step, Chain.read, Chain.takeSnapshot, he']
    cases hs : e.snapshot with
    | none => exact ⟨_, _, rfl⟩
    | some s =>
      have hi : c.lookup t < l.length := by
        rw [h.length_eq]
        exact (List.getElem?_eq_some_iff.1 he).1
      obtain ⟨u, hu, hue⟩ := h.get (getElem?_eq_getElem hi)
      cases he.symm.trans hue
      obtain ⟨snp, hsnp, -⟩ := h.pins.pinned (Heap.elem?_of hu) hs
      have hlive : (c.noteRead t).snapshots s = some snp.toSnap := by
        rw [show (c.noteRead t).snapshots = c.snapshots from rfl, ← h.snaps s, hsnp]
        rfl
      simp only [hlive]
      exact ⟨_, _, rfl⟩
  obtain ⟨c', s, hc⟩ := hc
  have hag := h.step (.read schema phase t)
  rw [hc] at hag
  obtain ⟨⟨w', o⟩, hw, ho, -⟩ := hag.of_ok_right
  cases ho
  exact ⟨w', s, hw⟩

end Sim

variable {tr : List (Op S V P × Answer P)}

theorem Heap.KeepsReads.isMemtable {w : Heap S P} {op : Op S V P} (h : w.KeepsReads tr op) : op.IsMemtable := by
  cases op <;> trivial

/-- In a run of reads, tagged writes and drops that all keep the past reads, once `read(t)` returned the
version numbered `n` every later `read(t)` returns a version numbered `n`. -/
theorem repeatable_read [PartitionOps S V P] (e : EntryAddr) (mp : P) {w : Heap S P}
    (run : Run Heap.step (fun tr w op => w.KeepsReads tr op) (Heap.ofPartition e mp) tr w)
    {schema : S} {phase : UInt64} {t : UInt32} {s : SnapshotId} {n : UInt32} {p : P} (ht : t ≠ 0)
    (served : (.read schema phase t, .snapshot s n p) ∈ tr) (schema' : S) (phase' : UInt64) :
    ∃ w' s' p', w.step (.read schema' phase' t) = .ok (w', .snapshot s' n p') := by
  obtain ⟨l, c, sim, inv⟩ := Sim.run (fun tr _ c => Chain.ReadsKept tr c) (Sim.ofPartition e mp)
    ⟨by simp [Chain.numbers, Chain.ofPartition], by simp [Chain.NumbersLe, Chain.numbers, Chain.ofPartition],
      fun hm => by cases hm⟩
    (fun tr w l c op w' l' c' o sim inv keeps h sim' _ => by
      refine h.readsKept inv ?_ ?_ ?_ keeps.isMemtable
      · rintro schema phase t rfl
        rw [← sim.numbers_eq]
        exact keeps
      · rintro s mpv mpSchema v rfl kept
        obtain ⟨hv, hrej | ⟨high, -⟩⟩ := keeps
        · exact absurd ⟨hv, sim.hvw ▸ hrej⟩ kept
        · exact ⟨hv, sim.hvr ▸ high⟩
      · rintro s mpv mpSchema v mp i rfl kept full collects n hn schema phase t s' p ht
        obtain ⟨a, u, ha, -, hu, hue⟩ := sim.gcVictim collects
        obtain ⟨hv, hrej | ⟨-, spared⟩⟩ := keeps
        · exact absurd ⟨hv, sim.hvw ▸ hrej⟩ kept
        · have hnu : n = u.versionNumber := by simpa [Chain.numbers, hue, PartitionVersion.toElem] using hn.symm
          rw [hnu]
          exact spared (sim.num ▸ full) a u ha hu _ _ _ _ _ ht) run
  obtain ⟨hn, hn0, hnt, -, greatest⟩ := inv.served served ht
  obtain ⟨x, hx, hxm, -, hxt, hxg⟩ := Chain.lookup_sorted inv.sorted ⟨n, hn, hn0, hnt⟩
  obtain ⟨w', s', hw⟩ := sim.read_ok schema' phase' hx
  have hnx : x.number = n := UInt32.le_antisymm (greatest _ hxm hxt) (hxg n hn hnt)
  exact ⟨w', s', x.partition, hnx ▸ hw⟩

theorem repeatable_read_collected : ∃ tr w, Run Heap.step (fun tr w op => w.KeepsReads tr op) newEntry tr w ∧ 1 ∉ w.numbers ∧
      ∃ w' s p, w.step (readAt 100) = .ok (w', .snapshot s 100 p) := by
  have served : ((after (fun c op => if c.highestVersionRead == 0 && c.numVersions < 100 then c.step op
      else .error .assertFailed) (Chain.ofPartition {}) (puts 1 100)).any fun c => c.numbers.contains 100 &&
        (c.step (readAt 100)).toOption.any fun q => servedNumber (.ok q.2) == some 100 && q.1.highestVersionRead == 100 &&
          q.1.last == .idx 99 && (q.1.elems[99]?.any fun e => e.number == 1 && e.snapshot == none) &&
          (q.1.step (put 101 100 7)).toOption.any fun q => !q.1.numbers.contains 1) = true := by decide +kernel
  obtain ⟨c, hc, hn⟩ := (Option.any_eq_true _ _).1 served
  simp only [Option.any_eq_true, Bool.and_eq_true, beq_iff_eq, toOption_eq_some, contains_iff_mem, Bool.not_eq_true',
    ← Bool.not_eq_true] at hn
  obtain ⟨h100, ⟨c₂, o⟩, hs, ⟨⟨⟨number, hvr⟩, last⟩, x, hx, first, unpinned⟩, ⟨c₃, o₃⟩, hs₃, gone⟩ := hn
  have start : Run Heap.step (fun tr w op => w.KeepsReads tr op) newEntry [] newEntry := .init
  obtain ⟨tr, w, l, run, ops, sim⟩ := Sim.run_of_after start (Sim.ofPartition 0 _)
    (fun c _ => c.highestVersionRead == 0 && c.numVersions < 100) (fun _ w l c sim op hop pass => by
      obtain ⟨i, hi, rfl⟩ := mem_map.1 hop
      rw [Bool.and_eq_true, beq_iff_eq, decide_eq_true_iff, ← sim.hvr, ← sim.num] at pass
      exact ⟨(by decide : ∀ i < 100, UInt32.ofNat (1 + i) ≠ 0) i (mem_range.1 hi),
        .inr ⟨fun _ => by rw [pass.1]; decide, fun full => absurd pass.2 (UInt32.not_lt.2 full)⟩⟩) hc
  obtain ⟨w₂, l₂, run₂, sim₂⟩ := Sim.run_snoc run sim hs (.inr ⟨100, by rwa [sim.numbers_eq], by decide, by decide⟩)
  cases o with
  | snapshot s n p =>
    cases number
    have spared : w₂.KeepsReads (tr ++ [(readAt 100, .snapshot s 100 p)]) (put 101 100 7) := by
      refine ⟨by decide, .inr ⟨fun _ => by rw [sim₂.hvr, hvr]; decide, fun _ a u ha hu schema phase t s' p' _ hm => ?_⟩⟩
      obtain ⟨b, v, hb, -, hv, hve⟩ := sim₂.lastVersion last
      cases hx.symm.trans hve
      have victim : w₂.gcVictim = some b := by simp_all [Heap.gcVictim, PartitionVersion.toElem]
      cases ha.symm.trans victim
      cases hu.symm.trans hv
      rw [show u.versionNumber = 1 from first] at hm
      rcases mem_append.1 hm with hm | hm
      · have op := ops ▸ mem_map_of_mem hm
        obtain ⟨i, -, eq⟩ := mem_map.1 op
        cases eq
      · cases mem_singleton.1 hm
    obtain ⟨w₃, l₃, run₃, sim₃⟩ := Sim.run_snoc run₂ sim₂ hs₃ spared
    exact ⟨_, w₃, run₃, by rwa [sim₃.numbers_eq],
      repeatable_read 0 _ run₃ (by decide) (mem_append_left _ (mem_append_right _ (.head _))) _ _⟩
  | _ => cases number

/-- A read at version 1 returns the write numbered 1. After a hundred more writes that version is collected
and a read at version 1 returns the newest write, numbered 101. -/
theorem unrepeatable_read :
    (trace Heap.step newEntry ([put 1 0 7, readAt 1, .drop 0] ++ puts 2 100 ++ [readAt 1])).filterMap servedNumber =
      [1, 101] := by
  rw [newEntry, (Sim.ofPartition 0 _).trace_eq]
  decide +kernel

end ScyllaMoon.Mvcc
