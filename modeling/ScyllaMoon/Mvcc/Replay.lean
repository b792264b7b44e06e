import ScyllaMoon.Mvcc.Gc.Victim

/-!
# Commit log replay

The commit log holds the frozen mutations in the order in which `memtable::apply` handed them to the entry,
each with the version it proposes. Replay applies them to a new entry that nobody reads. The number of a
write then depends on the proposed version alone, so replay accepts the same writes under the same numbers
as long as no read moved a write: if a tagged write was promoted past `highest_version_read`, the log still
has the version it proposed.
-/

namespace ScyllaMoon.Mvcc

open Lib

variable {S V P : Type}

/-- What `memtable::apply` does with a frozen mutation, and what the log keeps. -/
def Op.logged : Op S V P × Answer P → Option (Op S V P × Answer P)
  | (.applyView s mpv mpSchema v, o) => some (.applyView s mpv mpSchema v, o)
  | _ => none

/-- The payload of the newest version. -/
def Heap.newest (w : Heap S P) : Except Fault P := do
  let a ← w.entry.version.get
  return (← w.getVersion a).partition

/-- The request is one of a memtable, and not a tagged write that is promoted past a read. -/
def Heap.NotPromoted (w : Heap S P) (op : Op S V P) : Prop :=
  op.IsMemtable ∧ ∀ s mpv mpSchema v, op = .applyView s mpv mpSchema v →
    v = 0 ∨ v ≤ w.entry.highestVersionWritten ∨ w.entry.highestVersionRead < v

namespace Chain

/-- How the entry `d` of the replay relates to the entry `c` of the run. -/
structure Replays (c d : Chain S P) : Prop where
  hvw : d.highestVersionWritten = c.highestVersionWritten
  hvr : d.highestVersionRead = 0
  num : d.numVersions = c.numVersions
  newest : d.elems.head?.map Elem.partition = c.elems.head?.map Elem.partition
  unpinned : ∀ e ∈ d.elems, e.snapshot = none
  last : c.last = .null ∧ d.last = .null ∨ ∃ i j, c.last = .idx i ∧ d.last = .idx j ∧ j < d.elems.length

variable {c c' d : Chain S P}

/-- The run changed neither what it wrote nor where `last_version` points. -/
theorem Replays.congr (h : Replays c d) (hvw : c'.highestVersionWritten = c.highestVersionWritten)
    (num : c'.numVersions = c.numVersions)
    (newest : c'.elems.head?.map Elem.partition = c.elems.head?.map Elem.partition) (last : c'.last = c.last) :
    Replays c' d :=
  ⟨h.hvw.trans hvw.symm, h.hvr, h.num.trans num.symm, h.newest.trans newest.symm, h.unpinned, by rw [last]; exact h.last⟩

theorem Replays.store (h : Replays c d) (n : UInt32) (mp : P) : Replays (c.store n mp) (d.store n mp) where
  hvw := rfl
  hvr := h.hvr
  num := congrArg (· + 1) h.num
  newest := rfl
  unpinned := List.forall_mem_cons.2 ⟨rfl, h.unpinned⟩
  last := by
    unfold Chain.store
    by_cases hn : n = 1
    · simp only [hn, if_true]
      exact .inr ⟨0, 0, rfl, rfl, Nat.succ_pos _⟩
    · simp only [hn, if_false]
      rcases h.last with ⟨hc, hd⟩ | ⟨i, j, hc, hd, hj⟩
      · rw [hc, hd]
        exact .inl ⟨rfl, rfl⟩
      · rw [hc, hd]
        exact .inr ⟨i + 1, j + 1, rfl, rfl, Nat.succ_lt_succ hj⟩

/-- Where the run collects, the replay collects the version `last_version` is at. -/
theorem Replays.collect (h : Replays c d) {n : UInt32} {mp : P} {i : Nat} (collects : Collects (c.store n mp) i c') :
    ∃ d', (d.store n mp).collectGarbage = .ok d' ∧ Replays c' d' := by
  obtain ⟨hvw, hvr, num, newest, unpinned, last⟩ := h.store n mp
  -- in the run `last_version` was not at the write itself
  have hn : n ≠ 1 := by
    rintro rfl
    rcases collects.last with ⟨hl, -⟩ | ⟨hl, e, s, he, hs⟩
    · cases hl
    · cases hl
      cases he
      cases hs
  obtain ⟨j, hd⟩ : ∃ j, d.last = .idx j := by
    rcases h.last with ⟨hc, -⟩ | ⟨-, j, -, hd, -⟩
    · rcases collects.last with ⟨hl, -⟩ | ⟨hl, -⟩ <;> simp [Chain.store, hn, hc, LastVersion.push] at hl
    · exact ⟨j, hd⟩
  have hj : j < d.elems.length := by
    rcases h.last with ⟨-, hd'⟩ | ⟨-, j', -, hd', hj⟩
    · rw [hd] at hd'
      cases hd'
    · rw [hd] at hd'
      cases hd'
      exact hj
  obtain ⟨e, he⟩ : ∃ e, d.elems[j]? = some e := ⟨_, List.getElem?_eq_getElem hj⟩
  have hs := h.unpinned e (List.mem_of_getElem? he)
  have hl : (d.store n mp).last = .idx (j + 1) := by simp [Chain.store, hn, hd, LastVersion.push]
  have hel : (d.store n mp).elems[j + 1]? = some e := he
  have bound : j + 1 < (d.store n mp).elems.length := Nat.succ_lt_succ hj
  refine ⟨{ (d.store n mp).unlink (j + 1) with last := .idx j, numVersions := (d.store n mp).numVersions - 1 }, ?_, ?_⟩
  · unfold collectGarbage advanceLast
    simp only [hl, hel, hs, Option.isNone_none, if_true, ok_bind, bound]
    rfl
  · rw [collects.eq]
    refine ⟨hvw, hvr, congrArg (· - 1) num, newest, fun x hx => unpinned x (List.mem_of_mem_eraseIdx hx), .inr ⟨i, j, rfl, rfl, ?_⟩⟩
    rw [Chain.unlink, List.length_eraseIdx_of_lt bound]
    omega

/-- A write that no read moved gets the number it proposes, or the next one. -/
theorem Replays.promoted_eq (h : Replays c d) {v : UInt32} (kept : ¬c.rejects v)
    (free : v = 0 ∨ v ≤ c.highestVersionWritten ∨ c.highestVersionRead < v) : d.promoted v = c.promoted v := by
  unfold promoted promotedVersion
  rw [h.hvw, h.hvr]
  by_cases hv : v = 0
  · simp [hv]
  · have unread : c.highestVersionRead < v := (free.resolve_left hv).resolve_left fun le => kept ⟨hv, le⟩
    simp [hv, UInt32.not_le.2 unread]

variable [PartitionOps S V P]

/-- A write that no read moved is answered by the replay as it was in the run. -/
theorem Replays.applyView (h : Replays c d) {s mpSchema : S} {mpv : V} {v : UInt32} {o : Answer P}
    (transition : Transition c (.applyView s mpv mpSchema v) c' o)
    (free : v = 0 ∨ v ≤ c.highestVersionWritten ∨ c.highestVersionRead < v) :
    ∃ d', d.step (.applyView s mpv mpSchema v) = .ok (d', o) ∧ Replays c' d' := by
  have rejects : d.rejects v ↔ c.rejects v := by
    unfold Chain.rejects
    rw [h.hvw]
  simp only [Chain.step, Chain.applyView]
  cases transition with
  | reject rejected =>
    rw [if_pos (rejects.2 rejected), h.hvw]
    exact ⟨d, rfl, h⟩
  | @store _ _ _ _ mp kept written few =>
    rw [if_neg (rejects.not.2 kept), h.promoted_eq kept free, written, h.num]
    simp only [few, if_false]
    exact ⟨_, rfl, h.store _ mp⟩
  | @collect _ _ _ _ mp i _ kept written full collects =>
    obtain ⟨d', collected, h'⟩ := h.collect collects
    rw [if_neg (rejects.not.2 kept), h.promoted_eq kept free, written, h.num]
    simp only [full, if_true, ok_bind, collected]
    exact ⟨_, rfl, h'⟩

/-- Reads and drops change nothing that the replay has to reproduce. -/
theorem Replays.hidden (h : Replays c d) {op : Op S V P} {o : Answer P} (transition : Transition c op c' o)
    (memtable : op.IsMemtable) (silent : Op.logged (op, o) = none) : Replays c' d := by
  cases transition with
  | share | release => exact h.congr rfl rfl rfl rfl
  | @pin _ _ t e found =>
    refine h.congr rfl rfl ?_ rfl
    cases hi : c.lookup t with
    | zero =>
      cases hc : c.elems with
      | nil => rfl
      | cons x xs =>
        rw [hc, hi] at found
        cases found
        rfl
    | succ i =>
      cases hc : c.elems <;> rfl
  | @unpin s =>
    refine h.congr rfl rfl ?_ rfl
    cases hc : c.elems with
    | nil => rfl
    | cons x xs =>
      simp only [List.map_cons, List.head?_cons, Option.map_some, Option.some.injEq]
      unfold Chain.unpin
      split <;> rfl
  | reject | store | collect => cases silent
  | squash | apply | incomplete | add | upgrade => cases memtable

end Chain

theorem Sim.newest {w : Heap S P} {l : List Addr} {c : Chain S P} (h : Sim w l c) :
    ∃ e es, c.elems = e :: es ∧ w.newest = .ok e.partition := by
  obtain ⟨a, -, v, es, -, head, hv, hc⟩ := h.exists_head
  refine ⟨_, es, hc, ?_⟩
  unfold Heap.newest PartitionVersionRef.get
  rw [head]
  simp [hv, PartitionVersion.toElem]

/-- In a run in which no read moves a write, applying the writes alone to a new entry accepts the same writes
under the same numbers and ends with the same newest payload. -/
theorem replay_reproduces [PartitionOps S V P] (e : EntryAddr) (mp : P) {tr : List (Op S V P × Answer P)} {w : Heap S P}
    (run : Run Heap.step (fun _ w op => w.NotPromoted op) (Heap.ofPartition e mp) tr w) (e' : EntryAddr) :
    ∃ w₂, Run Heap.step (fun _ _ _ => True) (Heap.ofPartition e' mp) (tr.filterMap Op.logged) w₂ ∧
      w₂.newest = w.newest := by
  have start : Chain.Replays (Chain.ofPartition mp : Chain S P) (Chain.ofPartition mp) :=
    ⟨rfl, rfl, rfl, rfl, List.forall_mem_singleton.2 rfl, .inl ⟨rfl, rfl⟩⟩
  obtain ⟨w₂, run₂, l, c, l₂, d, sim, sim₂, replays⟩ := run.visible Heap.step
    (fun w w₂ => ∃ l c l₂ d, Sim w l c ∧ Sim w₂ l₂ d ∧ Chain.Replays c d) Op.logged
    (by
      rintro tr w op w' o w₂ keeps hs ⟨l, c, l₂, d, sim, sim₂, replays⟩ silent
      obtain ⟨c', l', sim', transition, -⟩ := sim.transition hs
      exact ⟨l', c', l₂, d, sim', sim₂, replays.hidden transition keeps.1 silent⟩)
    (by
      rintro tr w op w' o w₂ op' o' keeps hs ⟨l, c, l₂, d, sim, sim₂, replays⟩ shown
      obtain ⟨c', l', sim', transition, -⟩ := sim.transition hs
      cases op with
      | applyView s mpv mpSchema v =>
        cases shown
        have free := keeps.2 s mpv mpSchema v rfl
        rw [sim.hvw, sim.hvr] at free
        obtain ⟨d', hd, replays'⟩ := replays.applyView transition free
        have hag := sim₂.step (.applyView s mpv mpSchema v)
        rw [hd] at hag
        obtain ⟨⟨w₂', o₂⟩, hw, ho, l₂', -, sim₂'⟩ := hag.of_ok_right
        cases ho
        exact ⟨w₂', hw, l', c', l₂', d', sim', sim₂', replays'⟩
      | _ => cases shown)
    ⟨_, _, _, _, Sim.ofPartition e mp, Sim.ofPartition e' mp, start⟩
  obtain ⟨x, xs, hc, newest⟩ := sim.newest
  obtain ⟨y, ys, hd, newest₂⟩ := sim₂.newest
  have same := replays.newest
  rw [hc, hd] at same
  refine ⟨w₂, run₂, ?_⟩
  rw [newest, newest₂]
  exact congrArg Except.ok (Option.some.inj same)

theorem replay_reproduces_two : ∃ p w w₂, Run Heap.step (fun _ w op => w.NotPromoted op) newEntry
        [(put 1 0 7, .write ⟨true, 1⟩), (readAt 1, .snapshot 0 1 p), (put 2 1 8, .write ⟨true, 2⟩)] w ∧
      Run Heap.step (fun _ _ _ => True) newEntry
        [(put 1 0 7, .write ⟨true, 1⟩), (put 2 1 8, .write ⟨true, 2⟩)] w₂ ∧ w₂.newest = w.newest := by
  have run : Run Heap.step (fun _ w op => w.NotPromoted op) newEntry _ _ :=
    .snoc (.snoc (.snoc .init (i := put 1 0 7) ⟨trivial, fun _ _ _ _ h => by cases h; decide⟩ rfl)
      (i := readAt 1) ⟨trivial, fun _ _ _ _ h => by cases h⟩ rfl)
      (i := put 2 1 8) ⟨trivial, fun _ _ _ _ h => by cases h; decide⟩ rfl
  obtain ⟨w₂, run₂, newest⟩ := replay_reproduces 0 _ run 0
  exact ⟨_, _, w₂, run, run₂, newest⟩

/-- What the writes were answered. -/
def writeResult? : Except Fault (Answer P) → Option WriteResult
  | .ok (.write r) => some r
  | _ => none

/-- Writes at versions 1, 3 and 5, with a read at version 5 before the second. In the run the second is stored
under 6 and the third is rejected; replay stores them under 3 and 5. -/
theorem replay_differs :
    (trace Heap.step newEntry [put 1 0 7, readAt 5, put 3 1 8, put 5 2 9]).filterMap writeResult? =
        [⟨true, 1⟩, ⟨true, 6⟩, ⟨false, 6⟩] ∧
      (trace Heap.step newEntry [put 1 0 7, put 3 1 8, put 5 2 9]).filterMap writeResult? =
        [⟨true, 1⟩, ⟨true, 3⟩, ⟨true, 5⟩] :=
  ⟨rfl, rfl⟩

end ScyllaMoon.Mvcc
