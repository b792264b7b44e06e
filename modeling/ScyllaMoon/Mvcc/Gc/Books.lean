import ScyllaMoon.Mvcc.Gc.Victim

/-!
# The books of the collector

From the hundredth version on, every accepted write unlinks one old version. The code counts the
numbered versions in `num_versions` and keeps the oldest of them in `last_version`; the version
numbered 0 that the entry was created with stays behind it. That holds as long as the first write is
stored under 1, no number wraps around and no write collects while a snapshot pins `last_version`.
-/

namespace ScyllaMoon.Mvcc

open Lib List Option

variable {S V P : Type}

namespace Heap

/-- The versions of the chain with a number of 1 or more, newest first. -/
def numbered (w : Heap S P) : List Addr :=
  w.chain.filter fun a => (w.versions a).any fun v => decide (1 ≤ v.versionNumber)

/-- What the collector relies on: the counter, the pointer to the oldest numbered version, and the
version at address 0, with which the entry was created, behind it. -/
structure GcBookkeeping (w : Heap S P) : Prop where
  count : w.entry.numVersions.toNat = w.numbered.length
  last : w.entry.lastVersion = w.numbered.getLast?
  tail : w.chain.getLast? = some 0
  base : (w.versions 0).map PartitionVersion.versionNumber = some 0

/-- The write keeps the books: it is rejected, or its number fits and is 1 if it is the first, and no
snapshot pins `last_version` if it collects. -/
def KeepsBooks (w : Heap S P) : Op S V P → Prop
  | .applyView s mpv mpSchema v =>
    (v ≠ 0 ∧ v ≤ w.entry.highestVersionWritten) ∨
      NumberFits w.entry.highestVersionRead w.entry.highestVersionWritten (.applyView s mpv mpSchema v : Op S V P) ∧
      (w.entry.highestVersionWritten = 0 → v = 0 ∨ v = 1 ∧ w.entry.highestVersionRead = 0) ∧
      (w.entry.numVersions ≥ 100 → ∀ a u, w.entry.lastVersion = some a → w.versions a = some u → u.snapshot = none)
  | _ => True

/-- From `w` to `w'` one version was unlinked: the one `last_version` was at, on which no live snapshot is. -/
def CollectsLast (w w' : Heap S P) : Prop :=
  ∃ a ∈ w.chain, w.entry.lastVersion = some a ∧ w'.chain = (w.brk :: w.chain).erase a ∧
    ∀ s snp, w.snapshots s = some snp → snp.version.version ≠ some a

end Heap

namespace Chain

/-- The books of the list: the numbered versions, the base behind them, and the counters about them. -/
structure Books (c : Chain S P) : Prop where
  numbers : ∃ ns, c.numbers = ns ++ [0] ∧ (0 : UInt32) ∉ ns ∧ ns.length = c.numVersions.toNat
  last : c.last = if c.numVersions = 0 then .null else .idx (c.numVersions.toNat - 1)
  few : c.numVersions.toNat ≤ 100
  start : c.numVersions = 0 ↔ c.highestVersionWritten = 0

variable {c c' : Chain S P}

theorem Books.congr (h : c.Books) (numbers : c'.numbers = c.numbers) (last : c'.last = c.last)
    (num : c'.numVersions = c.numVersions) (hvw : c'.highestVersionWritten = c.highestVersionWritten) : c'.Books := by
  obtain ⟨h1, h2, h3, h4⟩ := h
  exact ⟨by rwa [numbers, num], by rwa [last, num], by rwa [num], by rwa [num, hvw]⟩

theorem Books.length_elems (h : c.Books) : c.elems.length = c.numVersions.toNat + 1 := by
  obtain ⟨ns, hn, -, hl⟩ := h.numbers
  have := congrArg length hn
  simpa [Chain.numbers, hl] using this

variable {v : UInt32}

/-- The first write, if it meets the condition, is stored under 1. -/
theorem promotedVersion_first {hvr : UInt32} (first : v = 0 ∨ v = 1 ∧ hvr = 0) : promotedVersion hvr 0 v = 1 := by
  rcases first with rfl | ⟨rfl, rfl⟩ <;> rfl

variable {n : UInt32}

theorem Books.store {c : Chain S P} (h : c.Books) (pos : n ≠ 0) (first : n = 1 ↔ c.highestVersionWritten = 0) (mp : P) :
    ∃ ns, (c.store n mp).numbers = n :: ns ++ [0] ∧ (0 : UInt32) ∉ n :: ns ∧ ns.length = c.numVersions.toNat ∧
      (c.store n mp).last = .idx c.numVersions.toNat := by
  obtain ⟨ns, hn, h0, hl⟩ := h.numbers
  refine ⟨ns, ?_, ?_, hl, ?_⟩
  · simpa [Chain.numbers, Chain.store, Chain.push] using hn
  · simpa [h0] using pos.symm
  · simp only [Chain.store, first, ← h.start, h.last]
    by_cases hz : c.numVersions = 0
    · simp [hz]
    · have : c.numVersions.toNat ≠ 0 := fun e => hz (UInt32.toNat_inj.1 e)
      simp only [if_neg hz, LastVersion.push, LastVersion.idx.injEq]
      omega

/-- `KeepsBooks` of the heap, as the list sees it, for a write that is not rejected. -/
structure KeepsBooks (c : Chain S P) (v : UInt32) : Prop where
  low : v = 0 → c.highestVersionWritten.toNat + 1 < 4294967296
  high : v ≠ 0 → v ≤ c.highestVersionRead → c.highestVersionRead.toNat + 1 < 4294967296
  first : c.highestVersionWritten = 0 → v = 0 ∨ v = 1 ∧ c.highestVersionRead = 0
  unpinned : c.numVersions ≥ 100 → ∀ k e, c.last = .idx k → c.elems[k]? = some e → e.snapshot = none

theorem KeepsBooks.promoted (h : c.KeepsBooks v) (kept : ¬c.rejects v) :
    c.promoted v ≠ 0 ∧ (c.promoted v = 1 ↔ c.highestVersionWritten = 0) := by
  have hlt := (promotedVersion_gt kept h.low h.high).1
  rw [UInt32.lt_iff_toNat_lt] at hlt
  refine ⟨fun e => ?_, fun e => ?_, fun e => ?_⟩
  · rw [show promotedVersion _ _ v = 0 from e] at hlt
    simp at hlt
  · rw [show promotedVersion _ _ v = 1 from e] at hlt
    exact UInt32.toNat_inj.1 (Nat.lt_one_iff.1 (by simpa using hlt))
  · rw [Chain.promoted, e]
    exact promotedVersion_first (h.first e)

theorem Books.stored (h : c.Books) (pos : n ≠ 0) (first : n = 1 ↔ c.highestVersionWritten = 0) (mp : P)
    (few : ¬c.numVersions ≥ 100) : (c.store n mp).Books := by
  obtain ⟨ns, hn, h0, hl, hlast⟩ := h.store pos first mp
  have hlt : c.numVersions.toNat < 100 := by simpa [UInt32.le_iff_toNat_le] using few
  have hnum : (c.store n mp).numVersions.toNat = c.numVersions.toNat + 1 := by
    simp only [Chain.store, UInt32.toNat_add, UInt32.toNat_one]
    omega
  have hne : (c.store n mp).numVersions ≠ 0 := fun e => by
    rw [e] at hnum
    simp at hnum
  refine ⟨⟨n :: ns, hn, h0, by simp [hl, hnum]⟩, ?_, by omega, ?_⟩
  · rw [hlast, if_neg hne, hnum, Nat.add_sub_cancel]
  · exact ⟨fun e => absurd e hne, fun e => absurd e pos⟩

/-- A full chain: one hundred numbered versions and the base. -/
theorem Books.full (h : c.Books) (full : c.numVersions ≥ 100) : c.numVersions = 100 := by
  have hge : 100 ≤ c.numVersions.toNat := by simpa [UInt32.le_iff_toNat_le] using full
  exact UInt32.toNat_inj.1 (Nat.le_antisymm h.few hge)

/-- The collector takes the oldest numbered version, and the books are in order again. -/
theorem Books.collected (h : c.Books) (pos : n ≠ 0) (first : n = 1 ↔ c.highestVersionWritten = 0) {mp : P}
    (full : c.numVersions ≥ 100) (unpinned : ∀ k e, c.last = .idx k → c.elems[k]? = some e → e.snapshot = none)
    {i : Nat} (hc : Collects (c.store n mp) i c') : i = 99 ∧ c'.Books := by
  obtain ⟨ns, hn, h0, hl, hlast⟩ := h.store pos first mp
  have hnum := h.full full
  have hclast : c.last = .idx 99 := by rw [h.last, hnum]; rfl
  rw [hnum] at hl hlast
  have hi : i = 99 := by
    rcases hc.last with ⟨hi, -⟩ | ⟨hi, e, s, he, hs⟩
    · rw [hlast] at hi
      cases hi
      rfl
    · rw [hlast] at hi
      cases hi
      cases (unpinned 99 e hclast (by simpa [Chain.store, Chain.push] using he)).symm.trans hs
  subst hi
  have hlen : ns.length = 100 := hl
  obtain ⟨xs, x, rfl⟩ : ∃ xs x, ns = xs ++ [x] :=
    ⟨ns.dropLast, ns.getLast (by rintro rfl; cases hlen), (dropLast_append_getLast _).symm⟩
  have hxs : xs.length = 99 := by simpa using hlen
  have hc'num : c'.numVersions = 100 := by
    rw [hc.eq]
    simp [Chain.store, hnum]
  refine ⟨rfl, ⟨n :: xs, ?_, fun hm => h0 ?_, ?_⟩, ?_, ?_, ?_⟩
  · have hold : c.numbers = xs ++ x :: [0] := by simpa [Chain.numbers] using (cons.inj hn).2
    rw [hc.numbers, hold, eraseIdx_append_of_length_le (by rw [hxs]), hxs]
    simp
  · rw [← cons_append]
    exact mem_append_left _ hm
  · rw [hc'num]
    simp [hxs]
  · rw [hc.eq]
    simp [Chain.store, hnum]
  · rw [hc'num]
    decide
  · rw [hc'num, hc.eq]
    exact ⟨fun e => absurd e (by decide), fun e => absurd e pos⟩

variable [PartitionOps S V P]

/-- One request of a memtable keeps the books. -/
theorem Transition.books {op : Op S V P} {o : Answer P} (h : Transition c op c' o) (memtable : op.IsMemtable)
    (inv : c.Books) (keeps : ∀ s mpv mpSchema v, op = .applyView s mpv mpSchema v → ¬c.rejects v → c.KeepsBooks v) :
    c'.Books := by
  cases h with
  | share | release => exact inv.congr rfl rfl rfl rfl
  | pin found => exact inv.congr (numbers_set found rfl) rfl rfl rfl
  | unpin => exact inv.congr (by simp [numbers]) rfl rfl rfl
  | squash => exact inv
  | reject => exact inv
  | store kept written few =>
    obtain ⟨pos, first⟩ := (keeps _ _ _ _ rfl kept).promoted kept
    exact inv.stored pos first _ few
  | collect kept written full collects =>
    have hk := keeps _ _ _ _ rfl kept
    obtain ⟨pos, first⟩ := hk.promoted kept
    exact (inv.collected pos first full (hk.unpinned full) collects).2
  | apply | incomplete | add | upgrade => cases memtable

theorem Transition.numVersions_of_full {s mpSchema : S} {mpv : V} {o : Answer P}
    (h : Transition c (.applyView s mpv mpSchema v) c' o) (full : c.numVersions ≥ 100) :
    c'.numVersions = c.numVersions := by
  cases h with
  | reject => rfl
  | store kept written few => exact absurd full few
  | collect kept written full collects =>
    rw [collects.eq]
    exact UInt32.add_sub_cancel ..

/-- In order, the collector never runs into a null pointer. -/
theorem Books.applyView_ok (inv : c.Books) {s mpSchema : S} {mpv : V} {mp : P} (kept : ¬c.rejects v)
    (keeps : c.KeepsBooks v) (written : writtenPartition s mpv mpSchema v (c.promoted v) = .ok mp) :
    ∃ c', c.applyView s mpv mpSchema v = .ok (c', { accepted := true, commitVersion := c.promoted v }) := by
  obtain ⟨pos, first⟩ := keeps.promoted kept
  unfold Chain.applyView
  rw [if_neg kept]
  simp only [written, ok_bind]
  by_cases full : c.numVersions ≥ 100
  · obtain ⟨ns, -, -, -, hlast⟩ := inv.store pos first mp
    have hnum := inv.full full
    have hlen := inv.length_elems
    rw [hnum] at hlast hlen
    have hclast : c.last = .idx 99 := by rw [inv.last, hnum]; rfl
    obtain ⟨e, he⟩ : ∃ e, c.elems[99]? = some e := ⟨_, getElem?_eq_getElem (by rw [hlen]; decide)⟩
    have hadv : (c.store (c.promoted v) mp).advanceLast = .ok { c.store (c.promoted v) mp with last := .idx 99 } := by
      have he' : (c.store (c.promoted v) mp).elems[(100 : UInt32).toNat]? = some e := he
      simp only [Chain.advanceLast, hlast, he', keeps.unpinned full 99 e hclast he, isNone_none, if_true]
      rfl
    have hgt : 99 + 1 < (c.store (c.promoted v) mp).elems.length := by
      simp only [Chain.store, Chain.push, length_cons, hlen]
      decide
    simp only [if_pos full, Chain.collectGarbage, hadv, ok_bind, if_pos hgt, pure_eq_ok]
    exact ⟨_, rfl⟩
  · simp only [if_neg full, pure_eq_ok, ok_bind]
    exact ⟨_, rfl⟩

end Chain

namespace Sim

variable {w : Heap S P} {l : List Addr} {c : Chain S P}

theorem number_get (h : Sim w l c) {i : Nat} {a : Addr} (ha : l[i]? = some a) :
    ∃ v, w.versions a = some v ∧ c.numbers[i]? = some v.versionNumber := by
  obtain ⟨v, hv, he⟩ := h.get ha
  exact ⟨v, hv, by simp [Chain.numbers, he, PartitionVersion.toElem]⟩

/-- The numbered versions are those in front of the base. -/
theorem numbered_eq (h : Sim w l c) {ns : List UInt32} (hn : c.numbers = ns ++ [0]) (h0 : (0 : UInt32) ∉ ns) :
    w.numbered = l.take ns.length := by
  have hlen : l.length = ns.length + 1 := by
    have := congrArg length hn
    simpa [Chain.numbers, h.length_eq] using this
  have hfront : ∀ a ∈ l.take ns.length, ((w.versions a).any fun v => decide (1 ≤ v.versionNumber)) = true := by
    intro a ha
    obtain ⟨i, hi⟩ := mem_iff_getElem?.1 ha
    rw [getElem?_take] at hi
    split at hi
    next hlt =>
      obtain ⟨v, hv, hnum⟩ := h.number_get hi
      rw [hn, getElem?_append_left hlt] at hnum
      have hne : v.versionNumber ≠ 0 := fun e => h0 (e ▸ mem_of_getElem? hnum)
      have hpos : v.versionNumber.toNat ≠ 0 := fun e => hne (UInt32.toNat_inj.1 e)
      simp only [hv, any_some, decide_eq_true_eq, UInt32.le_iff_toNat_le, UInt32.toNat_one]
      omega
    · cases hi
  have hback : ∀ a ∈ l.drop ns.length, ((w.versions a).any fun v => decide (1 ≤ v.versionNumber)) ≠ true := by
    intro a ha
    obtain ⟨i, hi⟩ := mem_iff_getElem?.1 ha
    rw [getElem?_drop] at hi
    obtain ⟨v, hv, hnum⟩ := h.number_get hi
    have hlt := (List.getElem?_eq_some_iff.1 hi).1
    obtain rfl : i = 0 := by omega
    have hz : v.versionNumber = 0 := by simpa [hn, eq_comm] using hnum
    simp [hv, hz]
  rw [Heap.numbered, h.chain_eq]
  conv_lhs => rw [← take_append_drop ns.length l]
  rw [filter_append, filter_eq_self.2 hfront, filter_eq_nil_iff.2 hback, append_nil]

/-- Books in order on the list are books in order on the heap. -/
theorem gcBookkeeping (h : Sim w l c) (inv : c.Books) (tail : l.getLast? = some 0) : w.GcBookkeeping := by
  obtain ⟨ns, hn, h0, hl⟩ := inv.numbers
  have hnumbered := h.numbered_eq hn h0
  have hlen : l.length = ns.length + 1 := by rw [h.length_eq, inv.length_elems, hl]
  constructor
  · rw [hnumbered, h.num, length_take, hlen, hl]
    omega
  · rw [hnumbered, getLast?_take]
    have hlast := h.last
    rw [inv.last] at hlast
    by_cases hz : c.numVersions = 0
    · rw [if_pos hz] at hlast
      rw [if_pos (by rw [hl, hz]; rfl)]
      exact hlast
    · have hpos : ns.length ≠ 0 := fun e => hz (UInt32.toNat_inj.1 (hl.symm.trans e))
      rw [if_neg hz, ← hl] at hlast
      obtain ⟨a, ha, hi⟩ := hlast
      rw [if_neg hpos, ha, hi]
      rfl
  · rw [h.chain_eq, tail]
  · have hi : l[ns.length]? = some 0 := by
      rw [getLast?_eq_getElem?, hlen] at tail
      exact tail
    obtain ⟨v, hv, hnum⟩ := h.number_get hi
    have hz : v.versionNumber = 0 := by simpa [hn, eq_comm] using hnum
    rw [hv, map_some, hz]

theorem keepsBooks (h : Sim w l c) {s mpSchema : S} {mpv : V} {v : UInt32}
    (keeps : w.KeepsBooks (.applyView s mpv mpSchema v : Op S V P)) (kept : ¬c.rejects v) : c.KeepsBooks v := by
  unfold Heap.KeepsBooks NumberFits at keeps
  rw [h.hvr, h.hvw, h.num] at keeps
  obtain rejected | ⟨⟨low, high⟩, first, unpinned⟩ := keeps
  · exact absurd rejected kept
  refine ⟨low, high, first, fun full k e hk he => ?_⟩
  obtain ⟨a, u, ha, -, hu, hue⟩ := h.lastVersion hk
  rw [he, some.injEq] at hue
  rw [hue]
  exact unpinned full a u ha hu

variable {w' : Heap S P} {l' : List Addr} {c' : Chain S P}

/-- The base stays behind the chain. -/
theorem Rewrites.tail {op : Op S V P} (hr : Rewrites w.brk l c c' op l') (memtable : op.IsMemtable) (h : Sim w l c)
    (h' : Sim w' l' c') (books : c'.Books) (tail : l.getLast? = some 0) : l'.getLast? = some 0 := by
  cases op with
  | read | drop =>
    cases hr
    exact tail
  | applyView s mpv mpSchema v =>
    simp only [Rewrites] at hr
    split at hr
    · rw [hr, tail]
    · split at hr
      · obtain ⟨i, hi, hlt, rfl⟩ := hr
        obtain ⟨xs, rfl⟩ : ∃ xs, l = xs ++ [0] := getLast?_eq_some_iff.1 tail
        -- `last_version` is the oldest numbered version, so one more is behind the version that goes
        have hlen := h'.length_eq
        have hlast := books.last
        rw [hi] at hlast
        have hi1 : i + 1 < (w.brk :: xs).length := by
          split at hlast
          · cases hlast
          next hz =>
            cases hlast
            have hpos : c'.numVersions.toNat ≠ 0 := fun e => hz (UInt32.toNat_inj.1 e)
            rw [books.length_elems, length_eraseIdx_of_lt (by simpa using hlt)] at hlen
            simp at hlen ⊢
            omega
        rw [← cons_append, eraseIdx_append_of_lt_length hi1]
        exact getLast?_concat ..
      · rw [hr, getLast?_cons, tail]
        rfl
  | _ => cases memtable

/-- A write that collects takes the version `last_version` is at. -/
theorem collectsLast (h : Sim w l c) (h' : Sim w' l' c') (inv : c.Books) (full : c.numVersions ≥ 100) (books : c'.Books)
    (num : c'.numVersions = c.numVersions)
    (unpinned : ∀ k e, c.last = .idx k → c.elems[k]? = some e → e.snapshot = none)
    (hl : ∃ i, c'.last = .idx i ∧ i < l.length ∧ l' = (w.brk :: l).eraseIdx (i + 1)) : w.CollectsLast w' := by
  have hnum := inv.full full
  have hclast : c.last = .idx 99 := by rw [inv.last, hnum]; rfl
  obtain ⟨i, hi, -, rfl⟩ := hl
  obtain rfl : i = 99 := by
    rw [books.last, num, hnum] at hi
    cases hi
    rfl
  obtain ⟨a, u, ha, hget, hu, hue⟩ := h.lastVersion hclast
  have hnodup : (w.brk :: l).Nodup := nodup_cons.2 ⟨h.brk_notMem, h.chain.nodup⟩
  refine ⟨a, by rw [h.chain_eq]; exact mem_of_getElem? hget, ha, ?_, fun s snp hs hv => ?_⟩
  · rw [h'.chain_eq, h.chain_eq]
    obtain ⟨hlt, hget⟩ := List.getElem?_eq_some_iff.1 (show (w.brk :: l)[99 + 1]? = some a from hget)
    rw [erase_eq_eraseIdx_of_idxOf]
    rw [← hget]
    exact hnodup.idxOf_getElem _ hlt
  · have hpin : u.snapshot = some s := h.pins.inj (Heap.elem?_of hu) hs hv
    cases (unpinned 99 _ hclast hue).symm.trans hpin

end Sim

/-- In a run of memtable requests that all keep the books, the books are in order in every state, and an
accepted write never fails in the collector: once there are a hundred numbered versions it unlinks one
that no live snapshot is on. -/
theorem gc_bookkeeping [PartitionOps S V P] (e : EntryAddr) (mp : P) {tr : List (Op S V P × Answer P)} {w : Heap S P}
    (run : Run Heap.step (fun _ w op => op.IsMemtable ∧ w.KeepsBooks op) (Heap.ofPartition e mp) tr w) :
    w.GcBookkeeping ∧ ∀ s mpv mpSchema v (mp' : P), w.KeepsBooks (.applyView s mpv mpSchema v : Op S V P) →
      ¬(v ≠ 0 ∧ v ≤ w.entry.highestVersionWritten) →
      writtenPartition s mpv mpSchema v
        (promotedVersion w.entry.highestVersionRead w.entry.highestVersionWritten v) = .ok mp' →
      ∃ w' r, w.applyView s mpv mpSchema v = .ok (w', r) ∧ r.accepted = true ∧
        if w.entry.numVersions ≥ 100 then w.CollectsLast w' else w'.chain = w.brk :: w.chain := by
  obtain ⟨l, c, sim, inv, tail⟩ := Sim.run (fun _ l c => c.Books ∧ l.getLast? = some 0) (Sim.ofPartition e mp)
    ⟨⟨⟨[], rfl, by simp, rfl⟩, rfl, Nat.zero_le _, Iff.rfl⟩, rfl⟩
    (fun _ w l c op w' l' c' o sim inv ok h sim' hr => by
      obtain ⟨memtable, keeps⟩ := ok
      have books := h.books memtable inv.1 fun s mpv mpSchema v hop kept => sim.keepsBooks (hop ▸ keeps) kept
      exact ⟨books, hr.tail memtable sim sim' books inv.2⟩) run
  refine ⟨sim.gcBookkeeping inv tail, fun s mpv mpSchema v mp' keeps kept written => ?_⟩
  rw [sim.hvr, sim.hvw] at written
  rw [sim.hvw] at kept
  have hk := sim.keepsBooks keeps kept
  obtain ⟨c', hc⟩ := inv.applyView_ok kept hk written
  have hag := sim.applyView s mpv mpSchema v
  rw [hc] at hag
  obtain ⟨⟨w', r⟩, hw, rfl, l', hr, sim'⟩ := hag.of_ok_right
  have h : Chain.Transition c (.applyView s mpv mpSchema v) c' (.write _) :=
    Chain.step_transition (by rw [Chain.step, hc]; rfl)
  have books := h.books trivial inv fun _ _ _ _ hop kept => by cases hop; exact hk
  refine ⟨w', _, hw, rfl, ?_⟩
  rw [Sim.Rewrites, if_neg (show ¬c.rejects v from kept)] at hr
  rw [sim.num]
  by_cases full : c.numVersions ≥ 100
  · rw [if_pos full] at hr ⊢
    exact sim.collectsLast sim' inv full books (h.numVersions_of_full full) (hk.unpinned full) hr
  · rw [if_neg full] at hr ⊢
    rw [sim'.chain_eq, sim.chain_eq, hr]

/-- A tagged write, the first one under 1, before any read. -/
def unread (c : Chain Mutation.TableSchema (Mutation.MutationPartition Nat Mutation.Cell)) : UsertableOp → Bool
  | .applyView _ _ _ v =>
    v != 0 && c.highestVersionRead == 0 && (c.highestVersionWritten != 0 || v == 1) && c.nextSnapshot == 0
  | _ => false

theorem gc_bookkeeping_collected : ∃ tr w, Run Heap.step (fun _ w op => op.IsMemtable ∧ w.KeepsBooks op) newEntry tr w ∧
    w.GcBookkeeping ∧ w.numbers.length = 101 ∧ 1 ∉ w.numbers := by
  have served : ((after (fun c op => if unread c op then c.step op else .error .assertFailed) (Chain.ofPartition {})
      (puts 1 101)).any fun c => c.numbers.length == 101 && !c.numbers.contains 1) = true := by decide +kernel
  obtain ⟨c, hc, hn⟩ := (any_eq_true _ _).1 served
  have start : Run Heap.step (fun _ w op => op.IsMemtable ∧ w.KeepsBooks op) newEntry [] newEntry := .init
  obtain ⟨tr, w, l, run, -, sim⟩ := Sim.run_of_after start (Sim.ofPartition 0 _) unread (fun _ w l c sim op _ pass => by
      cases op with
      | applyView s mpv mpSchema v =>
        simp only [unread, Bool.and_eq_true, bne_iff_ne, beq_iff_eq, Bool.or_eq_true] at pass
        obtain ⟨⟨⟨tagged, hvr⟩, first⟩, next⟩ := pass
        unfold Heap.KeepsBooks NumberFits
        rw [sim.hvr, sim.hvw, hvr]
        refine ⟨trivial, .inr ⟨⟨fun h => absurd h tagged, fun _ _ => by decide⟩,
          fun h => .inr ⟨first.resolve_left (absurd h), rfl⟩, fun _ a u _ hu => eq_none_iff_forall_ne_some.2 fun s hs => ?_⟩⟩
        obtain ⟨snp, hsnp, -⟩ := sim.pins.pinned (Heap.elem?_of hu) hs
        cases hsnp.symm.trans (sim.pins.fresh (by rw [sim.next, next]; exact Nat.zero_le s))
      | _ => cases pass) hc
  rw [← sim.numbers_eq] at hn
  exact ⟨tr, w, run, (gc_bookkeeping 0 _ run).1, by simpa using hn⟩

/-- With the books in order the chain ends in the version numbered 0. -/
theorem Heap.GcBookkeeping.getLast?_numbers {w : Heap S P} (h : w.GcBookkeeping) : w.numbers.getLast? = some 0 := by
  obtain ⟨xs, hxs⟩ := getLast?_eq_some_iff.1 h.tail
  rw [Heap.numbers, hxs, filterMap_append, filterMap_cons, h.base]
  exact getLast?_concat ..

/-- One hundred writes, a snapshot of the oldest and one more write: the collector unlinks the base and
counts a version less. And a hundred writes from version 5 on leave `last_version` null, so that the next
one dereferences a null pointer. -/
theorem gc_books_lost : (∃ tr w, Run Heap.step (fun _ _ op => op.IsMemtable) newEntry tr w ∧ ¬w.GcBookkeeping) ∧
      (trace Heap.step newEntry (puts 5 101)).getLast? = some (.error .nullDeref) := by
  constructor
  · have hlast : ((after Chain.step (Chain.ofPartition {}) (puts 1 100 ++ [readAt 1, put 101 100 101])).any
        fun c => c.numbers.getLast? == some 1) = true := by decide +kernel
    obtain ⟨c, hc, hn⟩ := (any_eq_true _ _).1 hlast
    have all : ∀ op ∈ puts 1 100 ++ [readAt 1, put 101 100 101], op.IsMemtable := by
      simp [puts, readAt, put, Op.IsMemtable, or_imp, forall_and]
    obtain ⟨tr, w, l, run, -, sim⟩ := Sim.run_of_after .init (Sim.ofPartition 0 _) (fun _ _ => true)
      (fun _ _ _ _ _ op hop _ => all op hop) hc
    refine ⟨tr, w, run, fun books => ?_⟩
    have h0 := books.getLast?_numbers
    rw [sim.numbers_eq, beq_iff_eq.1 hn] at h0
    cases h0
  · rw [newEntry, (Sim.ofPartition 0 _).trace_eq]
    decide +kernel

end ScyllaMoon.Mvcc
