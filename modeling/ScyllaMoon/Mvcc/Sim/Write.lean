import ScyllaMoon.Mvcc.Sim.Relation

/-!
# Writing in the simulation

A version pushed in front, `partition_entry::apply` and its garbage collection, on the heap and on
the list. `Sim.applyView` also says which addresses are on the chain afterwards.
-/

namespace ScyllaMoon.Mvcc

open Lib Function List

variable {S V P : Type}

namespace Heap

variable {w : Heap S P}

/-- `set_version` hands the entry's reference over from `head` to `new`. -/
theorem setVersion_eq {new : Addr} {nv : PartitionVersion P} (head : Addr) (hv : PartitionVersion P)
    (unset : w.entry.snapshot = none) (hn : w.versions new = some nv) (free : nv.backref = none)
    (hh : w.entry.version.version = some head) (hhv : w.versions head = some hv) (ne : new ≠ head) :
    w.setVersion new = .ok { w with
      versions := update (update w.versions head (some { hv with backref := none })) new
        (some { nv with backref := some (.ofEntry w.self) })
      entry := { w.entry with version := { version := some new, evictable := w.entry.version.evictable } } } := by
  have hn' : update w.versions head (some { hv with backref := none }) new = some nv := by
    rw [update_of_ne ne, hn]
  simp [setVersion, unset, hn, free, assignEntryVersion, releaseRef, hh, attachRef, modifyVersion, hhv, getVersion, hn']

/-- The heap after a new version with partition `mp` and number `n` took over from `head`. -/
def pushed (w : Heap S P) (head : Addr) (hv : PartitionVersion P) (mp : P) (n : UInt32) : Heap S P :=
  { w with
    links := Links.insertBefore (update w.links w.brk {}) w.brk head
    versions := update (update w.versions head (some { hv with backref := none })) w.brk
      (some { backref := some (.ofEntry w.self), partition := mp, versionNumber := n })
    brk := w.brk + 1
    entry := { w.entry with version := { version := some w.brk, evictable := w.entry.version.evictable } } }

/-- The heap after a write was stored under `n`, before garbage collection. -/
def stored (w : Heap S P) (head : Addr) (hv : PartitionVersion P) (mp : P) (n : UInt32) : Heap S P :=
  let w' := w.pushed head hv mp n
  { w' with entry := { w'.entry with
    lastVersion := if n = 1 then some w.brk else w.entry.lastVersion
    highestVersionWritten := n } }

section

variable {hv : PartitionVersion P} {head : Addr} (hhv : w.versions head = some hv)
include hhv

theorem pushed_elem? (mp : P) (n : UInt32) :
    (w.pushed head hv mp n).elem? = update w.elem? w.brk (some { number := n, partition := mp }) := by
  have same : some hv.toElem = w.elem? head := (elem?_of hhv).symm
  simp only [elem?, pushed, comp_update, Option.map_some]
  rw [show PartitionVersion.toElem { hv with backref := none } = hv.toElem from rfl, same]
  exact congrArg (update · w.brk _) (update_eq_self head _)

variable (ne : head ≠ w.brk)
include ne

theorem insertBefore_construct (mp : P) : (w.construct mp).1.insertBefore w.brk head = .ok { w with
      links := Links.insertBefore (update w.links w.brk {}) w.brk head
      versions := update w.versions w.brk (some { partition := mp })
      brk := w.brk + 1 } := by
  have hnew : (update w.versions w.brk (some { partition := mp })) head = some hv := by
    rw [update_of_ne ne, hhv]
  simp only [construct, insertBefore, getVersion, hnew, ok_bind, pure_eq_ok]

variable (unset : w.entry.snapshot = none) (hh : w.entry.version.version = some head)
include unset hh

/-- `set_version` on a version just linked in front of `head`. -/
theorem setVersion_linked (mp : P) (n : UInt32) :
    setVersion { w with
      links := Links.insertBefore (update w.links w.brk {}) w.brk head
      versions := update w.versions w.brk (some { partition := mp, versionNumber := n })
      brk := w.brk + 1 } w.brk = .ok (w.pushed head hv mp n) := by
  refine (setVersion_eq head hv (by exact unset) (update_self ..) rfl (by exact hh)
    ((update_of_ne ne ..).trans hhv) ne.symm).trans ?_
  simp only [pushed, update_comm ne, update_idem]

theorem storeVersion_eq (mp : P) (n : UInt32) : w.storeVersion mp n = .ok (w.stored head hv mp n) := by
  have hget : (w.construct mp).1.entry.version.get = .ok head := by
    simp only [PartitionVersionRef.get, construct, hh]
  simp only [storeVersion, hget, ok_bind, show (w.construct mp).2 = w.brk from rfl, insertBefore_construct hhv ne,
    modifyVersion, getVersion, update_self, pure_eq_ok, update_idem]
  rw [setVersion_linked hhv ne unset hh]
  rfl

theorem addVersion_eq [PartitionOps S V P] (s : S) :
    w.addVersion s = .ok (w.pushed head hv (freshLike s hv.partition) 0) := by
  simp only [addVersion, PartitionVersionRef.get, hh, getVersion_of hhv, ok_bind,
    show (w.construct (freshLike s hv.partition)).2 = w.brk from rfl, insertBefore_construct hhv ne]
  exact setVersion_linked hhv ne unset hh _ 0

end

end Heap

namespace Sim

variable {w : Heap S P} {l : List Addr} {c : Chain S P}

variable {tl : List Addr} {hv : PartitionVersion P}

theorem pushed (h : Sim w l c) {head : Addr} (hl : l = head :: tl) (hhv : w.versions head = some hv) (mp : P)
    (n : UInt32) :
    Sim (w.pushed head hv mp n) (w.brk :: l) (c.push { number := n, partition := mp }) := by
  have hbl := h.brk_notMem
  have hc : Links.IsChain (Function.update w.links w.brk {}) l := by
    refine ⟨h.chain.seg.congr fun a ha => update_of_ne ?_ .., h.chain.nodup⟩
    exact fun e => hbl (e ▸ ha)
  have hel := Heap.pushed_elem? hhv mp n
  constructor
  · subst hl
    exact hc.insertBefore hbl
  · simp
  · rfl
  · exact h.unset
  · intro a ha
    have hab : a ≠ w.brk := Nat.ne_of_gt ha
    have hah : a ≠ head := fun e => by
      rw [e] at ha
      exact Nat.lt_irrefl _ (Nat.lt_trans (h.allocated_lt hhv) (Nat.lt_of_succ_le ha))
    simp only [Heap.pushed, update_of_ne hab, update_of_ne hah]
    exact h.fresh (Nat.le_of_succ_le ha)
  · rw [hel, map_cons, update_self, Chain.push, map_cons, ← h.elems]
    refine congrArg _ (map_congr_left fun a ha => update_of_ne ?_ ..)
    exact fun e => hbl (e ▸ ha)
  · refine LastAt.push (h.last.congr rfl (Nat.le_succ _) fun a hlt hva => ?_)
    have hah : a ≠ head := fun e => by rw [e, hhv] at hva; cases hva
    simp only [Heap.pushed, update_of_ne (Nat.ne_of_lt hlt), update_of_ne hah, hva]
  · exact h.hvr
  · exact h.hvw
  · exact h.num
  · exact h.snaps
  · exact h.next
  · rw [hel]
    exact h.pins.push rfl
  · intro a v hv hal
    subst hl
    simp only [mem_cons, not_or] at hal
    simp only [Heap.pushed, update_of_ne hal.1, update_of_ne hal.2.1] at hv ⊢
    rw [Links.insertBefore_of_ne hc.seg.1 hal.2.1 hal.1, update_of_ne hal.1]
    exact h.unlisted hv (by simpa using hal.2)
  · intro a v hv
    by_cases hab : a = w.brk
    · subst hab
      simp only [Heap.pushed, update_self, Option.some.injEq] at hv
      subst hv
      simp [Chain.push, Heap.pushed]
    · have hno : ¬(w.brk :: l).head? = some a := by simpa using fun e => hab e.symm
      rw [if_neg fun hh => hno hh.2]
      by_cases hah : a = head
      · subst hah
        simp only [Heap.pushed, update_of_ne hab, update_self, Option.some.injEq] at hv
        rw [← hv]
      · simp only [Heap.pushed, update_of_ne hab, update_of_ne hah] at hv
        rw [h.backrefs hv, if_neg]
        simpa [hl] using fun _ e => hah e.symm

/-- The version that `last_version` is at. -/
theorem lastVersion (h : Sim w l c) {k : Nat} (last : c.last = .idx k) :
    ∃ a u, w.entry.lastVersion = some a ∧ l[k]? = some a ∧ w.versions a = some u ∧ c.elems[k]? = some u.toElem := by
  have hlast := h.last
  rw [last] at hlast
  obtain ⟨a, ha, hi⟩ := hlast
  obtain ⟨u, hu, hue⟩ := h.get hi
  exact ⟨a, u, ha, hi, hu, hue⟩

/-- Where the list has no place for `last_version`, dereferencing it faults. -/
theorem deref_last (h : Sim w l c) : (c.last = .null → w.deref w.entry.lastVersion = .error .nullDeref) ∧
    (c.last = .dangling → w.deref w.entry.lastVersion = .error .useAfterFree) := by
  have hlast := h.last
  refine ⟨fun hcl => ?_, fun hcl => ?_⟩ <;> rw [hcl] at hlast
  · rw [show w.entry.lastVersion = none from hlast]
    rfl
  · obtain ⟨a, ha, -, hva⟩ := hlast
    simp only [ha, Heap.deref, hva]

theorem advanceLast (h : Sim w l c) : Agree (fun w' c' => Sim w' l c') w.advanceLast c.advanceLast := by
  unfold Heap.advanceLast Chain.advanceLast
  cases hcl : c.last with
  | null =>
    rw [h.deref_last.1 hcl]
    exact .error
  | dangling =>
    rw [h.deref_last.2 hcl]
    exact .error
  | idx i =>
    obtain ⟨a, v, ha, hi, hv, he⟩ := h.lastVersion hcl
    obtain ⟨xs, ys, hxy, hlen⟩ := split hi
    simp only [ha, Heap.deref_of hv, Heap.getVersion_of hv, he, ok_bind, pure_eq_ok]
    by_cases hp : v.snapshot.isNone
    · have hprev : w.prev a = .ok xs.getLast? := by
        subst hxy
        simp only [Heap.prev, Heap.getVersion_of hv, ok_bind, h.chain.prev_eq, pure_eq_ok]
      rw [if_pos hp, if_pos (by exact hp), hprev]
      refine .ok (h.counters ?_ h.hvr h.hvw h.num)
      cases i with
      | zero =>
        obtain rfl := eq_nil_of_length_eq_zero hlen
        rfl
      | succ k =>
        obtain ⟨zs, b, rfl⟩ := (eq_nil_or_concat' xs).resolve_left (by rintro rfl; simp at hlen)
        refine ⟨b, by simp, ?_⟩
        have hk : zs.length = k := by simpa using hlen
        simp [hxy, ← hk]
    · rw [if_neg hp, if_neg (by exact hp)]
      exact .ok h

/-- A version older than the first and newer than none that `last_version` needs is unlinked. -/
theorem unlinked {xs ys : List Addr} {b : Addr} (h : Sim w (xs ++ b :: ys) c) {i : Nat} (hi : i < xs.length)
    (hcl : c.last = .idx i) : Sim { w with links := w.links.erase b } (xs ++ ys) (c.unlink xs.length) := by
  have hb : (xs ++ b :: ys)[xs.length]? = some b := by simp
  obtain ⟨v, hv, he⟩ := h.get hb
  have hne : xs ≠ [] := by
    rintro rfl
    simp at hi
  have hh : (xs ++ b :: ys).head? = (xs ++ ys).head? := by
    rw [head?_append_of_ne_nil _ hne, head?_append_of_ne_nil _ hne]
  constructor
  · exact h.chain.erase.1
  · simp [hne]
  · exact h.head.trans hh
  · exact h.unset
  · exact h.fresh
  · have hx : (xs ++ b :: ys).eraseIdx xs.length = xs ++ ys := by
      simp [eraseIdx_append_of_length_le]
    rw [Chain.unlink, ← eraseIdx_map, ← h.elems, eraseIdx_map, hx]
    rfl
  · obtain ⟨a, ha, hai⟩ := hcl ▸ h.last
    rw [Chain.unlink, hcl]
    refine ⟨a, ha, ?_⟩
    rw [getElem?_append_left hi] at hai ⊢
    exact hai
  · exact h.hvr
  · exact h.hvw
  · exact h.num
  · exact h.snaps
  · exact h.next
  · rw [Chain.unlink, he]
    exact h.pins.unlink h.chain.nodup (Heap.elem?_of hv)
  · intro a u hu hal
    by_cases hab : a = b
    · rw [hab]
      exact h.chain.erase.2
    · have hl : a ∉ xs ++ b :: ys := by
        simp only [mem_append, mem_cons, not_or] at hal ⊢
        exact ⟨hal.1, hab, hal.2⟩
      exact (h.chain.erase_of_notMem hl).trans (h.unlisted hu hl)
  · intro a u hu
    rw [← hh]
    exact h.backrefs hu

/-- Garbage collection unlinks the version after `last_version`. -/
theorem collectGarbage (h : Sim w l c) :
    Agree (fun w' c' => ∃ i, c'.last = .idx i ∧ i + 1 < l.length ∧ Sim w' (l.eraseIdx (i + 1)) c')
      w.collectGarbage c.collectGarbage := by
  refine h.advanceLast.bind fun w c h => ?_
  cases hcl : c.last with
  | null =>
    rw [h.deref_last.1 hcl]
    exact .error
  | dangling =>
    rw [h.deref_last.2 hcl]
    exact .error
  | idx i =>
    obtain ⟨a, v, ha, hi, hv, -⟩ := h.lastVersion hcl
    obtain ⟨xs, ys, rfl, hlen⟩ := split hi
    simp only [ha, Heap.deref_of hv, Heap.next, Heap.getVersion_of hv, ok_bind, pure_eq_ok, h.chain.next_eq,
      ← h.length_eq]
    cases ys with
    | nil =>
      rw [if_neg (by simp; omega)]
      exact .error
    | cons b ys =>
      have hx : xs ++ a :: b :: ys = (xs ++ [a]) ++ b :: ys := by simp
      have hz : (xs ++ [a]).length = i + 1 := by simp [hlen]
      rw [hx] at h ⊢
      obtain ⟨u, hu, -⟩ := h.get (i := (xs ++ [a]).length) (a := b) (by simp)
      have herase : ((xs ++ [a]) ++ b :: ys).eraseIdx (i + 1) = (xs ++ [a]) ++ ys := by
        rw [← hz]
        simp [eraseIdx_append_of_length_le]
      rw [if_pos (by simp; omega), head?_cons, Heap.deref_of hu]
      refine .ok ⟨i, hcl, by simp; omega, ?_⟩
      have hs := h.unlinked (by omega) hcl
      rw [herase, ← hz, ← ha]
      exact hs.counters hs.last hs.hvr hs.hvw (by rw [h.num])

/-- Where a request leaves the addresses of the chain. Only an accepted write, a new version and an
upgrade move them; a write that collects drops the version after `last_version`. -/
def Rewrites (new : Addr) (l : List Addr) (c c' : Chain S P) : Op S V P → List Addr → Prop
  | .applyView _ _ _ v, l' =>
    if c.rejects v then l' = l
    else if c.numVersions ≥ 100 then ∃ i, c'.last = .idx i ∧ i < l.length ∧ l' = (new :: l).eraseIdx (i + 1)
    else l' = new :: l
  | .addVersion _, l' => l' = new :: l
  | .upgrade _ _, l' => l' = [new]
  | _, l' => l' = l

variable [PartitionOps S V P]

theorem stored (h : Sim w l c) {head : Addr} (hl : l = head :: tl) (hhv : w.versions head = some hv) (mp : P)
    (n : UInt32) :
    Sim { w.stored head hv mp n with
        entry := { (w.stored head hv mp n).entry with numVersions := w.entry.numVersions + 1 } }
      (w.brk :: l) (c.store n mp) := by
  have hp := h.pushed hl hhv mp n
  refine hp.counters ?_ hp.hvr rfl (by rw [h.num])
  by_cases hn : n = 1
  · simp only [Heap.stored, if_pos hn]
    exact ⟨w.brk, rfl, rfl⟩
  · simp only [Heap.stored, if_neg hn]
    exact hp.last

theorem applyView (h : Sim w l c) (s : S) (mpv : V) (mpSchema : S) (v : UInt32) :
    Agree (fun p q => p.2 = q.2 ∧ ∃ l', Rewrites w.brk l c q.1 (.applyView s mpv mpSchema v) l' ∧ Sim p.1 l' q.1)
      (w.applyView s mpv mpSchema v) (c.applyView s mpv mpSchema v) := by
  obtain ⟨head, tl, hv, -, hl, hh, hhv, -⟩ := h.exists_head
  have hne : head ≠ w.brk := fun e => h.brk_notMem (by simp [hl, ← e])
  unfold Heap.applyView Chain.applyView Rewrites
  simp only [Chain.rejects, Chain.promoted, ← h.hvw, ← h.hvr, ← h.num, pure_eq_ok]
  by_cases hr : v ≠ 0 ∧ v ≤ w.entry.highestVersionWritten
  · simp only [if_pos hr]
    exact .ok ⟨rfl, l, rfl, h⟩
  · simp only [if_neg hr]
    generalize promotedVersion w.entry.highestVersionRead w.entry.highestVersionWritten v = n
    cases hmp : (writtenPartition s mpv mpSchema v n : Except Fault P) with
    | error e => exact .error
    | ok mp =>
      have hs := h.stored hl hhv mp n
      simp only [ok_bind, Heap.storeVersion_eq hhv hne h.unset hh mp n,
        show (w.stored head hv mp n).entry.numVersions = w.entry.numVersions from rfl]
      by_cases hn : w.entry.numVersions ≥ 100
      · simp only [if_pos hn]
        refine hs.collectGarbage.bind fun w' c' ⟨i, hi, hlt, hs'⟩ => .ok ⟨rfl, _, ⟨i, hi, ?_, rfl⟩, hs'⟩
        simpa using hlt
      · simp only [if_neg hn]
        exact .ok ⟨rfl, _, rfl, hs⟩

end Sim

end ScyllaMoon.Mvcc
