import ScyllaMoon.Mvcc.Sim.Write
import ScyllaMoon.Mvcc.Sim.Snapshot

/-!
# The heap refines the list

The remaining operations (`apply` of a partition, `apply_to_incomplete`, `add_version`, `upgrade`)
and the theorem that gathers all of them: from related states the heap and the list model fault
alike, or answer alike and stay related. So the heap answers every list of requests as the list
model does (`Sim.trace_eq`).
-/

namespace ScyllaMoon.Mvcc

open Lib Function

variable {S V P : Type}

namespace Heap

/-- `remove_or_mark_as_unique_owner` frees a whole unreferenced chain and touches nothing else. -/
theorem removeOrMarkAsUniqueOwner_eq {l : List Addr} : ∀ {w : Heap S P} {n : Nat}, w.links.IsChain l →
    l.length ≤ n → (∀ a ∈ l, ∃ v, w.versions a = some v ∧ v.backref = none) →
      ∃ links', w.removeOrMarkAsUniqueOwner n l.head? =
          .ok { w with links := links', versions := fun a => if a ∈ l then none else w.versions a } ∧
        ∀ a ∉ l, links' a = w.links a := by
  induction l with
  | nil =>
    intro w fuel _ _ _
    refine ⟨w.links, ?_, fun _ _ => rfl⟩
    cases fuel <;> simp [removeOrMarkAsUniqueOwner]
  | cons a l ih =>
    intro w fuel hc hf hfree
    cases fuel with
    | zero => simp at hf
    | succ fuel =>
      obtain ⟨v, hv, hb⟩ := hfree a List.mem_cons_self
      have hc₀ : w.links.IsChain ([] ++ a :: l) := hc
      have hnext : w.next a = .ok l.head? := by
        simp only [next, getVersion_of hv, ok_bind, pure_eq_ok, hc₀.next_eq]
      have hdestroy : w.destroy a =
          .ok { w with links := w.links.erase a, versions := update w.versions a none } := by
        simp [destroy, getVersion_of hv, hb]
      have hal : a ∉ l := (List.nodup_cons.1 hc.nodup).1
      obtain ⟨links', heq, hframe⟩ := ih
        (w := { w with links := w.links.erase a, versions := update w.versions a none })
        hc₀.erase.1 (by simpa using hf) fun b hb => by
          have hba : b ≠ a := fun e => hal (e ▸ hb)
          simpa [update_of_ne hba] using hfree b (List.mem_cons_of_mem _ hb)
      refine ⟨links', ?_, fun b hb => ?_⟩
      · rw [List.head?_cons, removeOrMarkAsUniqueOwner, getVersion_of hv, ok_bind, hb]
        simp only [hnext, ok_bind, hdestroy, heq]
        have hvers : (fun b => if b ∈ l then none else update w.versions a none b) =
            fun b => if b ∈ a :: l then none else w.versions b := by
          funext b
          by_cases hba : b = a
          · subst hba
            simp
          · simp [hba]
        rw [hvers]
      · rw [hframe b fun h => hb (List.mem_cons_of_mem _ h)]
        exact hc₀.erase_of_notMem hb

/-- The heap after a new version, in no list, took over from `head`. -/
def renewed (w : Heap S P) (head : Addr) (hv : PartitionVersion P) (mp : P) : Heap S P :=
  { w with
    links := update w.links w.brk {}
    versions := update (update w.versions head (some { hv with backref := none })) w.brk
      (some { backref := some (.ofEntry w.self), partition := mp })
    brk := w.brk + 1
    entry := { w.entry with version := { version := some w.brk, evictable := w.entry.version.evictable } } }

theorem renew_eq {w : Heap S P} {head : Addr} {hv : PartitionVersion P} (unset : w.entry.snapshot = none)
    (hh : w.entry.version.version = some head) (hhv : w.versions head = some hv) (ne : head ≠ w.brk) (mp : P) :
    (w.construct mp).1.setVersion w.brk = .ok (w.renewed head hv mp) := by
  refine (setVersion_eq head hv (by exact unset) (update_self ..) rfl (by exact hh)
    ((update_of_ne ne ..).trans hhv) ne.symm).trans ?_
  simp only [construct, renewed, update_comm ne, update_idem]

theorem mergeInto_eq [PartitionOps S V P] {w : Heap S P} (toSchema fromSchema : S) {l : List Addr} {es : List (Elem P)}
    (mp : P) (h : l.map w.elem? = es.map some) : w.mergeInto toSchema fromSchema mp l =
      .ok ((es.map Elem.partition).foldl (PartitionOps.apply toSchema · · fromSchema) mp) := by
  rw [mergeInto, foldlM_partition w (PartitionOps.apply toSchema · · fromSchema), partitionsAlong_eq h]
  rfl

end Heap

namespace Sim

variable {w : Heap S P} {l : List Addr} {c : Chain S P}

theorem replaced (h : Sim w l c) {mp : P} {links' : Links Addr} {versions' : Addr → Option (PartitionVersion P)}
    (alone : links' w.brk = {}) (frame : ∀ a, a ≠ w.brk → a ∉ l → links' a = w.links a)
    (new : versions' w.brk = some { partition := mp, backref := some (.ofEntry w.self) })
    (freed : ∀ a ∈ l, versions' a = none) (kept : ∀ a, a ≠ w.brk → a ∉ l → versions' a = w.versions a) :
    Sim { w with
        links := links', versions := versions', brk := w.brk + 1
        entry := { w.entry with version := { version := some w.brk, evictable := w.entry.version.evictable } } }
      [w.brk] { c with elems := [{ number := 0, partition := mp }], last := c.last.free, registered := true } := by
  have old : ∀ {a}, a ≠ w.brk → w.versions a = none → versions' a = none := fun {a} hab hva => by
    by_cases hl : a ∈ l
    · exact freed a hl
    · rw [kept a hab hl, hva]
  constructor
  · exact ⟨⟨by simp [alone], by simp [alone], trivial⟩, by simp⟩
  · simp
  · rfl
  · exact h.unset
  · intro a ha
    exact old (Nat.ne_of_gt ha) (h.fresh (Nat.le_of_succ_le ha))
  · simp [Heap.elem?, new, PartitionVersion.toElem]
  · have hlast := h.last
    cases hcl : c.last with
    | null => rw [hcl] at hlast; exact hlast
    | dangling =>
      rw [hcl] at hlast
      obtain ⟨a, ha, hlt, hva⟩ := hlast
      exact ⟨a, ha, Nat.lt_succ_of_lt hlt, old (Nat.ne_of_lt hlt) hva⟩
    | idx i =>
      rw [hcl] at hlast
      obtain ⟨a, ha, hi⟩ := hlast
      obtain ⟨v, hv, -⟩ := h.get hi
      exact ⟨a, ha, Nat.lt_succ_of_lt (h.allocated_lt hv), freed a (List.mem_of_getElem? hi)⟩
  · exact h.hvr
  · exact h.hvw
  · exact h.num
  · exact h.snaps
  · exact h.next
  · refine h.pins.replace (e := { number := 0, partition := mp }) rfl ?_ ?_ ?_
    · simp [Heap.elem?, new, PartitionVersion.toElem]
    · intro a ha
      simp [Heap.elem?, freed a ha]
    · intro a hab hl
      simp [Heap.elem?, kept a hab hl]
  · intro a v hv hal
    replace hv : versions' a = some v := hv
    have hab : a ≠ w.brk := by simpa using hal
    have hl : a ∉ l := fun hl => by
      rw [freed a hl] at hv
      cases hv
    exact (frame a hab hl).trans (h.unlisted (kept a hab hl ▸ hv) hl)
  · intro a v hv
    replace hv : versions' a = some v := hv
    by_cases hab : a = w.brk
    · subst hab
      rw [hv, Option.some.injEq] at new
      simp [new]
    · have hl : a ∉ l := fun hl => by
        rw [freed a hl] at hv
        cases hv
      rw [kept a hab hl] at hv
      have hhead : l.head? ≠ some a := fun e => hl (List.mem_of_head? e)
      rw [h.backrefs hv, if_neg fun hh => hhead hh.2, if_neg fun hh => hab (Option.some.inj hh.2).symm]

variable [PartitionOps S V P]

section

variable (h : Sim w l c)
include h

theorem upgrade (fromSchema toSchema : S) :
    Agree (fun w' c' => Sim w' [w.brk] c') (w.upgrade fromSchema toSchema) (c.upgrade fromSchema toSchema) := by
  obtain ⟨head, tl, hv, es, hl, hh, hhv, hes⟩ := h.exists_head
  have hbl := h.brk_notMem
  have hne : head ≠ w.brk := fun e => hbl (by simp [hl, ← e])
  have hget : w.entry.version.get = .ok head := by simp only [PartitionVersionRef.get, hh]
  have hall : w.allElements head = l := by
    have hfront : w.links.front w.brk head = head := Links.IsChain.front_eq (hl ▸ h.chain)
    rw [Heap.allElements, hfront, h.elementsFromThis (hl.trans (List.nil_append _).symm), hl]
  have hmerge := Heap.mergeInto_eq toSchema fromSchema (freshLike toSchema hv.partition) h.elems
  unfold Heap.upgrade Chain.upgrade
  simp only [hget, Heap.getVersion_of hhv, ok_bind, hall, hmerge, hes]
  rw [← hes]
  have hup : c.upgraded fromSchema toSchema hv.toElem.partition = (c.elems.map Elem.partition).foldl
    (PartitionOps.apply toSchema · · fromSchema) (freshLike toSchema hv.partition) := rfl
  rw [hup]
  generalize (c.elems.map Elem.partition).foldl (PartitionOps.apply toSchema · · fromSchema)
    (freshLike toSchema hv.partition) = mp
  have hset : (w.construct mp).1.setVersion w.brk = .ok (w.renewed head hv mp) := Heap.renew_eq h.unset hh hhv hne mp
  have hlinks : (w.renewed head hv mp).links.IsChain l := by
    refine ⟨h.chain.seg.congr fun a ha => update_of_ne ?_ .., h.chain.nodup⟩
    exact fun e => hbl (e ▸ ha)
  obtain ⟨links', heq, hframe⟩ := Heap.removeOrMarkAsUniqueOwner_eq hlinks (n := (w.renewed head hv mp).brk)
    (Nat.le_succ_of_le h.length_le) fun a ha => by
      have hab : a ≠ w.brk := fun e => hbl (e ▸ ha)
      by_cases hah : a = head
      · subst hah
        exact ⟨{ hv with backref := none }, by simp [Heap.renewed, update_of_ne hab], rfl⟩
      · obtain ⟨v, hva⟩ := h.allocated ha
        refine ⟨v, by simp [Heap.renewed, update_of_ne hab, update_of_ne hah, hva], ?_⟩
        rw [h.backrefs hva, if_neg]
        simpa [hl] using fun _ e => hah e.symm
  rw [show (w.construct mp).2 = w.brk from rfl, hset, ok_bind, show some head = l.head? by rw [hl]; rfl, heq]
  refine .ok (h.replaced ?_ ?_ ?_ ?_ ?_)
  · rw [hframe _ hbl]
    exact update_self ..
  · intro a hab hal
    rw [hframe _ hal]
    exact update_of_ne hab ..
  · simp [Heap.renewed, hbl]
  · intro a ha
    simp [ha]
  · intro a hab hal
    have hah : a ≠ head := fun e => hal (by simp [hl, e])
    simp [Heap.renewed, hal, update_of_ne hab, update_of_ne hah]

theorem modifyHead {head : Addr} (hh : w.entry.version.version = some head) (f : P → List P → P)
    {g : P → P} (hg : ∀ p ps, c.partitions = p :: ps → g p = f p ps) :
    Agree (fun w' c' => Sim w' l c') (w.modifyVersion head fun v => { v with partition := g v.partition })
      (c.modifyHead f) := by
  obtain ⟨a, tl, v, fs, hl, hh', hv, hc⟩ := h.exists_head
  obtain rfl : head = a := Option.some.inj (hh.symm.trans hh')
  have h0 : l[0]? = some head := by simp [hl]
  have hset := h.map_update h0 { v.toElem with partition := g v.partition }
  rw [hc] at hset
  rw [Heap.modifyVersion_of hv, Chain.modifyHead, hc]
  simp [← hg v.toElem.partition (fs.map Elem.partition) (by simp [Chain.partitions, hc])]
  refine .ok (h.update hv hset h.snaps h.next ?_ (show v.backref = _ from h.backrefs hv) fun _ => rfl)
  exact h.pins.modify (Heap.elem?_of hv) (by simp [hl]) _

theorem apply (s : S) (mp : P) (mpSchema : S) :
    Agree (fun w' c' => Sim w' l c') (w.apply s mp mpSchema)
      (c.modifyHead fun p _ => PartitionOps.apply s p mp mpSchema) := by
  obtain ⟨head, tl, hv, -, hl, hh, hhv, -⟩ := h.exists_head
  unfold Heap.apply
  simp only [PartitionVersionRef.get, hh, ok_bind, h.unset]
  exact h.modifyHead hh (fun p _ => PartitionOps.apply s p mp mpSchema) fun _ _ _ => rfl

theorem applyToIncomplete (s : S) (src : List P) (srcSchema : S) :
    Agree (fun w' c' => Sim w' l c') (w.applyToIncomplete s src srcSchema)
      (c.modifyHead fun p ps => PartitionOps.applyIncomplete s (p :: ps) (incompleteSource s src srcSchema)) := by
  obtain ⟨head, tl, hv, -, hl, hh, hhv, -⟩ := h.exists_head
  have hdst : w.partitionsAlong (w.elementsFromThis head) = .ok c.partitions := by
    rw [h.elementsFromThis (hl.trans (List.nil_append _).symm), ← hl]
    exact Heap.partitionsAlong_eq h.elems
  unfold Heap.applyToIncomplete
  simp only [h.openVersion, PartitionVersionRef.get, hh, ok_bind, hdst]
  refine h.modifyHead hh (fun p ps => PartitionOps.applyIncomplete s (p :: ps) (incompleteSource s src srcSchema))
    (g := fun _ => PartitionOps.applyIncomplete s c.partitions (incompleteSource s src srcSchema)) fun p ps hps => ?_
  rw [hps]

theorem addVersion (s : S) :
    Agree (fun w' c' => Sim w' (w.brk :: l) c') (w.addVersion s) (c.addVersion s) := by
  obtain ⟨head, tl, hv, es, hl, hh, hhv, hes⟩ := h.exists_head
  have hne : head ≠ w.brk := fun e => h.brk_notMem (by simp [hl, ← e])
  rw [Heap.addVersion_eq hhv hne h.unset hh s, Chain.addVersion, hes]
  exact .ok (h.pushed hl hhv _ 0)

/-- The heap and the list answer one request alike. -/
theorem step (op : Op S V P) :
    Agree (SameAnswer fun w' c' => ∃ l', Rewrites w.brk l c c' op l' ∧ Sim w' l' c') (w.step op) (c.step op) := by
  cases op with
  | read entrySchema phase t => exact (h.read entrySchema phase t).mono fun _ _ ⟨ho, hs⟩ => ⟨ho, l, rfl, hs⟩
  | drop s => exact (h.drop s).bind fun _ _ hs => .ok ⟨rfl, l, rfl, hs⟩
  | squashed s =>
    simp only [Heap.step, Chain.step, h.squashed s]
    cases c.squashed s with
    | error e => exact .error
    | ok mp => exact .ok ⟨rfl, l, rfl, h⟩
  | applyView s mpv mpSchema v =>
    exact (h.applyView s mpv mpSchema v).bind fun _ _ hs => .ok ⟨congrArg Answer.write hs.1, hs.2⟩
  | apply s mp mpSchema => exact (h.apply s mp mpSchema).bind fun _ _ hs => .ok ⟨rfl, l, rfl, hs⟩
  | addVersion s => exact (h.addVersion s).bind fun _ _ hs => .ok ⟨rfl, _, rfl, hs⟩
  | applyToIncomplete s src srcSchema =>
    exact (h.applyToIncomplete s src srcSchema).bind fun _ _ hs => .ok ⟨rfl, l, rfl, hs⟩
  | upgrade fromSchema toSchema => exact (h.upgrade fromSchema toSchema).bind fun _ _ hs => .ok ⟨rfl, _, rfl, hs⟩

end

theorem step_stored (w : Heap S P) (c : Chain S P) (op : Op S V P) (h : ∃ l, Sim w l c) :
    Agree (SameAnswer fun w' c' => ∃ l', Sim w' l' c') (w.step op) (c.step op) := by
  obtain ⟨l, h⟩ := h
  exact (h.step op).mono fun _ _ ⟨ho, l', _, hs⟩ => ⟨ho, l', hs⟩

/-- The heap and the list answer every list of requests alike. -/
theorem trace_eq (h : Sim w l c) (ops : List (Op S V P)) : trace Heap.step w ops = trace Chain.step c ops :=
  trace_eq_of_sim step_stored ops ⟨l, h⟩

section

variable {allowed : List (Op S V P × Answer P) → Heap S P → Op S V P → Prop} {w₀ : Heap S P} {tr : List (Op S V P × Answer P)}
  {c' : Chain S P} (run : Run Heap.step allowed w₀ tr w) (h : Sim w l c)
include run h

/-- What the list serves, the heap serves next in a run. -/
theorem run_snoc {op : Op S V P} {o : Answer P} (hc : c.step op = .ok (c', o)) (ok : allowed tr w op) :
    ∃ w' l', Run Heap.step allowed w₀ (tr ++ [(op, o)]) w' ∧ Sim w' l' c' := by
  have hag := h.step op
  rw [hc] at hag
  obtain ⟨⟨w', o⟩, hw, rfl, l', -, h'⟩ := hag.of_ok_right
  exact ⟨w', l', run.snoc ok hw, h'⟩

/-- Requests that pass a check and that the list serves, the heap serves in a run. -/
theorem run_of_after {ops : List (Op S V P)} (pass : Chain S P → Op S V P → Bool)
    (admits : ∀ tr w l c, Sim w l c → ∀ op ∈ ops, pass c op = true → allowed tr w op)
    (hc : after (fun c op => if pass c op then c.step op else .error .assertFailed) c ops = some c') :
    ∃ tr' w' l', Run Heap.step allowed w₀ (tr ++ tr') w' ∧ tr'.map Prod.fst = ops ∧ Sim w' l' c' := by
  induction ops generalizing w l c tr with
  | nil =>
    cases hc
    exact ⟨[], w, l, by rwa [List.append_nil], rfl, h⟩
  | cons op ops ih =>
    unfold after at hc
    split at hc
    next c₁ o hs =>
      split at hs
      next ok =>
        obtain ⟨w₁, l₁, run₁, h₁⟩ := run_snoc run h hs (admits _ _ _ _ h op List.mem_cons_self ok)
        obtain ⟨tr', w', l', run', fst, h'⟩ := ih run₁ h₁
          (fun tr w l c sim op hop => admits tr w l c sim op (List.mem_cons_of_mem _ hop)) hc
        exact ⟨(op, o) :: tr', w', l', by simpa using run', by rw [List.map_cons, fst], h'⟩
      · cases hs
    · cases hc

end

end Sim

/-- The objects of an entry serve a list of requests, and fault, as the list of its versions does. -/
theorem entry_refines_version_list [PartitionOps S V P] (e : EntryAddr) (mp : P) (ops : List (Op S V P)) :
    trace Heap.step (Heap.ofPartition e mp) ops = trace Chain.step (Chain.ofPartition mp) ops :=
  (Sim.ofPartition e mp).trace_eq ops

end ScyllaMoon.Mvcc
