import ScyllaMoon.Mvcc.Sim.Step

/-!
# What one request does to the chain

`Transition c op c' o` lists everything a successful request can do to the list model, one
constructor for each way through the code, and `step_transition` reads it off the step function. The
invariants of the later modules are case splits on it and never unfold an operation.
-/

namespace ScyllaMoon.Mvcc

open Lib Function

variable {S V P : Type}

namespace Chain

/-- What garbage collection does: the version at `i + 1` goes, after `last_version` was moved from it
to `i`, or was left at `i` because a snapshot pins that version. -/
structure Collects (c : Chain S P) (i : Nat) (c' : Chain S P) : Prop where
  bound : i + 1 < c.elems.length
  last : c.last = .idx (i + 1) ∧ (∃ e, c.elems[i + 1]? = some e ∧ e.snapshot = none) ∨
    c.last = .idx i ∧ ∃ e s, c.elems[i]? = some e ∧ e.snapshot = some s
  eq : c' = { c.unlink (i + 1) with last := .idx i, numVersions := c.numVersions - 1 }

open Except (ok)

theorem advanceLast_ok {c c' : Chain S P} (h : c.advanceLast = .ok c') :
    ∃ i e, c.last = .idx i ∧ c.elems[i]? = some e ∧
      ((∃ s, e.snapshot = some s) ∧ c' = c ∨ e.snapshot = none ∧ c' = { c with last := match i with
        | 0 => .null
        | i + 1 => .idx i }) := by
  unfold advanceLast at h
  cases hl : c.last with
  | null | dangling => simp [hl] at h
  | idx i =>
    cases he : c.elems[i]? with
    | none => simp [hl, he] at h
    | some e =>
      simp only [hl, he] at h
      refine ⟨i, e, rfl, he, ?_⟩
      cases hs : e.snapshot with
      | none =>
        rw [hs, if_pos (by rfl), ok.injEq] at h
        exact .inr ⟨rfl, h.symm⟩
      | some s =>
        rw [hs, if_neg (by simp), ok.injEq] at h
        exact .inl ⟨⟨s, rfl⟩, h.symm⟩

theorem collectGarbage_ok {c c' : Chain S P} (h : c.collectGarbage = .ok c') : ∃ i, Collects c i c' := by
  unfold collectGarbage at h
  cases ha : c.advanceLast with
  | error f => rw [ha, error_bind] at h; cases h
  | ok d =>
    rw [ha, ok_bind] at h
    obtain ⟨j, e, hl, he, hd⟩ := advanceLast_ok ha
    rcases hd with ⟨⟨s, hs⟩, rfl⟩ | ⟨hs, rfl⟩
    · rw [hl] at h
      simp only at h
      split at h
      next hlt =>
        rw [pure_eq_ok, ok.injEq] at h
        refine ⟨j, hlt, .inr ⟨hl, e, s, he, hs⟩, ?_⟩
        rw [← h, ← hl]
        rfl
      · cases h
    · cases j with
      | zero => cases h
      | succ i =>
        simp only at h
        split at h
        next hlt =>
          rw [pure_eq_ok, ok.injEq] at h
          exact ⟨i, hlt, .inl ⟨hl, e, he, hs⟩, h.symm⟩
        · cases h

variable [PartitionOps S V P]

/-- One successful request against the list. -/
inductive Transition (c : Chain S P) : Op S V P → Chain S P → Answer P → Prop where
  | share {schema phase t e s snp} (found : c.elems[c.lookup t]? = some e) (pinned : e.snapshot = some s)
      (live : c.snapshots s = some snp) :
      Transition c (.read schema phase t)
        { c.noteRead t with snapshots := update c.snapshots s (some { snp with useCount := snp.useCount + 1 }) }
        (.snapshot s e.number e.partition)
  | pin {schema phase t e} (found : c.elems[c.lookup t]? = some e) (unpinned : e.snapshot = none) :
      Transition c (.read schema phase t) { c.noteRead t with
          elems := c.elems.set (c.lookup t) { e with snapshot := some c.nextSnapshot }
          snapshots := update c.snapshots c.nextSnapshot (some { schema, phase, useCount := 1 })
          nextSnapshot := c.nextSnapshot + 1 }
        (.snapshot c.nextSnapshot e.number e.partition)
  | release {s snp} (live : c.snapshots s = some snp) (more : 1 < snp.useCount) :
      Transition c (.drop s)
        { c with snapshots := update c.snapshots s (some { snp with useCount := snp.useCount - 1 }) } .done
  | unpin {s snp} (live : c.snapshots s = some snp) (last : ¬1 < snp.useCount) :
      Transition c (.drop s) { c with
          elems := c.elems.map (Chain.unpin s)
          snapshots := update c.snapshots s none
          detached := update c.detached s none
          registered := c.registered && !c.onHead s } .done
  | squash {s mp} (content : c.squashed s = .ok mp) : Transition c (.squashed s) c (.content mp)
  | reject {s mpv mpSchema v} (rejected : c.rejects v) :
      Transition c (.applyView s mpv mpSchema v) c
        (.write { accepted := false, commitVersion := c.highestVersionWritten })
  | store {s mpv mpSchema v mp} (kept : ¬c.rejects v)
      (written : writtenPartition s mpv mpSchema v (c.promoted v) = .ok mp) (few : ¬c.numVersions ≥ 100) :
      Transition c (.applyView s mpv mpSchema v) (c.store (c.promoted v) mp)
        (.write { accepted := true, commitVersion := c.promoted v })
  | collect {s mpv mpSchema v mp i c'} (kept : ¬c.rejects v)
      (written : writtenPartition s mpv mpSchema v (c.promoted v) = .ok mp) (full : c.numVersions ≥ 100)
      (collects : Collects (c.store (c.promoted v) mp) i c') :
      Transition c (.applyView s mpv mpSchema v) c' (.write { accepted := true, commitVersion := c.promoted v })
  | apply {s mp mpSchema e es} (elems : c.elems = e :: es) :
      Transition c (.apply s mp mpSchema)
        { c with elems := { e with partition := PartitionOps.apply s e.partition mp mpSchema } :: es } .done
  | incomplete {s src srcSchema e es} (elems : c.elems = e :: es) :
      Transition c (.applyToIncomplete s src srcSchema) { c with elems := { e with
          partition := PartitionOps.applyIncomplete s (e.partition :: es.map Elem.partition)
            (incompleteSource s src srcSchema) } :: es } .done
  | add {s e es} (elems : c.elems = e :: es) :
      Transition c (.addVersion s) (c.push { number := 0, partition := freshLike s e.partition }) .done
  | upgrade {fromSchema toSchema e es} (elems : c.elems = e :: es) :
      Transition c (.upgrade fromSchema toSchema) { c with
          elems := [{ number := 0, partition := c.upgraded fromSchema toSchema e.partition }]
          last := c.last.free
          registered := true } .done

variable {c c' : Chain S P}

theorem read_transition {schema : S} {phase : UInt64} {t : UInt32} {o : Answer P} (h : c.read schema phase t = .ok (c', o)) :
    Transition (V := V) c (.read schema phase t) c' o := by
  unfold read takeSnapshot at h
  split at h
  · cases h
  next e found =>
    split at h
    next s pinned =>
      split at h
      · cases h
      next snp live =>
        cases h
        exact .share found pinned live
    next unpinned =>
      cases h
      exact .pin found unpinned

theorem drop_transition {s : SnapshotId} (h : c.drop s = .ok c') : Transition (V := V) c (.drop s) c' .done := by
  unfold drop at h
  split at h
  · cases h
  next snp live =>
    split at h
    next more =>
      cases h
      exact .release live more
    next last =>
      split at h
      · cases h
        exact .unpin live last
      · cases h

theorem applyView_transition {s mpSchema : S} {mpv : V} {v : UInt32} {r : WriteResult}
    (h : c.applyView s mpv mpSchema v = .ok (c', r)) : Transition c (.applyView s mpv mpSchema v) c' (.write r) := by
  unfold applyView at h
  split at h
  next rejected =>
    cases h
    exact .reject rejected
  next kept =>
    obtain ⟨mp, written, h⟩ := bind_eq_ok.1 h
    dsimp only at h
    split at h
    next full =>
      obtain ⟨d, collected, h⟩ := bind_eq_ok.1 h
      cases h
      obtain ⟨i, collects⟩ := collectGarbage_ok collected
      exact .collect kept written full collects
    next few =>
      cases h
      exact .store kept written few

/-- Every successful request is one of the transitions. -/
theorem step_transition {op : Op S V P} {o : Answer P} (h : c.step op = .ok (c', o)) : Transition c op c' o := by
  cases op with
  | read schema phase t => exact read_transition h
  | drop s =>
    obtain ⟨d, dropped, h⟩ := bind_eq_ok.1 h
    cases h
    exact drop_transition dropped
  | squashed s =>
    obtain ⟨mp, content, h⟩ := bind_eq_ok.1 h
    cases h
    exact .squash content
  | applyView s mpv mpSchema v =>
    obtain ⟨⟨d, r⟩, applied, h⟩ := bind_eq_ok.1 h
    cases h
    exact applyView_transition applied
  | apply s mp mpSchema =>
    obtain ⟨d, applied, h⟩ := bind_eq_ok.1 h
    cases h
    unfold modifyHead at applied
    split at applied <;> cases applied
    exact .apply ‹_›
  | addVersion s =>
    obtain ⟨d, added, h⟩ := bind_eq_ok.1 h
    cases h
    unfold addVersion at added
    split at added <;> cases added
    exact .add ‹_›
  | applyToIncomplete s src srcSchema =>
    obtain ⟨d, applied, h⟩ := bind_eq_ok.1 h
    cases h
    unfold modifyHead at applied
    split at applied <;> cases applied
    exact .incomplete ‹_›
  | upgrade fromSchema toSchema =>
    obtain ⟨d, upgraded, h⟩ := bind_eq_ok.1 h
    cases h
    unfold upgrade at upgraded
    split at upgraded <;> cases upgraded
    exact .upgrade ‹_›

end Chain

/-- A successful request on the heap is a transition of the list it stores. -/
theorem Sim.transition [PartitionOps S V P] {w w' : Heap S P} {l : List Addr} {c : Chain S P} {op : Op S V P}
    {o : Answer P} (h : Sim w l c) (hs : w.step op = .ok (w', o)) :
    ∃ c' l', Sim w' l' c' ∧ Chain.Transition c op c' o ∧ Sim.Rewrites w.brk l c c' op l' := by
  have hag := h.step op
  rw [hs] at hag
  obtain ⟨⟨c', o'⟩, hc, ho, l', hr, hs'⟩ := hag.of_ok
  subst ho
  exact ⟨c', l', hs', Chain.step_transition hc, hr⟩

/-- A run of the heap keeps what its transitions keep of the list and of the chain of addresses. -/
theorem Sim.run [PartitionOps S V P] {w₀ : Heap S P} {l₀ : List Addr} {c₀ : Chain S P}
    {allowed : List (Op S V P × Answer P) → Heap S P → Op S V P → Prop}
    (Inv : List (Op S V P × Answer P) → List Addr → Chain S P → Prop) (h₀ : Sim w₀ l₀ c₀) (start : Inv [] l₀ c₀)
    (keep : ∀ tr w l c op w' l' c' o, Sim w l c → Inv tr l c → allowed tr w op → Chain.Transition c op c' o →
      Sim w' l' c' → Sim.Rewrites w.brk l c c' op l' → Inv (tr ++ [(op, o)]) l' c')
    {tr : List (Op S V P × Answer P)} {w : Heap S P} (run : Run Heap.step allowed w₀ tr w) :
    ∃ l c, Sim w l c ∧ Inv tr l c := by
  refine Run.invariant (fun tr w => ∃ l c, Sim w l c ∧ Inv tr l c) ⟨l₀, c₀, h₀, start⟩ ?_ run
  rintro tr w op w' o ⟨l, c, hs, hi⟩ ok step
  obtain ⟨c', l', hs', ht, hr⟩ := hs.transition step
  exact ⟨l', c', hs', keep tr w l c op w' l' c' o hs hi ok ht hs' hr⟩

end ScyllaMoon.Mvcc
