import ScyllaMoon.Mvcc.Sim.Step

/-!
# Entries that no request tells apart

Two heaps are alike when they store the same list, up to whether the newest version is registered with
the entry. Requests do not look at that, so alike heaps answer every request alike, faults included.
-/

namespace ScyllaMoon.Mvcc

open Lib

variable {S V P : Type}

/-- The same list, up to the registration of the newest version. -/
def Chain.SameButRef (c d : Chain S P) : Prop :=
  ∃ b, d = { c with registered := b }

/-- The heaps store the same list, up to the registration of the newest version. -/
def Heap.Alike (w w₂ : Heap S P) : Prop :=
  ∃ l c l₂ d, Sim w l c ∧ Sim w₂ l₂ d ∧ c.SameButRef d

namespace Chain

variable [PartitionOps S V P]

/-- No request looks at the registration of the newest version. -/
theorem SameButRef.step {c d : Chain S P} (h : c.SameButRef d) (op : Op S V P) :
    Agree (SameAnswer SameButRef) (c.step op) (d.step op) := by
  obtain ⟨b, rfl⟩ := h
  cases op with
  | read schema phase t =>
    simp only [Chain.step, read, takeSnapshot, noteRead, lookup]
    split
    · exact .error
    · split
      · split
        · exact .error
        · exact .ok ⟨rfl, b, rfl⟩
      · exact .ok ⟨rfl, b, rfl⟩
  | drop s =>
    simp only [Chain.step, drop, onHead]
    split
    · exact .error
    · split
      · exact .ok ⟨rfl, b, rfl⟩
      · split
        · exact .ok ⟨rfl, _, rfl⟩
        · exact .error
  | squashed s =>
    have hs : { c with registered := b }.squashed s = c.squashed s := rfl
    simp only [Chain.step, hs]
    cases c.squashed s with
    | error f => exact .error
    | ok mp => exact .ok ⟨rfl, b, rfl⟩
  | applyView s mpv mpSchema v =>
    have hstore : ∀ n mp, { c with registered := b }.store n mp = c.store n mp := fun _ _ => rfl
    simp only [Chain.step, applyView]
    by_cases hr : c.rejects v
    · rw [if_pos hr, if_pos (by exact hr)]
      exact .ok ⟨rfl, b, rfl⟩
    · -- a stored version is registered, so nothing is left of the difference
      rw [if_neg hr, if_neg (by exact hr)]
      exact .refl fun p => ⟨rfl, p.1.registered, rfl⟩
  | apply s mp mpSchema | applyToIncomplete s src srcSchema =>
    simp only [Chain.step, modifyHead]
    split
    · exact .error
    · exact .ok ⟨rfl, b, rfl⟩
  | addVersion s =>
    simp only [Chain.step, addVersion]
    split
    · exact .error
    · exact .ok ⟨rfl, true, rfl⟩
  | upgrade fromSchema toSchema =>
    simp only [Chain.step, upgrade]
    split
    · exact .error
    · exact .ok ⟨rfl, true, rfl⟩

end Chain

namespace Heap

theorem alike_refl {w : Heap S P} {l : List Addr} {c : Chain S P} (h : Sim w l c) : w.Alike w :=
  ⟨l, c, l, c, h, h, c.registered, rfl⟩

variable {w w' w₂ : Heap S P}

/-- The list of the first heap may change in its registration only. -/
theorem Alike.of_sim (h : w.Alike w₂)
    (keep : ∀ l c, Sim w l c → ∃ l' b, Sim w' l' { c with registered := b }) : w'.Alike w₂ := by
  obtain ⟨l, c, l₂, _, hs, hs₂, b₂, rfl⟩ := h
  obtain ⟨l', b, hs'⟩ := keep l c hs
  exact ⟨l', _, l₂, _, hs', hs₂, b₂, rfl⟩

/-- Alike heaps answer a request alike and stay alike. -/
theorem Alike.step [PartitionOps S V P] {w w₂ : Heap S P} (h : w.Alike w₂) (op : Op S V P) :
    Agree (SameAnswer Alike) (w.step op) (w₂.step op) := by
  obtain ⟨l, c, l₂, d, hs, hs₂, hcd⟩ := h
  have left : Agree (SameAnswer fun w' d' => ∃ l' c', Sim w' l' c' ∧ c'.SameButRef d') (w.step op) (d.step op) :=
    (hs.step op).trans (hcd.step op) fun _ _ _ ⟨ho, l', _, hs'⟩ ⟨ho', hcd'⟩ => ⟨ho.trans ho', l', _, hs', hcd'⟩
  exact left.trans (hs₂.step op).symm fun _ _ _ ⟨ho, l', c', hs', hcd'⟩ ⟨ho₂, l₂', _, hs₂'⟩ =>
    ⟨ho.trans ho₂.symm, l', c', l₂', _, hs', hs₂', hcd'⟩

theorem Alike.step_ok [PartitionOps S V P] {op : Op S V P} {o : Answer P} (h : w.Alike w₂)
    (hs : w.step op = .ok (w', o)) : ∃ w₂', w₂.step op = .ok (w₂', o) ∧ w'.Alike w₂' := by
  have hag := h.step op
  rw [hs] at hag
  obtain ⟨⟨w₂', o₂⟩, hs₂, ho, h'⟩ := hag.of_ok
  cases ho
  exact ⟨w₂', hs₂, h'⟩

end Heap

end ScyllaMoon.Mvcc
