import ScyllaMoon.Mvcc.Numbering

/-!
# What the collector unlinks

The victim of a collection is fixed by the state before the write: `last_version` itself, or the next
older version when a snapshot pins `last_version`.
-/

namespace ScyllaMoon.Mvcc

open Lib

variable {S V P : Type}

/-- The requests of a memtable. -/
def Op.IsMemtable : Op S V P → Prop
  | .read .. | .drop _ | .applyView .. => True
  | _ => False

/-- The version that the next collection unlinks: `last_version`, or the one behind it if a snapshot
pins `last_version`. -/
def Heap.gcVictim (w : Heap S P) : Option Addr := do
  let a ← w.entry.lastVersion
  let v ← w.versions a
  if v.snapshot.isNone then return a else (w.links a).next

namespace Chain

variable {c c' : Chain S P}

theorem Collects.elems {n : UInt32} {mp : P} {i : Nat} (hc : Collects (c.store n mp) i c') :
    c'.elems = { number := n, partition := mp } :: c.elems.eraseIdx i := by
  rw [hc.eq]
  rfl

/-- The number that a collection takes out of the chain. -/
theorem Collects.numbers {n : UInt32} {mp : P} {i : Nat} (hc : Collects (c.store n mp) i c') :
    c'.numbers = n :: c.numbers.eraseIdx i := by
  rw [Chain.numbers, hc.elems, Chain.numbers, List.map_cons, List.eraseIdx_map]

end Chain

namespace Sim

variable {w : Heap S P} {l : List Addr} {c c' : Chain S P}

/-- The collector's victim is the version that the list loses. -/
theorem gcVictim (h : Sim w l c) {n : UInt32} {mp : P} {i : Nat} (hc : Chain.Collects (c.store n mp) i c') :
    ∃ a u, w.gcVictim = some a ∧ l[i]? = some a ∧ w.versions a = some u ∧ c.elems[i]? = some u.toElem := by
  rcases hc.last with ⟨hl, e, he, hs⟩ | ⟨hl, e, s, he, hs⟩
  · -- `last_version` is not pinned: it moves and the version it was at goes
    have hcl : c.last = .idx i := by
      simp only [Chain.store] at hl
      split at hl
      · cases hl
      · cases hk : c.last <;> rw [hk] at hl <;> cases hl
        rfl
    obtain ⟨a, u, ha, hi, hu, hue⟩ := h.lastVersion hcl
    have hnone : u.snapshot = none := by
      have : c.elems[i]? = some e := he
      cases this.symm.trans hue
      exact hs
    exact ⟨a, u, by simp [Heap.gcVictim, ha, hu, hnone], hi, hu, hue⟩
  · -- it is pinned: it stays and the next older version goes
    obtain ⟨k, hcl, rfl⟩ : ∃ k, c.last = .idx k ∧ i = k + 1 := by
      simp only [Chain.store] at hl
      split at hl
      · cases hl
        cases he
        cases hs
      · cases hk : c.last <;> rw [hk] at hl <;> cases hl
        exact ⟨_, rfl, rfl⟩
    obtain ⟨a, v, ha, hi, hv, hve⟩ := h.lastVersion hcl
    have hpin : v.snapshot = some s := by
      have : c.elems[k]? = some e := he
      cases this.symm.trans hve
      exact hs
    have hlt : k + 1 < l.length := by
      have := hc.bound
      simp only [Chain.store, Chain.push, List.length_cons] at this
      rw [h.length_eq]
      omega
    obtain ⟨xs, ys, hsplit, hlen⟩ := split hi
    have hnext : (w.links a).next = some l[k + 1] := by
      rw [(hsplit ▸ h.chain : w.links.IsChain (xs ++ a :: ys)).next_eq, ← List.getElem?_eq_getElem hlt, hsplit, ← hlen,
        List.getElem?_append_right (Nat.le_add_right _ 1), Nat.add_sub_cancel_left]
      cases ys <;> rfl
    obtain ⟨u, hu, hue⟩ := h.get (List.getElem?_eq_getElem hlt)
    exact ⟨l[k + 1], u, by simp [Heap.gcVictim, ha, hv, hpin, hnext], List.getElem?_eq_getElem hlt, hu, hue⟩

end Sim

end ScyllaMoon.Mvcc
