import Mathlib

/-!
# Doubly linked lists without an anchor

Elements carry their own `next` and `prev` pointers and there is no list head: a list is known only
through the elements on it. `Links` is the hook of every address, the operations write the same
fields in the same order as an intrusive list does, and `IsChain h l` says that the addresses `l`
are exactly one list of `h`, first to last. Each operation has one lemma that turns a chain into the
chain it leaves behind, so that a client reasons about `List` and never about pointers.
-/

namespace ScyllaMoon.Lib

open Function List

/-- The pointers one element carries. -/
structure Hook (α : Type) where
  next : Option α := none
  prev : Option α := none
  deriving DecidableEq, Repr

/-- The hook of every address, linked or not. -/
abbrev Links (α : Type) := α → Hook α

namespace Links

section Operations

variable {α : Type} [DecidableEq α] (h : Links α)

/-- `if (p) p->_next = q`. -/
def setNext (p q : Option α) : Links α :=
  match p with
  | none => h
  | some a => update h a { h a with next := q }

/-- `if (p) p->_prev = q`. -/
def setPrev (p q : Option α) : Links α :=
  match p with
  | none => h
  | some a => update h a { h a with prev := q }

/-- Links `b` in front of `a`. -/
def insertBefore (b a : α) : Links α :=
  let p := (h a).prev
  let h := h.setPrev (some b) p
  let h := h.setPrev (some a) (some b)
  let h := h.setNext (some b) (some a)
  h.setNext p (some b)

/-- Unlinks `a` and clears its hook. -/
def erase (a : α) : Links α :=
  let h := h.setPrev (h a).next (h a).prev
  let h := h.setNext (h a).prev (h a).next
  update h a {}

/-- Moves the hook of `a` to the fresh address `b`. -/
def relocate (a b : α) : Links α :=
  let h : Links α := update h b (h a)
  let h := h.setPrev (h b).next (some b)
  let h := h.setNext (h b).prev (some b)
  update h a {}

end Operations

section Traversal

variable {α : Type}

/-- The elements met by following `next` from `p`, at most `fuel` of them. -/
def elementsFrom (h : Links α) : (fuel : Nat) → (p : Option α) → List α
  | 0, _ => []
  | _ + 1, none => []
  | fuel + 1, some a => a :: elementsFrom h fuel (h a).next

/-- The element reached from `a` by following `prev` until there is none. -/
def front (h : Links α) : (fuel : Nat) → (a : α) → α
  | 0, a => a
  | fuel + 1, a => match (h a).prev with
    | none => a
    | some b => front h fuel b

/-- `l` is laid out consecutively, entered from `p` and left towards `q`. -/
def Seg (h : Links α) : Option α → List α → Option α → Prop
  | _, [], _ => True
  | p, a :: l, q => (h a).prev = p ∧ (h a).next = l.head?.or q ∧ Seg h (some a) l q

/-- `l` is a whole list of `h`, first to last. -/
structure IsChain (h : Links α) (l : List α) : Prop where
  seg : h.Seg none l none
  nodup : l.Nodup

variable {h : Links α} {l : List α}

theorem Seg.congr {h' : Links α} : ∀ {p q : Option α}, h.Seg p l q → (∀ a ∈ l, h' a = h a) → h'.Seg p l q := by
  induction l with
  | nil => intros; trivial
  | cons a l ih =>
    intro p q hs he
    obtain ⟨hp, hn, hs⟩ := hs
    have ha := he a mem_cons_self
    exact ⟨by rw [ha, hp], by rw [ha, hn], ih hs fun b hb => he b (mem_cons_of_mem _ hb)⟩

variable {xs ys : List α}

/-- A segment splits anywhere: the right part is entered from the last element of the left one. -/
theorem seg_append : ∀ {p q : Option α},
    h.Seg p (xs ++ ys) q ↔ h.Seg p xs (ys.head?.or q) ∧ h.Seg (xs.getLast?.or p) ys q := by
  induction xs with
  | nil => intro p q; simp [Seg]
  | cons a xs ih =>
    intro p q
    have hl : (a :: xs).getLast?.or p = xs.getLast?.or (some a) := by
      rw [getLast?_cons]
      cases xs.getLast? <;> rfl
    have hh : (xs ++ ys).head?.or q = xs.head?.or (ys.head?.or q) := by
      cases xs <;> simp
    rw [cons_append, Seg, Seg, ih, hl, hh, and_assoc, and_assoc]

theorem IsChain.next_eq {h : Links α} {xs ys : List α} {a : α} (hc : h.IsChain (xs ++ a :: ys)) :
    (h a).next = ys.head? := by
  have := (seg_append.1 hc.seg).2.2.1
  simpa using this

variable {a : α}

theorem IsChain.prev_eq (hc : h.IsChain (xs ++ a :: ys)) : (h a).prev = xs.getLast? := by
  have := (seg_append.1 hc.seg).2.1
  simpa using this

theorem Seg.elementsFrom : ∀ {p : Option α} {fuel : Nat},
    h.Seg p l none → l.length ≤ fuel → h.elementsFrom fuel l.head? = l := by
  induction l with
  | nil => intro p fuel _ _; cases fuel <;> rfl
  | cons a l ih =>
    intro p fuel hs hf
    obtain ⟨_, hn, hs⟩ := hs
    cases fuel with
    | zero => simp at hf
    | succ fuel =>
      rw [Option.or_none] at hn
      rw [head?_cons, Links.elementsFrom, hn, ih hs (by simpa using hf)]

/-- Walking a chain from one of its elements yields the rest of the chain. -/
theorem IsChain.elementsFrom {fuel : Nat} (hc : h.IsChain (xs ++ a :: ys)) (hf : (a :: ys).length ≤ fuel) :
    h.elementsFrom fuel (some a) = a :: ys :=
  Seg.elementsFrom (seg_append.1 hc.seg).2 hf

/-- The first element of a chain is its own front. -/
theorem IsChain.front_eq {fuel : Nat} (hc : h.IsChain (a :: l)) : h.front fuel a = a := by
  cases fuel with
  | zero => rfl
  | succ fuel => rw [front, hc.seg.1]

end Traversal

section Chains

variable {α : Type} [DecidableEq α]

variable {h : Links α} {p q : Option α} {a : α}

theorem setNext_of_ne (ha : p ≠ some a) : h.setNext p q a = h a := by
  cases p with
  | none => rfl
  | some b => exact update_of_ne (fun e => ha (by rw [e])) ..

theorem setPrev_of_ne (ha : p ≠ some a) : h.setPrev p q a = h a := by
  cases p with
  | none => rfl
  | some b => exact update_of_ne (fun e => ha (by rw [e])) ..

variable {b c : α}

theorem insertBefore_of_ne (hp : (h a).prev = none) (hca : c ≠ a) (hcb : c ≠ b) : h.insertBefore b a c = h c := by
  simp only [Links.insertBefore, hp]
  rw [setNext_of_ne (by simp), setNext_of_ne (by simpa using hcb.symm), setPrev_of_ne (by simpa using hca.symm),
    setPrev_of_ne (by simpa using hcb.symm)]

theorem IsChain.insertBefore {l : List α} (hc : h.IsChain (a :: l)) (hb : b ∉ a :: l) :
    (h.insertBefore b a).IsChain (b :: a :: l) := by
  have hp : (h a).prev = none := hc.seg.1
  have hn : (h a).next = l.head? := by simpa using hc.seg.2.1
  have hba : b ≠ a := fun e => hb (by simp [e])
  refine ⟨⟨?_, ?_, ?_, ?_, ?_⟩, nodup_cons.2 ⟨hb, hc.nodup⟩⟩
  · simp [Links.insertBefore, hp, setNext, setPrev, hba]
  · simp [Links.insertBefore, hp, setNext]
  · simp [Links.insertBefore, hp, setNext, setPrev, hba.symm]
  · simp [Links.insertBefore, hp, setNext, setPrev, hba.symm, hn]
  · refine hc.seg.2.2.congr fun c hcl => ?_
    have hca : c ≠ a := fun e => (nodup_cons.1 hc.nodup).1 (e ▸ hcl)
    have hcb : c ≠ b := fun e => hb (e ▸ mem_cons_of_mem _ hcl)
    exact insertBefore_of_ne hp hca hcb

variable {xs : List α}

theorem Seg.setNext_last (hs : h.Seg p xs q) (hd : xs.Nodup) (q' : Option α) :
    (h.setNext xs.getLast? q').Seg p xs q' := by
  rcases xs.eq_nil_or_concat' with rfl | ⟨ys, b, rfl⟩
  · trivial
  · obtain ⟨hy, hp, -, -⟩ := seg_append.1 hs
    have hb : ∀ c ∈ ys, b ≠ c := fun c hc e => (nodup_append.1 hd).2.2 c hc b (by simp) e.symm
    refine seg_append.2 ⟨?_, ?_, ?_, trivial⟩
    · refine Seg.congr (by simpa using hy) fun c hc => setNext_of_ne (by simpa using hb c hc)
    · simpa [setNext] using hp
    · simp [setNext]

variable {ys : List α}

theorem Seg.setPrev_head (hs : h.Seg p ys q) (hd : ys.Nodup) (p' : Option α) : (h.setPrev ys.head? p').Seg p' ys q := by
  cases ys with
  | nil => trivial
  | cons b ys =>
    obtain ⟨-, hn, hs⟩ := hs
    refine ⟨by simp [setPrev], by simpa [setPrev] using hn, hs.congr fun c hc => setPrev_of_ne ?_⟩
    have hb : b ≠ c := fun e => (nodup_cons.1 hd).1 (e ▸ hc)
    simpa using hb

theorem IsChain.erase (hc : h.IsChain (xs ++ a :: ys)) : (h.erase a).IsChain (xs ++ ys) ∧ h.erase a a = {} := by
  have hn := hc.next_eq
  have hp := hc.prev_eq
  obtain ⟨hx, -, -, hy⟩ := seg_append.1 hc.seg
  have hd : (xs ++ ys).Nodup := hc.nodup.sublist (by simp)
  obtain ⟨dx, dy, dj⟩ := nodup_append.1 hd
  have ha : a ∉ xs ++ ys := (nodup_middle.1 hc.nodup).notMem
  have nxt : ys.head? ≠ some a := fun e => ha (mem_append_right _ (mem_of_head? e))
  have eq : h.erase a = update ((h.setPrev ys.head? xs.getLast?).setNext xs.getLast? ys.head?) a {} := by
    simp only [Links.erase, hn, hp, setPrev_of_ne nxt]
  refine ⟨⟨?_, hd⟩, by rw [eq, update_self]⟩
  have hx' : (h.setPrev ys.head? xs.getLast?).Seg none xs (some a) :=
    Seg.congr (by simpa using hx) fun c hc => setPrev_of_ne fun e => dj c hc c (mem_of_head? e) rfl
  have hy' := hy.setPrev_head dy xs.getLast?
  refine Seg.congr (h := (h.setPrev ys.head? xs.getLast?).setNext xs.getLast? ys.head?)
    (seg_append.2 ⟨?_, ?_⟩) fun c hc => ?_
  · rw [Option.or_none]
    exact hx'.setNext_last dx _
  · rw [Option.or_none]
    exact hy'.congr fun c hc => setNext_of_ne fun e => dj c (mem_of_getLast? e) c hc rfl
  · have hca : c ≠ a := fun e => ha (e ▸ hc)
    rw [eq, update_of_ne hca]

theorem IsChain.erase_of_notMem (hc : h.IsChain (xs ++ a :: ys)) (hcl : c ∉ xs ++ a :: ys) : h.erase a c = h c := by
  simp only [mem_append, mem_cons, not_or] at hcl
  have nxt : (h a).next ≠ some c := by
    rw [hc.next_eq]
    exact fun e => hcl.2.2 (mem_of_head? e)
  have prv : (h a).prev ≠ some c := by
    rw [hc.prev_eq]
    exact fun e => hcl.1 (mem_of_getLast? e)
  have keep : (h.setPrev (h a).next (h a).prev a).prev = (h a).prev := by
    by_cases e : (h a).next = some a
    · have := hc.next_eq.symm.trans e
      exact absurd (mem_of_head? this) (fun m => (nodup_middle.1 hc.nodup).notMem (by simp [m]))
    · rw [setPrev_of_ne e]
  rw [Links.erase, update_of_ne hcl.2.1, setNext_of_ne (by rwa [keep]), setPrev_of_ne nxt]

/-- Moving an element that is in no list only clears two hooks. -/
theorem relocate_of_unlinked (ha : h a = {}) : h.relocate a b = update (update h b {}) a {} := by
  simp only [Links.relocate, ha, update_self, setPrev, setNext]

theorem IsChain.relocate_of_notMem (hc : h.IsChain (xs ++ a :: ys)) (hb : b ∉ xs ++ a :: ys) (hcl : c ∉ xs ++ a :: ys)
    (hcb : c ≠ b) : h.relocate a b c = h c := by
  simp only [mem_append, mem_cons, not_or] at hb hcl
  have nxt : ys.head? ≠ some c := fun e => hcl.2.2 (mem_of_head? e)
  have prv : xs.getLast? ≠ some c := fun e => hcl.1 (mem_of_getLast? e)
  have nb : ys.head? ≠ some b := fun e => hb.2.2 (mem_of_head? e)
  simp only [Links.relocate, update_self, hc.next_eq, setPrev_of_ne nb, hc.prev_eq]
  rw [update_of_ne hcl.2.1, setNext_of_ne prv, setPrev_of_ne nxt, update_of_ne hcb]

theorem IsChain.relocate (hc : h.IsChain (xs ++ a :: ys)) (hb : b ∉ xs ++ a :: ys) :
    (h.relocate a b).IsChain (xs ++ b :: ys) := by
  have hn := hc.next_eq
  have hp := hc.prev_eq
  obtain ⟨hx, -, -, hy⟩ := seg_append.1 hc.seg
  have hd : (xs ++ ys).Nodup := hc.nodup.sublist (by simp)
  obtain ⟨dx, dy, dj⟩ := nodup_append.1 hd
  have ha : a ∉ xs ++ ys := (nodup_middle.1 hc.nodup).notMem
  have hba : b ≠ a := fun e => hb (by simp [e])
  have hbxy : b ∉ xs ++ ys := fun e => hb (by simp only [mem_append, mem_cons] at e ⊢; tauto)
  have nb : ys.head? ≠ some b := fun e => hbxy (mem_append_right _ (mem_of_head? e))
  have pb : xs.getLast? ≠ some b := fun e => hbxy (mem_append_left _ (mem_of_getLast? e))
  let h0 : Links α := update h b (h a)
  have h0b : h0 b = h a := update_self ..
  have h0c : ∀ c ∈ xs ++ ys, h0 c = h c := fun c hc => by
    have hcb : c ≠ b := fun e => hbxy (e ▸ hc)
    exact update_of_ne hcb ..
  have eq : h.relocate a b = update ((h0.setPrev ys.head? (some b)).setNext xs.getLast? (some b)) a {} := by
    simp only [Links.relocate, update_self, hn, setPrev_of_ne nb, hp, h0]
  have hx' : (h0.setPrev ys.head? (some b)).Seg none xs (some a) :=
    Seg.congr (by simpa using hx) fun c hc => by
      rw [setPrev_of_ne fun e => dj c hc c (mem_of_head? e) rfl, h0c c (mem_append_left _ hc)]
  have hy' : (h0.setPrev ys.head? (some b)).Seg (some b) ys none :=
    (hy.congr fun c hc => h0c c (mem_append_right _ hc)).setPrev_head dy _
  refine ⟨?_, nodup_middle.2 (nodup_cons.2 ⟨hbxy, hd⟩)⟩
  refine Seg.congr (h := (h0.setPrev ys.head? (some b)).setNext xs.getLast? (some b))
    (seg_append.2 ⟨?_, ?_, ?_, ?_⟩) fun c hm => ?_
  · simpa using hx'.setNext_last dx (some b)
  · rw [setNext_of_ne pb, setPrev_of_ne nb, h0b, hp, Option.or_none]
  · rw [setNext_of_ne pb, setPrev_of_ne nb, h0b, hn, Option.or_none]
  · exact hy'.congr fun c hc => setNext_of_ne fun e => dj c (mem_of_getLast? e) c hc rfl
  · have hca : c ≠ a := by
      rintro rfl
      simp only [mem_append, mem_cons] at hm ha
      rcases hm with hm | hm | hm
      · exact ha (.inl hm)
      · exact hba hm.symm
      · exact ha (.inr hm)
    rw [eq, update_of_ne hca]

end Chains

end Links

end ScyllaMoon.Lib
