import Mathlib

/-!
# Merging as a join

`IsJoin ok le op` says that `op` gives a least upper bound of two values that are `ok`, in a preorder.
Values that are below each other need not be equal: a merge may keep either of two values that it does
not tell apart. What a tree of merges gives then depends, up to such ties, only on the set of its
leaves: not on their order, their grouping or how often one of them comes.
-/

namespace ScyllaMoon.Lib

open List

variable {α β ι : Type}

/-- `op` gives least upper bounds of the values that are `ok`. -/
structure IsJoin (ok : α → Prop) (le : α → α → Prop) (op : α → α → α) : Prop where
  refl : ∀ a, le a a
  trans : ∀ a b c, le a b → le b c → le a c
  closed : ∀ a b, ok a → ok b → ok (op a b)
  left : ∀ a b, ok a → ok b → le a (op a b)
  right : ∀ a b, ok a → ok b → le b (op a b)
  least : ∀ a b c, ok a → ok b → le a c → le b c → le (op a b) c

/-- The order of values that one side may lack. -/
def OptionLe (le : α → α → Prop) : Option α → Option α → Prop
  | none, _ => True
  | some _, none => False
  | some a, some b => le a b

/-- Values that are below each other are both there, or both missing. -/
theorem OptionLe.rel {le R : α → α → Prop} {a b : Option α} (h : OptionLe le a b) (h' : OptionLe le b a)
    (both : ∀ x, a = some x → ∀ y, b = some y → le x y → le y x → R x y) : Option.Rel R a b := by
  cases a with
  | none => cases b with
    | none => exact .none
    | some y => exact h'.elim
  | some x => cases b with
    | none => exact h.elim
    | some y => exact .some (both x rfl y rfl h h')

/-- The order of values by a rank. -/
def RankLe {ρ : Type} [Ord ρ] (rank : α → ρ) (a b : α) : Prop := (compare (rank a) (rank b)).isLE = true

/-- Values that are below each other have ranks that compare equal. -/
theorem RankLe.compare_eq {ρ : Type} [Ord ρ] [Std.OrientedOrd ρ] {rank : α → ρ} {a b : α} (h : RankLe rank a b)
    (h' : RankLe rank b a) : compare (rank a) (rank b) = .eq := by
  unfold RankLe at h h'
  rw [Std.OrientedOrd.eq_swap] at h'
  cases hc : compare (rank a) (rank b) <;> simp [hc] at h h' ⊢

/-- What holds of a value that may be missing. -/
def OptionOk (ok : α → Prop) (o : Option α) : Prop := ∀ a, o = some a → ok a

/-- A view of merged values, where the values that are there are merged as their views are. -/
theorem map_merge {f : α → β} {g : α → α → α} {g' : β → β → β} {a b : Option α}
    (hom : ∀ x, a = some x → ∀ y, b = some y → f (g x y) = g' (f x) (f y)) :
    (Option.merge g a b).map f = Option.merge g' (a.map f) (b.map f) := by
  cases a with
  | none => cases b <;> rfl
  | some x => cases b with
    | none => rfl
    | some y => exact congrArg some (hom x rfl y rfl)

namespace IsJoin

variable {ok : α → Prop} {le : α → α → Prop} {op : α → α → α}

/-- A merge that keeps the greater of two values. -/
theorem of_choice (refl : ∀ a, le a a) (trans : ∀ a b c, le a b → le b c → le a c)
    (choice : ∀ a b, ok a → ok b → op a b = a ∧ le b a ∨ op a b = b ∧ le a b) : IsJoin ok le op where
  refl := refl
  trans := trans
  closed a b ha hb := by
    rcases choice a b ha hb with ⟨h, -⟩ | ⟨h, -⟩ <;> rw [h]
    · exact ha
    · exact hb
  left a b ha hb := by
    rcases choice a b ha hb with ⟨h, -⟩ | ⟨h, hab⟩ <;> rw [h]
    · exact refl a
    · exact hab
  right a b ha hb := by
    rcases choice a b ha hb with ⟨h, hba⟩ | ⟨h, -⟩ <;> rw [h]
    · exact hba
    · exact refl b
  least a b c ha hb hac hbc := by
    rcases choice a b ha hb with ⟨h, -⟩ | ⟨h, -⟩ <;> rw [h]
    · exact hac
    · exact hbc

theorem of_rank {ρ : Type} [Ord ρ] [Std.TransOrd ρ] {rank : α → ρ}
    (choice : ∀ a b, ok a → ok b → op a b = a ∧ RankLe rank b a ∨ op a b = b ∧ RankLe rank a b) :
    IsJoin ok (RankLe rank) op :=
  of_choice (fun a => by simp [RankLe]) (fun _ _ _ => Std.TransCmp.isLE_trans) choice

theorem option (h : IsJoin ok le op) : IsJoin (OptionOk ok) (OptionLe le) (Option.merge op) where
  refl a := by
    cases a with
    | none => trivial
    | some a => exact h.refl a
  trans a b c hab hbc := by
    cases a with
    | none => trivial
    | some a => cases b with
      | none => exact hab.elim
      | some b => cases c with
        | none => exact hbc.elim
        | some c => exact h.trans a b c hab hbc
  closed a b ha hb := by
    cases a with
    | none => simpa using hb
    | some a => cases b with
      | none => simpa using ha
      | some b =>
        rintro _ ⟨⟩
        exact h.closed a b (ha a rfl) (hb b rfl)
  left a b ha hb := by
    cases a with
    | none => trivial
    | some a => cases b with
      | none => exact h.refl a
      | some b => exact h.left a b (ha a rfl) (hb b rfl)
  right a b ha hb := by
    cases b with
    | none => trivial
    | some b => cases a with
      | none => exact h.refl b
      | some a => exact h.right a b (ha a rfl) (hb b rfl)
  least a b c ha hb hac hbc := by
    cases a with
    | none => simpa using hbc
    | some a => cases b with
      | none => simpa using hac
      | some b => cases c with
        | none => exact hac.elim
        | some c => exact h.least a b c (ha a rfl) (hb b rfl) hac hbc

/-- Values that are read through an index, each with its own notion of `ok`. -/
theorem pi {ok : ι → α → Prop} (h : ∀ i, IsJoin (ok i) le op) :
    IsJoin (fun f : ι → α => ∀ i, ok i (f i)) (fun f g => ∀ i, le (f i) (g i)) (fun f g i => op (f i) (g i)) where
  refl f i := (h i).refl (f i)
  trans _ _ _ hfg hgk i := (h i).trans _ _ _ (hfg i) (hgk i)
  closed _ _ hf hg i := (h i).closed _ _ (hf i) (hg i)
  left _ _ hf hg i := (h i).left _ _ (hf i) (hg i)
  right _ _ hf hg i := (h i).right _ _ (hf i) (hg i)
  least _ _ _ hf hg hfk hgk i := (h i).least _ _ _ (hf i) (hg i) (hfk i) (hgk i)

/-- A merge of implementations is a join where `view` turns it into one. -/
theorem comap (h : IsJoin ok le op) (view : β → α) {inv : β → Prop} {merge : β → β → β}
    (closed : ∀ a b, inv a → inv b → inv (merge a b)) (good : ∀ a, inv a → ok (view a))
    (hom : ∀ a b, inv a → inv b → view (merge a b) = op (view a) (view b)) :
    IsJoin inv (fun a b => le (view a) (view b)) merge where
  refl a := h.refl (view a)
  trans a b c := h.trans (view a) (view b) (view c)
  closed := closed
  left a b ha hb := hom a b ha hb ▸ h.left _ _ (good a ha) (good b hb)
  right a b ha hb := hom a b ha hb ▸ h.right _ _ (good a ha) (good b hb)
  least a b _ ha hb hac hbc := hom a b ha hb ▸ h.least _ _ _ (good a ha) (good b hb) hac hbc

end IsJoin

/-- A way to merge values, starting from empty ones: in some order, some grouping, some of them more
than once. -/
inductive MergeTree (α : Type) where
  | empty
  | leaf (a : α)
  | node (l r : MergeTree α)

namespace MergeTree

def eval (empty : α) (op : α → α → α) : MergeTree α → α
  | .empty => empty
  | .leaf a => a
  | .node l r => op (l.eval empty op) (r.eval empty op)

def leaves : MergeTree α → List α
  | .empty => []
  | .leaf a => [a]
  | .node l r => l.leaves ++ r.leaves

/-- Nothing is merged but the leaves. -/
def Full : MergeTree α → Prop
  | .empty => False
  | .leaf _ => True
  | .node l r => l.Full ∧ r.Full

/-- Values that are merged one after the other. -/
def chain (a : α) (as : List α) : MergeTree α := as.foldl (fun t b => .node t (.leaf b)) (.leaf a)

variable {ok : α → Prop} {le : α → α → Prop} {op : α → α → α} {empty : α} {t u : MergeTree α}

theorem Full.leaves_ne_nil (h : t.Full) : t.leaves ≠ [] := by
  induction t with
  | empty => exact h.elim
  | leaf a => exact cons_ne_nil a []
  | node l r ihl _ => exact fun nil => ihl h.1 (append_eq_nil_iff.1 nil).1

theorem leaves_chain (a : α) (as : List α) : (chain a as).leaves = a :: as := by
  have append : ∀ t : MergeTree α, (as.foldl (fun t b => .node t (.leaf b)) t).leaves = t.leaves ++ as := by
    induction as with
    | nil => exact fun t => (append_nil _).symm
    | cons b as ih => exact fun t => (ih _).trans (append_assoc ..)
  exact append _

theorem eval_chain (a : α) (as : List α) : (chain a as).eval empty op = as.foldl op a := by
  have fold : ∀ t : MergeTree α, (as.foldl (fun t b => .node t (.leaf b)) t).eval empty op = as.foldl op (t.eval empty op) := by
    induction as with
    | nil => exact fun t => rfl
    | cons b as ih => exact fun t => ih _
  exact fold _

theorem eval_of_leaves_eq {a : α} (full : t.Full) (h : t.leaves = [a]) : t.eval empty op = a := by
  cases t with
  | empty => exact full.elim
  | leaf b => exact singleton_inj.1 h
  | node l r =>
    have length := congrArg length h
    have left := length_pos_iff.2 full.1.leaves_ne_nil
    have right := length_pos_iff.2 full.2.leaves_ne_nil
    simp only [leaves, length_append, length_singleton] at length
    omega

theorem full_chain (a : α) (as : List α) : (chain a as).Full := by
  have full : ∀ t : MergeTree α, t.Full → (as.foldl (fun t b => .node t (.leaf b)) t).Full := by
    induction as with
    | nil => exact fun t h => h
    | cons b as ih => exact fun t h => ih _ ⟨h, trivial⟩
  exact full _ trivial

variable (join : IsJoin ok le op)
include join

variable (bottom : ok empty)
include bottom

theorem ok_eval (h : ∀ a ∈ t.leaves, ok a) : ok (t.eval empty op) := by
  induction t with
  | empty => exact bottom
  | leaf a => exact h a mem_cons_self
  | node l r ihl ihr =>
    obtain ⟨hl, hr⟩ := forall_mem_append.1 h
    exact join.closed _ _ (ihl hl) (ihr hr)

/-- Every leaf is below what the tree gives. -/
theorem le_eval (h : ∀ a ∈ t.leaves, ok a) :
    ∀ a ∈ t.leaves, le a (t.eval empty op) := by
  induction t with
  | empty => exact nofun
  | leaf a => exact forall_mem_singleton.2 (join.refl a)
  | node l r ihl ihr =>
    obtain ⟨hl, hr⟩ := forall_mem_append.1 h
    have okl := ok_eval join bottom hl
    have okr := ok_eval join bottom hr
    exact forall_mem_append.2 ⟨fun a ha => join.trans _ _ _ (ihl hl a ha) (join.left _ _ okl okr),
      fun a ha => join.trans _ _ _ (ihr hr a ha) (join.right _ _ okl okr)⟩

/-- What is above every leaf is above what the tree gives. -/
theorem eval_le (h : ∀ a ∈ t.leaves, ok a) {c : α} (least : le empty c)
    (above : ∀ a ∈ t.leaves, le a c) : le (t.eval empty op) c := by
  induction t with
  | empty => exact least
  | leaf a => exact above a mem_cons_self
  | node l r ihl ihr =>
    obtain ⟨hl, hr⟩ := forall_mem_append.1 h
    obtain ⟨abovel, abover⟩ := forall_mem_append.1 above
    exact join.least _ _ _ (ok_eval join bottom hl) (ok_eval join bottom hr) (ihl hl abovel) (ihr hr abover)

/-- Only the set of leaves matters. -/
theorem eval_le_eval (least : ∀ a, ok a → le empty a)
    (hu : ∀ a ∈ u.leaves, ok a) (sub : t.leaves ⊆ u.leaves) : le (t.eval empty op) (u.eval empty op) :=
  eval_le join bottom (fun a ha => hu a (sub ha)) (least _ (ok_eval join bottom hu)) fun a ha =>
    le_eval join bottom hu a (sub ha)

end MergeTree

end ScyllaMoon.Lib
