import Mathlib

/-!
# Registers that keep their versions

A register holds the versions of one value under increasing numbers and notes the highest number it was
read at. A read at `t` gets the newest version not above `t`. If new versions are numbered above all
reads and writes before them, then a number that was written or read closes the register up to it: what
a read there gets never changes again.
-/

namespace ScyllaMoon.Lib

open List

variable {α : Type}

/-- The versions of a value, newest first, and the highest number that was read. -/
structure Register (α : Type) where
  versions : List (Nat × α)
  read : Nat
  sorted : versions.Pairwise fun a b => b.1 < a.1

namespace Register

def empty : Register α := ⟨[], 0, .nil⟩

variable (r : Register α)

/-- The number of the newest version. -/
def written : Nat :=
  (r.versions.head?.map Prod.fst).getD 0

/-- The newest version not above `t`. -/
def get (t : Nat) : Option (Nat × α) :=
  r.versions.find? fun v => decide (v.1 ≤ t)

/-- A read at `t`. -/
def note (t : Nat) : Register α :=
  { r with read := max r.read t }

theorem le_written {v : Nat × α} (h : v ∈ r.versions) : v.1 ≤ r.written := by
  obtain ⟨versions, read, sorted⟩ := r
  cases versions with
  | nil => cases h
  | cons u versions =>
    rcases mem_cons.1 h with rfl | h
    · exact Nat.le_refl _
    · exact Nat.le_of_lt ((pairwise_cons.1 sorted).1 v h)

theorem exists_written (h : r.versions ≠ []) : ∃ v ∈ r.versions, v.1 = r.written := by
  obtain ⟨versions, read, sorted⟩ := r
  cases versions with
  | nil => exact absurd rfl h
  | cons v versions => exact ⟨v, mem_cons_self, rfl⟩

/-- A new version, above all that are there. -/
def push (n : Nat) (a : α) (new : r.written < n) : Register α where
  versions := (n, a) :: r.versions
  read := r.read
  sorted := pairwise_cons.2 ⟨fun _ hv => Nat.lt_of_le_of_lt (r.le_written hv) new, r.sorted⟩

/-- No version comes at or below `t` any more. -/
def Closed (t : Nat) : Prop := t ≤ r.written ∨ t ≤ r.read

/-- The register returns `v` at `t`, now and later. -/
structure Fixed (t : Nat) (v : Nat × α) : Prop where
  get : r.get t = some v
  closed : r.Closed t

section

variable {r : Register α} {t n : Nat} {a : α} {v : Nat × α}

@[simp] theorem written_note : (r.note t).written = r.written := rfl

@[simp] theorem mem_push (new : r.written < n) : v ∈ (r.push n a new).versions ↔ v = (n, a) ∨ v ∈ r.versions :=
  mem_cons

theorem mem_of_get (h : r.get t = some v) : v ∈ r.versions :=
  mem_of_find?_eq_some h

/-- The newest version not above `t` is the greatest of them. -/
theorem get_eq_some : r.get t = some v ↔ v ∈ r.versions ∧ v.1 ≤ t ∧ ∀ u ∈ r.versions, u.1 ≤ t → u.1 ≤ v.1 := by
  obtain ⟨versions, read, sorted⟩ := r
  unfold get
  induction versions with
  | nil => simp
  | cons u versions ih =>
    obtain ⟨first, sorted⟩ := pairwise_cons.1 sorted
    have ih : versions.find? (fun v => decide (v.1 ≤ t)) = some v ↔ _ := ih sorted
    by_cases hu : u.1 ≤ t
    · rw [find?_cons_of_pos (by simpa using hu)]
      constructor
      · intro h
        cases h
        refine ⟨mem_cons_self, hu, forall_mem_cons.2 ⟨fun _ => Nat.le_refl _, fun x hx _ => ?_⟩⟩
        exact Nat.le_of_lt (first x hx)
      · rintro ⟨mem, -, greatest⟩
        rcases mem_cons.1 mem with rfl | mem
        · rfl
        · exact absurd (greatest u mem_cons_self hu) (Nat.not_le.2 (first v mem))
    · rw [find?_cons_of_neg (by simpa using hu), ih]
      constructor
      · rintro ⟨mem, le, greatest⟩
        exact ⟨mem_cons_of_mem _ mem, le, forall_mem_cons.2 ⟨fun h => absurd h hu, greatest⟩⟩
      · rintro ⟨mem, le, greatest⟩
        rcases mem_cons.1 mem with rfl | mem
        · exact absurd le hu
        · exact ⟨mem, le, (forall_mem_cons.1 greatest).2⟩

theorem eq_of_mem {a b : α} (ha : (n, a) ∈ r.versions) (hb : (n, b) ∈ r.versions) : a = b := by
  have get : ∀ {a}, (n, a) ∈ r.versions → r.get n = some (n, a) := fun h =>
    get_eq_some.2 ⟨h, Nat.le_refl _, fun _ _ le => le⟩
  have eq := (get ha).symm.trans (get hb)
  cases eq
  rfl

theorem exists_get (h : v ∈ r.versions) (le : v.1 ≤ t) : ∃ u, r.get t = some u :=
  Option.isSome_iff_exists.1 (find?_isSome.2 ⟨v, h, by simpa using le⟩)

/-- The newest version is what a read at its number gets. -/
theorem get_head (h : r.versions.head? = some v) : r.get v.1 = some v := by
  have mem : v ∈ r.versions := mem_of_head? h
  refine get_eq_some.2 ⟨mem, Nat.le_refl _, fun u hu _ => ?_⟩
  have le := r.le_written hu
  rwa [written, h] at le

theorem written_of_head (h : r.versions.head? = some v) : r.written = v.1 := by
  rw [written, h]
  rfl

theorem Closed.note (h : r.Closed t) (u : Nat) : (r.note u).Closed t :=
  h.imp_right fun le => Nat.le_trans le (Nat.le_max_left ..)

theorem closed_note : (r.note t).Closed t := .inr (Nat.le_max_right ..)

theorem Closed.push (h : r.Closed t) (new : r.written < n) : (r.push n a new).Closed t :=
  h.imp_left fun le => Nat.le_trans le (Nat.le_of_lt new)

/-- A version above all reads is above what is closed. -/
theorem Closed.lt (h : r.Closed t) (new : r.written < n) (unread : r.read < n) : t < n :=
  h.elim (fun le => Nat.lt_of_le_of_lt le new) fun le => Nat.lt_of_le_of_lt le unread

theorem Fixed.note (h : r.Fixed t v) (u : Nat) : (r.note u).Fixed t v :=
  ⟨h.get, h.closed.note u⟩

theorem Fixed.push (h : r.Fixed t v) (new : r.written < n) (unread : r.read < n) : (r.push n a new).Fixed t v :=
  ⟨(find?_cons_of_neg (by simpa using (h.closed.lt new unread))).trans h.get, h.closed.push new⟩

/-- A later state of the register. -/
structure Extends (r r' : Register α) : Prop where
  versions : ∀ v ∈ r.versions, v ∈ r'.versions
  fixed : ∀ t v, r.Fixed t v → r'.Fixed t v

theorem Extends.refl (r : Register α) : r.Extends r := ⟨fun _ h => h, fun _ _ h => h⟩

theorem extends_note (r : Register α) (t : Nat) : r.Extends (r.note t) :=
  ⟨fun _ h => h, fun _ _ h => h.note t⟩

theorem extends_push (new : r.written < n) (unread : r.read < n) : r.Extends (r.push n a new) :=
  ⟨fun _ h => (mem_push new).2 (.inr h), fun _ _ h => h.push new unread⟩

end

end Register

end ScyllaMoon.Lib
