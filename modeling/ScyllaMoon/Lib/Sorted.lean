import Mathlib

/-!
# Sorted lists

`std::lower_bound` and `std::upper_bound` cut a sorted sequence where a predicate that only holds up to
some point stops holding. On such a sequence the part before the cut is a filter, and so is the part
behind it. `upsert` is the one way in which the ordered containers here grow: an element is merged into
the one with its key, or linked in at its place.
-/

namespace ScyllaMoon.Lib

open List

variable {α : Type}

variable {l : List α} {p : α → Bool}

theorem takeWhile_eq_filter (cut : l.Pairwise fun a b => p b = true → p a = true) : l.takeWhile p = l.filter p := by
  induction l with
  | nil => rfl
  | cons a l ih =>
    obtain ⟨first, cut⟩ := pairwise_cons.1 cut
    cases hp : p a with
    | true => rw [takeWhile_cons_of_pos hp, filter_cons_of_pos hp, ih cut]
    | false =>
      have none : l.filter p = [] :=
        filter_eq_nil_iff.2 fun b hb hpb => by simp [first b hb hpb] at hp
      rw [takeWhile_cons_of_neg (by simp [hp]), filter_cons_of_neg (by simp [hp]), none]

theorem dropWhile_eq_filter (cut : l.Pairwise fun a b => p b = true → p a = true) :
    l.dropWhile p = l.filter fun a => !p a := by
  induction l with
  | nil => rfl
  | cons a l ih =>
    obtain ⟨first, cut⟩ := pairwise_cons.1 cut
    cases hp : p a with
    | true => rw [dropWhile_cons_of_pos hp, filter_cons_of_neg (by simp [hp]), ih cut]
    | false =>
      have all : l.filter (fun a => !p a) = l :=
        filter_eq_self.2 fun b hb => by
          cases hpb : p b with
          | false => rfl
          | true => simp [first b hb hpb] at hp
      rw [dropWhile_cons_of_neg (by simp [hp]), filter_cons_of_pos (by simp [hp]), all]

theorem takeWhile_dropWhile {q : α → Bool} (cut : l.Pairwise fun a b => p b = true → p a = true)
    (cut' : l.Pairwise fun a b => q b = true → q a = true) :
    (l.dropWhile p).takeWhile q = l.filter fun a => !p a && q a := by
  rw [dropWhile_eq_filter cut, takeWhile_eq_filter (cut'.sublist filter_sublist), filter_filter]
  exact filter_congr fun a _ => Bool.and_comm ..

/-- A list is cut between what satisfies the predicate and what does not. -/
theorem takeWhile_append_eq {m : List α} (hl : ∀ a ∈ l, p a = true) (hm : ∀ a ∈ m, p a = false) :
    (l ++ m).takeWhile p = l := by
  rw [takeWhile_append_of_pos hl]
  cases m with
  | nil => simp
  | cons b m => simp [hm b mem_cons_self]

theorem dropWhile_append_eq {m : List α} (hl : ∀ a ∈ l, p a = true) (hm : ∀ a ∈ m, p a = false) :
    (l ++ m).dropWhile p = m := by
  rw [dropWhile_append_of_pos hl]
  cases m with
  | nil => rfl
  | cons b m => simp [hm b mem_cons_self]

/-- A list can be put in the order of a rank so that what already is in that order stays as it is. -/
theorem exists_stable_sort (rank : α → Nat) (l : List α) :
    ∃ order : List α, order.Perm l ∧ (order.Pairwise fun a b => rank a ≤ rank b) ∧
      ∀ p : α → Bool, ((l.filter p).Pairwise fun a b => rank a ≤ rank b) → order.filter p = l.filter p := by
  have trans : ∀ a b c : α, decide (rank a ≤ rank b) = true → decide (rank b ≤ rank c) = true →
      decide (rank a ≤ rank c) = true := fun a b c hab hbc =>
    decide_eq_true (Nat.le_trans (of_decide_eq_true hab) (of_decide_eq_true hbc))
  have total : ∀ a b : α, (decide (rank a ≤ rank b) || decide (rank b ≤ rank a)) = true := fun a b => by
    simpa using Nat.le_total (rank a) (rank b)
  have perm := l.mergeSort_perm fun a b => decide (rank a ≤ rank b)
  refine ⟨_, perm, ?_, fun p sorted => ?_⟩
  · simpa using pairwise_mergeSort trans total l
  · have sub := sublist_mergeSort trans total (by simpa using sorted) (filter_sublist)
    have sub := sub.filter p
    rw [filter_filter] at sub
    simp only [Bool.and_self] at sub
    exact (sub.eq_of_length (perm.filter p).length_eq.symm).symm

/-- `std::sort` with a comparator: it does not say how elements are ordered of which none is less than the other. -/
structure StdSort (less : α → α → Bool) where
  run : List α → List α
  perm : ∀ l, (run l).Perm l
  sorted : ∀ l, (run l).Pairwise fun a b => less b a = false

section Upsert

variable {κ : Type} [LinearOrder κ]

/-- Merges into the element that has the key of `e`, or adds `e` at its place in the order. -/
def upsert (key : α → κ) (e : α) (merge : α → α) : List α → List α
  | [] => [e]
  | i :: l =>
    if key e < key i then e :: i :: l
    else if key e = key i then merge i :: l
    else i :: upsert key e merge l

/-- Keys come in strictly increasing order. -/
def Sorted (key : α → κ) (l : List α) : Prop :=
  l.Pairwise fun a b => key a < key b

variable {key : α → κ} {e : α} {merge : α → α} {l : List α}

theorem forall_mem_upsert {Q : α → Prop} (he : Q e) (hl : ∀ a ∈ l, Q a)
    (keeps : ∀ a, key e = key a → Q a → Q (merge a)) : ∀ a ∈ upsert key e merge l, Q a := by
  induction l with
  | nil => simpa [upsert] using he
  | cons i l ih =>
    obtain ⟨hi, hl⟩ := forall_mem_cons.1 hl
    unfold upsert
    split
    · simpa [he, hi] using hl
    · split
      next heq =>
        simpa [keeps i heq hi] using hl
      · simpa [hi] using ih hl

theorem Sorted.upsert (h : Sorted key l) (keeps : ∀ a, key (merge a) = key a) : Sorted key (upsert key e merge l) := by
  induction l with
  | nil => simp [Lib.upsert, Sorted]
  | cons i l ih =>
    obtain ⟨first, h⟩ := pairwise_cons.1 h
    unfold Lib.upsert
    split
    next lt =>
      exact pairwise_cons.2 ⟨by simpa [lt] using fun a ha => lt.trans (first a ha), pairwise_cons.2 ⟨first, h⟩⟩
    · split
      · exact pairwise_cons.2 ⟨by simpa [keeps] using first, h⟩
      next hge hne =>
        have lt : key i < key e := lt_of_le_of_ne (not_lt.1 hge) (Ne.symm hne)
        exact pairwise_cons.2 ⟨forall_mem_upsert lt first fun a _ ha => by rwa [keeps a], ih h⟩

theorem upsert_of_lt (h : ∀ a ∈ l, key a < key e) : upsert key e merge l = l ++ [e] := by
  induction l with
  | nil => rfl
  | cons i l ih =>
    obtain ⟨hi, hl⟩ := forall_mem_cons.1 h
    rw [upsert, if_neg hi.not_gt, if_neg hi.ne', ih hl, cons_append]

theorem find?_upsert (h : Sorted key l) (keeps : ∀ a, key (merge a) = key a) (k : κ) :
    (upsert key e merge l).find? (fun a => decide (key a = k)) =
      if k = key e then some ((l.find? fun a => decide (key a = k)).elim e merge)
      else l.find? fun a => decide (key a = k) := by
  induction l with
  | nil => by_cases hk : k = key e <;> simp [upsert, hk, Ne.symm]
  | cons i l ih =>
    obtain ⟨first, h⟩ := pairwise_cons.1 h
    unfold upsert
    split
    next lt =>
      by_cases hk : k = key e
      · have none : (i :: l).find? (fun a => decide (key a = k)) = none := by
          refine find?_eq_none.2 (forall_mem_cons.2 ⟨?_, fun a ha => ?_⟩)
          · simpa [hk] using lt.ne'
          · simpa [hk] using (lt.trans (first a ha)).ne'
        rw [none, if_pos hk, find?_cons_of_pos (by simp [hk])]
        rfl
      · rw [if_neg hk, find?_cons_of_neg (by simpa using fun he => hk he.symm)]
    · split
      next heq =>
        by_cases hk : k = key e
        · rw [if_pos hk, find?_cons_of_pos (by simp [hk, keeps, heq]), find?_cons_of_pos (by simp [hk, heq])]
          rfl
        · have hi : key i ≠ k := fun hi => hk (hi.symm.trans heq.symm)
          rw [if_neg hk, find?_cons_of_neg (by simpa [keeps] using hi), find?_cons_of_neg (by simpa using hi)]
      next hne =>
        by_cases hi : key i = k
        · rw [find?_cons_of_pos (by simp [hi]), find?_cons_of_pos (by simp [hi]),
            if_neg fun hk => hne (hk.symm.trans hi.symm)]
        · rw [find?_cons_of_neg (by simp [hi]), find?_cons_of_neg (by simp [hi]), ih h]

variable {a : α}

/-- Where the key is there, one element is merged and nothing is added. -/
theorem upsert_of_mem (h : Sorted key l) (found : l.find? (fun a => decide (key a = key e)) = some a) :
    upsert key e merge l = l.map fun a => if key a = key e then merge a else a := by
  induction l with
  | nil => cases found
  | cons i l ih =>
    obtain ⟨first, h⟩ := pairwise_cons.1 h
    unfold upsert
    by_cases hi : key i = key e
    · have others : l.map (fun a => if key a = key e then merge a else a) = l :=
        map_congr_left (fun a ha => if_neg (hi ▸ (first a ha).ne')) |>.trans (map_id l)
      rw [if_neg (by simp [hi]), if_pos hi.symm, map_cons, if_pos hi, others]
    · rw [find?_cons_of_neg (by simp [hi])] at found
      have ha : key a = key e := by simpa using find?_some found
      have lt : key i < key e := ha ▸ first a (mem_of_find?_eq_some found)
      rw [if_neg lt.not_gt, if_neg (Ne.symm hi), map_cons, if_neg hi, ih h found]

theorem Sorted.nodup (h : Sorted key l) : (l.map key).Nodup :=
  pairwise_map.2 (h.imp fun lt => lt.ne)

/-- An element is the one that is found under its key. -/
theorem Sorted.mem_iff_find? (h : Sorted key l) : a ∈ l ↔ l.find? (fun b => decide (key b = key a)) = some a := by
  refine ⟨fun ha => ?_, mem_of_find?_eq_some⟩
  induction l with
  | nil => cases ha
  | cons i l ih =>
    obtain ⟨first, h⟩ := pairwise_cons.1 h
    rcases mem_cons.1 ha with rfl | ha
    · exact find?_cons_of_pos (by simp)
    · rw [find?_cons_of_neg (by simpa using (first a ha).ne), ih h ha]

variable {m : List α}

theorem Sorted.filter_eq (h : Sorted key l) (k : κ) :
    l.filter (fun a => decide (key a = k)) = (l.find? fun a => decide (key a = k)).toList := by
  induction l with
  | nil => rfl
  | cons a l ih =>
    obtain ⟨after, h⟩ := pairwise_cons.1 h
    by_cases here : key a = k
    · have none : l.filter (fun a => decide (key a = k)) = [] :=
        filter_eq_nil_iff.2 fun b hb => by simpa using (here ▸ after b hb).ne'
      rw [filter_cons_of_pos (by simpa using here), find?_cons_of_pos (by simpa using here), none]
      rfl
    · rw [filter_cons_of_neg (by simpa using here), find?_cons_of_neg (by simpa using here), ih h]

/-- Merging into an element that is left as it is changes nothing. -/
theorem upsert_eq_self (h : Sorted key l) (found : l.find? (fun a => decide (key a = key e)) = some a)
    (same : merge a = a) : upsert key e merge l = l := by
  rw [upsert_of_mem h found]
  refine (map_congr_left fun i hi => ?_).trans (map_id l)
  split
  next hk =>
    have := h.mem_iff_find?.1 hi
    rw [hk, found] at this
    cases this
    exact same
  · rfl

theorem Sorted.eq_of_mem (h : Sorted key l) (hm : Sorted key m) (same : ∀ a, a ∈ l ↔ a ∈ m) : l = m :=
  have perm : l.Perm m := (perm_ext_iff_of_nodup (.of_map key h.nodup) (.of_map key hm.nodup)).2 same
  perm.eq_of_pairwise (fun _ _ _ _ lt gt => absurd lt gt.not_gt) h hm

theorem Sorted.eq_of_find? (h : Sorted key l) (hm : Sorted key m)
    (same : ∀ k, l.find? (fun a => decide (key a = k)) = m.find? fun a => decide (key a = k)) : l = m :=
  h.eq_of_mem hm fun a => by rw [h.mem_iff_find?, hm.mem_iff_find?, same]

/-- A sorted list within another one that is not longer is that list. -/
theorem Sorted.eq_of_subset (h : Sorted key l) (hm : Sorted key m) (sub : l ⊆ m) (length : m.length ≤ l.length) :
    l = m :=
  have perm : l.Perm m := (List.Nodup.subperm (.of_map key h.nodup) sub).perm_of_length_le length
  perm.eq_of_pairwise (fun _ _ _ _ lt gt => absurd lt gt.not_gt) h hm

/-- Elements in order build a list with just them. -/
theorem foldl_upsert_of_sorted (h : Sorted key (l ++ m)) (merge : α → α → α) :
    m.foldl (fun l e => upsert key e (merge e) l) l = l ++ m := by
  induction m generalizing l with
  | nil => simp
  | cons e m ih =>
    have last : ∀ a ∈ l, key a < key e := fun a ha => (pairwise_append.1 h).2.2 a ha e mem_cons_self
    rw [foldl_cons, upsert_of_lt last, ih (by simpa using h), append_assoc, singleton_append]

theorem find?_foldl_upsert (h : Sorted key l) (hm : Sorted key m) {merge : α → α → α}
    (keeps : ∀ e a, key (merge e a) = key a) (k : κ) :
    (m.foldl (fun l e => upsert key e (merge e) l) l).find? (fun a => decide (key a = k)) =
      Option.merge (fun a e => merge e a) (l.find? fun a => decide (key a = k)) (m.find? fun a => decide (key a = k)) := by
  induction m generalizing l with
  | nil => simp
  | cons e m ih =>
    obtain ⟨first, hm⟩ := pairwise_cons.1 hm
    rw [foldl_cons, ih (h.upsert (keeps e)) hm, find?_upsert h (keeps e)]
    by_cases hk : k = key e
    · have none : m.find? (fun a => decide (key a = k)) = none := by
        simpa [find?_eq_none, hk] using fun a ha => (first a ha).ne'
      rw [none, if_pos hk, find?_cons_of_pos (by simp [hk])]
      cases l.find? fun a => decide (key a = k) <;> rfl
    · rw [if_neg hk, find?_cons_of_neg (by simpa using Ne.symm hk)]

end Upsert

end ScyllaMoon.Lib
