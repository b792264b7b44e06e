import ScyllaMoon.Lib.Sorted

/-!
# Combining sorted sequences

`combine` walks over two sorted sequences at once and gives a sorted one: elements whose key is in only
one of them are copied, and two elements with one key are merged. What is found under a key afterwards
is the merge of what was found under it in the two. `alongside` goes over one sorted sequence and looks
each of its keys up in another by walking on in that one.
-/

namespace ScyllaMoon.Lib

open List

variable {α κ : Type} [LinearOrder κ] (key : α → κ) (merge : α → α → α)

/-- The loop of `combine` while the first sequence stands at `a`; `rest` goes on behind `a`. -/
def combineAt (a : α) (rest : List α → List α) : List α → List α
  | [] => a :: rest []
  | b :: m =>
    if key a < key b then a :: rest (b :: m)
    else if key b < key a then b :: combineAt a rest m
    else merge a b :: rest m

/-- Combines two sequences that are sorted by `key`. -/
def combine : List α → List α → List α
  | [], m => m
  | a :: l, m => combineAt key merge a (combine l) m

variable {key merge} {l m : List α}

@[simp] theorem combine_nil_right : combine key merge l [] = l := by
  induction l with
  | nil => rfl
  | cons a l ih => simp [combine, combineAt, ih]

theorem combine_cons_cons (a b : α) : combine key merge (a :: l) (b :: m) =
    if key a < key b then a :: combine key merge l (b :: m)
    else if key b < key a then b :: combine key merge (a :: l) m
    else merge a b :: combine key merge l m := rfl

/-- Every element is one of the two sequences' own, or the merge of two with one key. -/
theorem forall_mem_combine {p : α → Prop} (hl : ∀ a ∈ l, p a) (hm : ∀ b ∈ m, p b)
    (both : ∀ a ∈ l, ∀ b ∈ m, key a = key b → p (merge a b)) : ∀ c ∈ combine key merge l m, p c := by
  induction l generalizing m with
  | nil => exact hm
  | cons a l ihl =>
    obtain ⟨ha, hl⟩ := forall_mem_cons.1 hl
    induction m with
    | nil =>
      rw [combine_nil_right]
      exact forall_mem_cons.2 ⟨ha, hl⟩
    | cons b m ihm =>
      obtain ⟨hb, hm'⟩ := forall_mem_cons.1 hm
      rw [combine_cons_cons]
      split
      · exact forall_mem_cons.2 ⟨ha, ihl hl hm fun c hc => both c (mem_cons_of_mem _ hc)⟩
      · split
        · exact forall_mem_cons.2 ⟨hb, ihm hm' fun c hc d hd => both c hc d (mem_cons_of_mem _ hd)⟩
        next ab ba =>
          have same : key a = key b := le_antisymm (not_lt.1 ba) (not_lt.1 ab)
          exact forall_mem_cons.2 ⟨both a mem_cons_self b mem_cons_self same,
            ihl hl hm' fun c hc d hd => both c (mem_cons_of_mem _ hc) d (mem_cons_of_mem _ hd)⟩

theorem Sorted.combine (hl : Sorted key l) (hm : Sorted key m) (keeps : ∀ a b, key a = key b → key (merge a b) = key a) :
    Sorted key (combine key merge l m) := by
  induction l generalizing m with
  | nil => exact hm
  | cons a l ihl =>
    obtain ⟨firstl, hl'⟩ := pairwise_cons.1 hl
    induction m with
    | nil => rwa [combine_nil_right]
    | cons b m ihm =>
      obtain ⟨firstm, hm'⟩ := pairwise_cons.1 hm
      rw [combine_cons_cons]
      split
      next lt =>
        refine pairwise_cons.2 ⟨forall_mem_combine firstl ?_ fun c hc d _ same => ?_, ihl hl' hm⟩
        · exact forall_mem_cons.2 ⟨lt, fun c hc => lt.trans (firstm c hc)⟩
        · rw [keeps c d same]
          exact firstl c hc
      · split
        next gt =>
          refine pairwise_cons.2 ⟨forall_mem_combine ?_ firstm fun c hc d hd same => ?_, ihm hm'⟩
          · exact forall_mem_cons.2 ⟨gt, fun c hc => gt.trans (firstl c hc)⟩
          · rw [keeps c d same, same]
            exact firstm d hd
        next ab ba =>
          have same : key a = key b := le_antisymm (not_lt.1 ba) (not_lt.1 ab)
          rw [← same] at firstm
          refine pairwise_cons.2 ⟨?_, ihl hl' hm'⟩
          rw [keeps a b same]
          refine forall_mem_combine firstl firstm fun c hc d _ cd => ?_
          rw [keeps c d cd]
          exact firstl c hc

theorem find?_eq_none_of_lt {k : κ} (h : ∀ a ∈ l, k < key a) : l.find? (fun a => decide (key a = k)) = none := by
  simpa [find?_eq_none] using fun a ha => (h a ha).ne'

/-- A filter leaves under a key what was there, or nothing. -/
theorem Sorted.find?_filter (h : Sorted key l) (p : α → Bool) (k : κ) :
    (l.filter p).find? (fun a => decide (key a = k)) = (l.find? fun a => decide (key a = k)).filter p := by
  induction l with
  | nil => rfl
  | cons a l ih =>
    obtain ⟨first, h⟩ := pairwise_cons.1 h
    by_cases hk : key a = k
    · rw [find?_cons_of_pos (by simpa using hk)]
      cases hp : p a with
      | true => simp [hk, hp, Option.filter]
      | false =>
        have none : (l.filter p).find? (fun a => decide (key a = k)) = none :=
          find?_eq_none_of_lt fun b hb => hk ▸ first b (mem_of_mem_filter hb)
        simp [hp, none, Option.filter]
    · rw [find?_cons_of_neg (by simpa using hk), ← ih h]
      cases hp : p a with
      | true => rw [filter_cons_of_pos hp, find?_cons_of_neg (by simpa using hk)]
      | false => rw [filter_cons_of_neg (by simp [hp])]

theorem find?_combine (hl : Sorted key l) (hm : Sorted key m) (keeps : ∀ a b, key a = key b → key (merge a b) = key a)
    (k : κ) : (combine key merge l m).find? (fun a => decide (key a = k)) =
      Option.merge merge (l.find? fun a => decide (key a = k)) (m.find? fun a => decide (key a = k)) := by
  induction l generalizing m with
  | nil => simp [combine]
  | cons a l ihl =>
    obtain ⟨firstl, hl'⟩ := pairwise_cons.1 hl
    induction m with
    | nil => simp
    | cons b m ihm =>
      obtain ⟨firstm, hm'⟩ := pairwise_cons.1 hm
      rw [combine_cons_cons]
      split
      next lt =>
        by_cases hk : key a = k
        · have none : (b :: m).find? (fun a => decide (key a = k)) = none := by
            refine find?_eq_none_of_lt (forall_mem_cons.2 ⟨hk ▸ lt, fun c hc => ?_⟩)
            exact hk ▸ lt.trans (firstm c hc)
          rw [none, find?_cons_of_pos (by simp [hk]), find?_cons_of_pos (by simp [hk])]
          rfl
        · rw [find?_cons_of_neg (by simp [hk]), find?_cons_of_neg (by simp [hk]), ihl hl' hm]
      · split
        next gt =>
          by_cases hk : key b = k
          · have none : (a :: l).find? (fun a => decide (key a = k)) = none := by
              refine find?_eq_none_of_lt (forall_mem_cons.2 ⟨hk ▸ gt, fun c hc => ?_⟩)
              exact hk ▸ gt.trans (firstl c hc)
            rw [none, find?_cons_of_pos (by simp [hk]), find?_cons_of_pos (by simp [hk])]
            rfl
          · rw [find?_cons_of_neg (by simp [hk]), ihm hm', find?_cons_of_neg (l := m) (by simp [hk])]
        next ab ba =>
          have same : key a = key b := le_antisymm (not_lt.1 ba) (not_lt.1 ab)
          by_cases hk : key a = k
          · rw [find?_cons_of_pos (by simp [keeps a b same, hk]), find?_cons_of_pos (by simp [hk]),
              find?_cons_of_pos (by simp [← same, hk])]
            rfl
          · rw [find?_cons_of_neg (by simp [keeps a b same, hk]), find?_cons_of_neg (by simp [hk]),
              find?_cons_of_neg (by simp [← same, hk]), ihl hl' hm']

/-- If each merge keeps one of the two, a list that two others leave unchanged is left so by both of them combined. -/
theorem combine_absorbs {n : List α} (hl : Sorted key l) (hm : Sorted key m) (hn : Sorted key n)
    (keeps : ∀ a b, key a = key b → key (merge a b) = key a) (choice : ∀ a b, merge a b = a ∨ merge a b = b)
    (h : combine key merge l m = l) (h' : combine key merge l n = l) :
    combine key merge l (combine key merge m n) = l := by
  have sorted := hm.combine hn keeps
  refine (hl.combine sorted keeps).eq_of_find? hl fun k => ?_
  rw [find?_combine hl sorted keeps, find?_combine hm hn keeps]
  rcases Option.merge_eq_or_eq choice (m.find? fun a => decide (key a = k)) (n.find? fun a => decide (key a = k))
    with e | e <;> rw [e]
  · rw [← find?_combine hl hm keeps, h]
  · rw [← find?_combine hl hn keeps, h']
section Alongside

variable {α β γ κ : Type} [LinearOrder κ] (keyOf : α → κ) (key : β → κ) (f : α → Option β → Option γ)

/-- Goes over the first sequence, with an iterator in the second that is moved on to each key, and gathers
what `f` makes of an element and of the one with its key. -/
def alongside : List α → List β → List γ
  | [], _ => []
  | a :: l, m =>
    let it := m.dropWhile fun b => decide (key b < keyOf a)
    (f a (it.head?.filter fun b => decide (key b = keyOf a))).toList ++ alongside l it

variable {keyOf key f} {l : List α} {m : List β}

/-- Where a sorted sequence reaches a key it has the element with that key, or none of its elements has. -/
theorem Sorted.head?_dropWhile (h : Sorted key m) (k : κ) :
    (m.dropWhile fun b => decide (key b < k)).head?.filter (fun b => decide (key b = k)) =
      m.find? fun b => decide (key b = k) := by
  induction m with
  | nil => rfl
  | cons b m ih =>
    obtain ⟨first, h⟩ := pairwise_cons.1 h
    by_cases lt : key b < k
    · rw [dropWhile_cons_of_pos (by simpa using lt), ih h, find?_cons_of_neg (by simpa using lt.ne)]
    · rw [dropWhile_cons_of_neg (by simpa using lt)]
      by_cases hk : key b = k
      · simp [hk]
      · have gt : k < key b := lt_of_le_of_ne (not_lt.1 lt) (Ne.symm hk)
        rw [find?_cons_of_neg (by simpa using hk), find?_eq_none_of_lt fun c hc => gt.trans (first c hc)]
        simp [hk]

theorem find?_dropWhile_lt {k k' : κ} (lt : k < k') : (m.dropWhile fun b => decide (key b < k)).find?
    (fun b => decide (key b = k')) = m.find? fun b => decide (key b = k') := by
  induction m with
  | nil => rfl
  | cons b m ih =>
    by_cases hb : key b < k
    · rw [dropWhile_cons_of_pos (by simpa using hb), ih, find?_cons_of_neg (by simpa using (hb.trans lt).ne)]
    · rw [dropWhile_cons_of_neg (by simpa using hb)]

/-- In sorted sequences the walk finds what is under each key. -/
theorem alongside_eq (hl : Sorted keyOf l) (hm : Sorted key m) : alongside keyOf key f l m =
    l.filterMap fun a => f a (m.find? fun b => decide (key b = keyOf a)) := by
  induction l generalizing m with
  | nil => rfl
  | cons a l ih =>
    obtain ⟨first, hl⟩ := pairwise_cons.1 hl
    have rest : l.filterMap (fun c => f c ((m.dropWhile fun b => decide (key b < keyOf a)).find?
        fun b => decide (key b = keyOf c))) = l.filterMap fun c => f c (m.find? fun b => decide (key b = keyOf c)) :=
      filterMap_congr fun c hc => by rw [find?_dropWhile_lt (first c hc)]
    rw [alongside, ih hl (hm.sublist (dropWhile_sublist _)), rest, hm.head?_dropWhile, filterMap_cons]
    cases f a (m.find? fun b => decide (key b = keyOf a)) <;> rfl

section FilterMap

variable {keyOf : α → κ} {key : γ → κ} {l : List α} {g : α → Option γ} (keeps : ∀ a c, g a = some c → key c = keyOf a)

include keeps

theorem Sorted.filterMap (h : Sorted keyOf l) : Sorted key (l.filterMap g) := by
  refine List.Pairwise.filterMap g (fun a b lt c hc d hd => ?_) h
  rw [keeps a c hc, keeps b d hd]
  exact lt

/-- What is found under a key after each element was dropped or changed. -/
theorem Sorted.find?_filterMap (h : Sorted keyOf l) (k : κ) : (l.filterMap g).find? (fun c => decide (key c = k)) =
    (l.find? fun a => decide (keyOf a = k)).bind g := by
  induction l with
  | nil => rfl
  | cons a l ih =>
    obtain ⟨first, h⟩ := pairwise_cons.1 h
    by_cases hk : keyOf a = k
    · rw [find?_cons_of_pos (by simpa using hk), Option.bind_some]
      cases hg : g a with
      | none =>
        have none : l.find? (fun a => decide (keyOf a = k)) = none := find?_eq_none_of_lt (hk ▸ first)
        rw [filterMap_cons_none hg, ih h, none, Option.bind_none]
      | some c =>
        rw [filterMap_cons_some hg, find?_cons_of_pos (by simpa [keeps a c hg] using hk)]
    · rw [find?_cons_of_neg (by simpa using hk), ← ih h]
      cases hg : g a with
      | none => rw [filterMap_cons_none hg]
      | some c => rw [filterMap_cons_some hg, find?_cons_of_neg (by simpa [keeps a c hg] using hk)]

end FilterMap

/-- A walk that only decides what to keep. -/
theorem alongside_filter (hl : Sorted keyOf l) (hm : Sorted key m) (keep : α → Option β → Bool) :
    alongside keyOf key (fun a it => if keep a it then some a else none) l m =
      l.filter fun a => keep a (m.find? fun b => decide (key b = keyOf a)) := by
  rw [alongside_eq hl hm, ← filterMap_eq_filter]
  congr

end Alongside

end ScyllaMoon.Lib
