import Mathlib

/-!
# Walking around a list

A list is read as a cycle. `walk l i k` starts at index `i` and goes on `k` times, from the end back to the
beginning; a walk as long as the list comes back to where it started. `clockwise p l` starts at the first
element that does not satisfy `p`. If the list is sorted, every value has a `successor` on it, and the `arcs`
between neighbours divide the values by their successors. On the way around from `x` every value has its
`position`.
-/

namespace ScyllaMoon.Lib

open List

variable {α β : Type}

def walk (l : List α) (i : Nat) : Nat → List α
  | 0 => l[i]?.toList
  | k + 1 => l[i]?.toList ++ walk l (if i + 1 = l.length then 0 else i + 1) k

/-- What does not satisfy `p` comes first, from the first such element on. -/
def clockwise (p : α → Bool) (l : List α) : List α := l.dropWhile p ++ l.takeWhile p

theorem walk_eq_take (l : List α) {i k : Nat} (short : i + k < l.length) : walk l i k = (l.drop i).take (k + 1) := by
  induction k generalizing i with
  | zero =>
    have lt : i < l.length := short
    rw [walk, getElem?_eq_getElem lt, drop_eq_getElem_cons lt]
    rfl
  | succ k ih =>
    have lt : i < l.length := by omega
    rw [walk, if_neg (by omega), ih (by omega), getElem?_eq_getElem lt, drop_eq_getElem_cons lt]
    rfl

theorem walk_eq_append (l : List α) {i k : Nat} (lt : i < l.length) (le : k ≤ l.length) (long : l.length ≤ i + k) :
    walk l i k = l.drop i ++ l.take (i + k + 1 - l.length) := by
  induction k generalizing i with
  | zero => omega
  | succ k ih =>
    rw [walk, getElem?_eq_getElem lt, drop_eq_getElem_cons lt]
    split
    next last =>
      rw [walk_eq_take l (by omega), last, drop_length, drop_zero, show i + (k + 1) + 1 - l.length = k + 1 by omega]
      rfl
    · rw [ih (by omega) (by omega) (by omega), show i + 1 + k = i + (k + 1) by omega]
      rfl

variable {l : List α}

/-- A walk around the whole list from where a search ends. -/
theorem walk_length (p : α → Bool) (some : l ≠ []) :
    walk l (if (l.takeWhile p).length = l.length then 0 else (l.takeWhile p).length) l.length =
      clockwise p l ++ (clockwise p l).take 1 := by
  have split : l.takeWhile p ++ l.dropWhile p = l := takeWhile_append_dropWhile
  have around : ∀ {a b : List α}, a ++ b = l → b ≠ [] → walk l a.length l.length = b ++ a ++ (b ++ a).take 1 := by
    rintro a b rfl rest
    have lt : a.length < (a ++ b).length := by
      rw [length_append]
      exact Nat.lt_add_of_pos_right (length_pos_iff.2 rest)
    rw [walk_eq_append _ lt (Nat.le_refl _) (Nat.le_add_left _ _), show a.length + (a ++ b).length + 1 - (a ++ b).length =
      a.length + 1 by omega, drop_left, take_append, append_assoc]
    cases b with
    | nil => exact absurd rfl rest
    | cons x b => simp [take_of_length_le]
  by_cases all : l.dropWhile p = []
  · have whole : l.takeWhile p = l := by rw [all, append_nil] at split; exact split
    rw [clockwise, all, whole, if_pos rfl, nil_append]
    have := around (a := []) rfl some
    simpa using this
  · have short : (l.takeWhile p).length ≠ l.length := by
      have len := congrArg length split
      rw [length_append] at len
      have := length_pos_iff.2 all
      omega
    rw [if_neg short]
    exact around split all

variable {p : α → Bool}

theorem mem_clockwise {a : α} : a ∈ clockwise p l ↔ a ∈ l := by
  rw [clockwise, mem_append, or_comm, ← mem_append, takeWhile_append_dropWhile]

theorem clockwise_ne_nil (some : l ≠ []) : clockwise p l ≠ [] := fun none => by
  obtain ⟨a, ha⟩ := exists_mem_of_ne_nil l some
  have mem : a ∈ clockwise p l := mem_clockwise.2 ha
  rw [none] at mem
  cases mem

theorem clockwise_map (f : α → β) (p : β → Bool) (l : List α) :
    clockwise p (l.map f) = (clockwise (fun a => p (f a)) l).map f := by
  rw [clockwise, clockwise, map_append, dropWhile_map, takeWhile_map]
  rfl

section Sorted

variable [LinearOrder α] {l : List α} {x y : α}

/-- The cycle from the first element on that is not below `x`. -/
def cycleFrom (l : List α) (x : α) : List α := clockwise (fun a => decide (a < x)) l

/-- The first element not below `x`, or the first of all. -/
def successor (l : List α) (x : α) : Option α := (cycleFrom l x).head?

/-- The neighbours on the list, where `prev` comes before the first. -/
def arcs (prev : α) : List α → List (α × α)
  | [] => []
  | a :: l => (prev, a) :: arcs a l

/-- The value is on the arc that ends with the second element. -/
def InArc (p : α × α) (x : α) : Prop := if p.1 < p.2 then p.1 < x ∧ x ≤ p.2 else x ≤ p.2 ∨ p.1 < x

omit [LinearOrder α] in
theorem map_snd_arcs (prev : α) (l : List α) : (arcs prev l).map Prod.snd = l := by
  induction l generalizing prev with
  | nil => rfl
  | cons a l ih => rw [arcs, map_cons, ih]

theorem le_of_dropWhile {z : α} {tail : List α} (rest : l.dropWhile (fun a => decide (a < x)) = z :: tail) : x ≤ z := by
  have := head_dropWhile_not (fun a => decide (a < x)) (l := l) (by simp [rest])
  simpa [rest] using this

theorem takeWhile_below : l.takeWhile (fun a => decide (a < x)) ++ l.dropWhile (fun a => decide (a < x)) = l ∧
    ∀ z ∈ l.takeWhile (fun a => decide (a < x)), z < x :=
  ⟨takeWhile_append_dropWhile, fun z hz => by simpa using mem_takeWhile_imp hz⟩

theorem successor_eq_some_iff (sorted : l.Pairwise (· < ·)) : successor l x = some y ↔ y ∈ l ∧
    (x ≤ y ∧ (∀ z ∈ l, x ≤ z → y ≤ z) ∨ (∀ z ∈ l, z < x) ∧ ∀ z ∈ l, y ≤ z) := by
  obtain ⟨split, below⟩ := @takeWhile_below α _ l x
  unfold successor cycleFrom clockwise
  cases rest : l.dropWhile (fun a => decide (a < x)) with
  | nil =>
    rw [rest, append_nil] at split
    rw [split] at below
    rw [nil_append, split]
    cases l with
    | nil => simp
    | cons a l =>
      have first : ∀ z ∈ a :: l, a ≤ z := forall_mem_cons.2 ⟨le_rfl, fun z hz => (rel_of_pairwise_cons sorted hz).le⟩
      rw [head?_cons, Option.some_inj]
      constructor
      · rintro rfl
        exact ⟨mem_cons_self, .inr ⟨below, first⟩⟩
      · rintro ⟨mem, ⟨le, -⟩ | ⟨-, least⟩⟩
        · exact absurd (below y mem) (not_lt.2 le)
        · exact (first y mem).antisymm (least a mem_cons_self)
  | cons z tail =>
    have here : x ≤ z := le_of_dropWhile rest
    rw [rest] at split
    have order : (l.takeWhile (fun a => decide (a < x)) ++ z :: tail).Pairwise (· < ·) := split.symm ▸ sorted
    have behind := (pairwise_cons.1 (pairwise_append.1 order).2.1).1
    have mem : ∀ {w}, w ∈ l ↔ w ∈ l.takeWhile (fun a => decide (a < x)) ∨ w = z ∨ w ∈ tail := by
      intro w
      conv_lhs => rw [← split]
      rw [mem_append, mem_cons]
    have least : ∀ w ∈ l, x ≤ w → z ≤ w := by
      intro w hw le
      rcases mem.1 hw with hw | rfl | hw
      · exact absurd (below w hw) (not_lt.2 le)
      · exact le_rfl
      · exact (behind w hw).le
    have hz : z ∈ l := mem.2 (.inr (.inl rfl))
    rw [cons_append, head?_cons, Option.some_inj]
    constructor
    · rintro rfl
      exact ⟨hz, .inl ⟨here, least⟩⟩
    · rintro ⟨hy, ⟨le, first⟩ | ⟨all, -⟩⟩
      · exact (least y hy le).antisymm (first z hz here)
      · exact absurd (all z hz) (not_lt.2 here)

theorem exists_successor (nonempty : l ≠ []) (x : α) : ∃ y, successor l x = some y := by
  unfold successor
  cases h : cycleFrom l x with
  | nil => exact absurd h (clockwise_ne_nil nonempty)
  | cons y rest => exact ⟨y, rfl⟩

theorem successor_of_mem (sorted : l.Pairwise (· < ·)) (mem : y ∈ l) : successor l y = some y :=
  (successor_eq_some_iff sorted).2 ⟨mem, .inl ⟨le_rfl, fun _ _ le => le⟩⟩

/-- The cycle from a value on is the one from its successor on. -/
theorem cycleFrom_successor (next : successor l x = some y) : cycleFrom l x = cycleFrom l y := by
  obtain ⟨split, below⟩ := @takeWhile_below α _ l x
  unfold successor cycleFrom clockwise at next
  unfold cycleFrom clockwise
  cases rest : l.dropWhile (fun a => decide (a < x)) with
  | nil =>
    rw [rest, append_nil] at split
    rw [rest, split, nil_append] at next
    obtain ⟨tail, rfl⟩ := head?_eq_some_iff.1 next
    rw [split]
    simp
  | cons z tail =>
    rw [rest, cons_append, head?_cons, Option.some_inj] at next
    subst next
    have before : ∀ a ∈ l.takeWhile (fun a => decide (a < x)), decide (a < z) = true := fun a ha =>
      decide_eq_true ((below a ha).trans_le (le_of_dropWhile rest))
    generalize l.takeWhile (fun a => decide (a < x)) = front at split before
    rw [rest] at split
    rw [← split, takeWhile_append_of_pos before, dropWhile_append_of_pos before]
    simp

variable {p : α × α}

theorem mem_arcs (sorted : l.Pairwise (· < ·)) {prev : α} (before : ∀ a ∈ l, prev < a) (mem : p ∈ arcs prev l) :
    p.1 < p.2 ∧ (p.1 = prev ∨ p.1 ∈ l) ∧ p.2 ∈ l ∧ ∀ z ∈ l, z ≤ p.1 ∨ p.2 ≤ z := by
  induction l generalizing prev with
  | nil => cases mem
  | cons a l ih =>
    obtain ⟨first, sorted⟩ := pairwise_cons.1 sorted
    rcases mem_cons.1 mem with rfl | mem
    · exact ⟨before a mem_cons_self, .inl rfl, mem_cons_self,
        forall_mem_cons.2 ⟨.inr le_rfl, fun z hz => .inr (first z hz).le⟩⟩
    · obtain ⟨lt, from', target, apart⟩ := ih sorted first mem
      refine ⟨lt, .inr ?_, mem_cons_of_mem _ target, forall_mem_cons.2 ⟨.inl ?_, apart⟩⟩
      · rcases from' with eq | mem'
        · exact eq ▸ mem_cons_self
        · exact mem_cons_of_mem _ mem'
      · rcases from' with eq | mem'
        · exact eq.ge
        · exact (first _ mem').le

theorem fst_of_mem_arcs (sorted : l.Pairwise (· < ·)) {prev : α} (mem : p ∈ arcs prev l) :
    p.1 = (l.takeWhile fun a => decide (a < p.2)).getLastD prev := by
  induction l generalizing prev with
  | nil => cases mem
  | cons a l ih =>
    obtain ⟨first, sorted⟩ := pairwise_cons.1 sorted
    rcases mem_cons.1 mem with rfl | mem
    · rw [takeWhile_cons_of_neg (by simp)]
      rfl
    · have next : p.2 ∈ l := by
        rw [← map_snd_arcs a l]
        exact mem_map_of_mem mem
      rw [takeWhile_cons_of_pos (by simpa using first _ next), getLastD_cons]
      exact ih sorted mem

/-- The arcs divide the values by their successors. -/
theorem inArc_iff (sorted : l.Pairwise (· < ·)) {back : α} (last : l.getLast? = some back) (mem : p ∈ arcs back l) :
    InArc p x ↔ successor l x = some p.2 := by
  cases l with
  | nil => cases mem
  | cons f l =>
    have hback : back ∈ f :: l := mem_of_getLast? last
    obtain ⟨first, sorted'⟩ := pairwise_cons.1 sorted
    have least : ∀ z ∈ f :: l, f ≤ z := forall_mem_cons.2 ⟨le_rfl, fun z hz => (first z hz).le⟩
    have greatest : ∀ z ∈ f :: l, z ≤ back := by
      intro z hz
      obtain ⟨front, eq⟩ := getLast?_eq_some_iff.1 last
      rw [eq] at sorted hz
      rcases mem_append.1 hz with hz | hz
      · exact ((pairwise_append.1 sorted).2.2 z hz back (mem_singleton.2 rfl)).le
      · exact (mem_singleton.1 hz).le
    rw [successor_eq_some_iff sorted]
    rcases mem_cons.1 mem with rfl | mem
    · rw [InArc, if_neg (not_lt.2 (least back hback))]
      refine ⟨fun h => ⟨mem_cons_self, ?_⟩, fun h => ?_⟩
      · rcases h with le | lt
        · exact .inl ⟨le, fun z hz _ => least z hz⟩
        · exact .inr ⟨fun z hz => (greatest z hz).trans_lt lt, least⟩
      · rcases h.2 with ⟨le, -⟩ | ⟨all, -⟩
        · exact .inl le
        · exact .inr (all back hback)
    · obtain ⟨lt, from', target, apart⟩ := mem_arcs sorted' first mem
      have start : p.1 ∈ f :: l := from'.elim (fun eq => eq ▸ mem_cons_self) (mem_cons_of_mem _)
      have apart' : ∀ z ∈ f :: l, z ≤ p.1 ∨ p.2 ≤ z := forall_mem_cons.2 ⟨.inl (least _ start), apart⟩
      rw [InArc, if_pos lt]
      refine ⟨fun h => ⟨mem_cons_of_mem _ target, .inl ⟨h.2, fun z hz le => ?_⟩⟩, fun h => ?_⟩
      · exact (apart' z hz).resolve_left fun le' => absurd (h.1.trans_le le) (not_lt.2 le')
      · rcases h.2 with ⟨le, next⟩ | ⟨-, all⟩
        · exact ⟨lt_of_not_ge fun ge => absurd lt (not_lt.2 (next p.1 start ge)), le⟩
        · exact absurd lt (not_lt.2 (all p.1 start))

/-- Where a value comes on the way around from `x`. -/
def position (x a : α) : Bool ×ₗ α := toLex (decide (a < x), a)

theorem position_injective (x : α) : Function.Injective (position x) := fun _ _ eq =>
  congrArg (fun p => (ofLex p).2) eq

theorem position_lt_iff {a b : α} : position x a < position x b ↔ x ≤ a ∧ b < x ∨ (a < x ↔ b < x) ∧ a < b := by
  unfold position
  rw [Prod.Lex.toLex_lt_toLex]
  by_cases ha : a < x
  · by_cases hb : b < x <;> simp [ha, hb]
  · by_cases hb : b < x <;> simp [ha, hb, not_lt.1 ha]

theorem position_le_iff {a b : α} : position x a ≤ position x b ↔ x ≤ a ∧ b < x ∨ (a < x ↔ b < x) ∧ a ≤ b := by
  rw [le_iff_lt_or_eq, position_lt_iff, (position_injective x).eq_iff]
  constructor
  · rintro ((far | ⟨same, lt⟩) | rfl)
    · exact .inl far
    · exact .inr ⟨same, lt.le⟩
    · exact .inr ⟨.rfl, le_rfl⟩
  · rintro (far | ⟨same, le⟩)
    · exact .inl (.inl far)
    · exact le.lt_or_eq.imp (fun lt => .inr ⟨same, lt⟩) id

/-- What is met from `a` before `c` is met from `x` before `c`, if `a` is. -/
theorem position_trans {a b c : α} (first : position x a ≤ position x c) (second : position a b ≤ position a c) :
    position x b ≤ position x c := by
  rw [position_le_iff] at first second ⊢
  by_cases hc : c < x
  · by_cases hb : b < x
    · refine .inr ⟨iff_of_true hb hc, ?_⟩
      rcases second with ⟨ab, ca⟩ | ⟨-, bc⟩
      · rcases first with ⟨xa, -⟩ | ⟨-, ac⟩
        · exact absurd (xa.trans ab) (not_le.2 hb)
        · exact absurd ca (not_lt.2 ac)
      · exact bc
    · exact .inl ⟨not_lt.1 hb, hc⟩
  · rcases first with ⟨-, cx⟩ | ⟨same, ac⟩
    · exact absurd cx hc
    · have ha : x ≤ a := not_lt.1 fun lt => hc (same.1 lt)
      rcases second with ⟨-, ca⟩ | ⟨same', bc⟩
      · exact absurd ca (not_lt.2 ac)
      · have hb : a ≤ b := not_lt.1 fun lt => absurd (same'.1 lt) (not_lt.2 ac)
        exact .inr ⟨iff_of_false (not_lt.2 (ha.trans hb)) hc, bc⟩

/-- The way around meets the elements of a sorted list in the order of their positions. -/
theorem pairwise_clockwise (f : β → α) {l : List β} (sorted : l.Pairwise fun p q => f p < f q) (x : α) :
    (clockwise (fun p => decide (f p < x)) l).Pairwise fun p q => position x (f p) < position x (f q) := by
  have below : ∀ p ∈ l.takeWhile (fun p => decide (f p < x)), f p < x := fun p hp => by
    simpa using mem_takeWhile_imp hp
  have above : ∀ p ∈ l.dropWhile (fun p => decide (f p < x)), x ≤ f p := by
    cases rest : l.dropWhile (fun p => decide (f p < x)) with
    | nil => exact nofun
    | cons q tail =>
      have here := head_dropWhile_not (fun p => decide (f p < x)) (l := l) (by simp [rest])
      have here : x ≤ f q := by simpa [rest] using here
      have order := sorted.sublist (dropWhile_sublist fun p => decide (f p < x))
      rw [rest] at order
      exact forall_mem_cons.2 ⟨here, fun p hp => here.trans (rel_of_pairwise_cons order hp).le⟩
  refine pairwise_append.2 ⟨?_, ?_, fun p hp q hq => position_lt_iff.2 (.inl ⟨above p hp, below q hq⟩)⟩
  · refine (sorted.sublist (dropWhile_sublist _)).imp_of_mem fun hp hq lt => position_lt_iff.2 (.inr ⟨?_, lt⟩)
    exact iff_of_false (not_lt.2 (above _ hp)) (not_lt.2 (above _ hq))
  · refine (sorted.sublist (takeWhile_sublist _)).imp_of_mem fun hp hq lt => position_lt_iff.2 (.inr ⟨?_, lt⟩)
    exact iff_of_true (below _ hp) (below _ hq)

/-- The successor is the element that is met first. -/
theorem successor_eq_some_iff_position (sorted : l.Pairwise (· < ·)) :
    successor l x = some y ↔ y ∈ l ∧ ∀ z ∈ l, position x y ≤ position x z := by
  rw [successor_eq_some_iff sorted]
  refine and_congr_right fun hy => ⟨?_, fun first => ?_⟩
  · rintro (⟨le, least⟩ | ⟨below, least⟩) z hz
    · rw [position_le_iff]
      by_cases lt : z < x
      · exact .inl ⟨le, lt⟩
      · exact .inr ⟨iff_of_false (not_lt.2 le) lt, least z hz (not_lt.1 lt)⟩
    · exact position_le_iff.2 (.inr ⟨iff_of_true (below y hy) (below z hz), least z hz⟩)
  · by_cases lt : y < x
    · have same : ∀ z ∈ l, z < x ∧ y ≤ z := fun z hz => by
        rcases position_le_iff.1 (first z hz) with ⟨le, -⟩ | ⟨same, le⟩
        · exact absurd lt (not_lt.2 le)
        · exact ⟨same.1 lt, le⟩
      exact .inr ⟨fun z hz => (same z hz).1, fun z hz => (same z hz).2⟩
    · refine .inl ⟨not_lt.1 lt, fun z hz le => ?_⟩
      rcases position_le_iff.1 (first z hz) with ⟨-, zx⟩ | ⟨-, le'⟩
      · exact absurd zx (not_lt.2 le)
      · exact le'

end Sorted

/-- In a list in order, the elements before the first that fails are those that come before all that fail. -/
theorem mem_takeWhile_iff {r : α → α → Prop} {a : α} (asymm : ∀ a b, r a b → ¬ r b a)
    (order : l.Pairwise r) : a ∈ l.takeWhile p ↔ a ∈ l ∧ ∀ b ∈ l, p b = false → r a b := by
  induction l with
  | nil => simp
  | cons c l ih =>
    obtain ⟨first, order⟩ := pairwise_cons.1 order
    cases h : p c with
    | true =>
      rw [takeWhile_cons_of_pos h, mem_cons, ih order]
      constructor
      · rintro (rfl | ⟨mem, before⟩)
        · exact ⟨mem_cons_self, forall_mem_cons.2
            ⟨fun fails => absurd (h.symm.trans fails) Bool.noConfusion, fun b hb _ => first b hb⟩⟩
        · exact ⟨mem_cons_of_mem _ mem, forall_mem_cons.2
            ⟨fun fails => absurd (h.symm.trans fails) Bool.noConfusion, before⟩⟩
      · rintro ⟨mem, before⟩
        exact (mem_cons.1 mem).imp id fun mem => ⟨mem, fun b hb => before b (mem_cons_of_mem _ hb)⟩
    | false =>
      rw [takeWhile_cons_of_neg (by simp [h])]
      refine iff_of_false not_mem_nil fun ⟨mem, before⟩ => ?_
      have front := before c mem_cons_self h
      rcases mem_cons.1 mem with rfl | mem
      · exact asymm a a front front
      · exact asymm _ _ front (first a mem)

end ScyllaMoon.Lib
