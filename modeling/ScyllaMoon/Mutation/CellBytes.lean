import ScyllaMoon.Lib.Bytes
import ScyllaMoon.Mutation.Convergence

/-!
# Reconciliation and the bytes of cells

A cell is stored with its timestamp, its value and, if it expires, both the time at which it does so and
the TTL it was written with. `compare_atomic_cell_for_merge` looks at all of that but for the TTL: two
expiring cells that differ in nothing else compare equal, and which of them is kept depends on the order
in which they are merged. Atomic columns keep the first of them, collections the last.
-/

namespace ScyllaMoon.Mutation

open Lib List

/-- The numbers of an `int64_t`. -/
def IsInt64 (n : Int) : Prop := -9223372036854775808 ≤ n ∧ n < 9223372036854775808

instance (n : Int) : Decidable (IsInt32 n) := inferInstanceAs (Decidable (_ ∧ _))

instance (n : Int) : Decidable (IsInt64 n) := inferInstanceAs (Decidable (_ ∧ _))

/-- The orders in which values are merged, starting with the first, do not show in the bytes. -/
def OrdersAgree {α : Type} (merge : α → α → α) (bytes : α → List UInt8) (l : List α) : Prop :=
  ∀ a as b bs, (a :: as).Perm l → (b :: bs).Perm l → bytes (as.foldl merge a) = bytes (bs.foldl merge b)

namespace AtomicCell

/-- `serialize()`, in the layout of `atomic_cell_type`: the flags, the timestamp, and the expiry and the TTL before the
value or the deletion time in its place -/
def serialize : AtomicCell → List UInt8
  | live t v => 1 :: (bigEndian 8 t ++ v)
  | expiring t v e ttl => 3 :: (bigEndian 8 t ++ (bigEndian 4 e ++ (bigEndian 4 ttl ++ v)))
  | dead t d => 0 :: (bigEndian 8 t ++ bigEndian 4 d)

/-- The numbers are those of `api::timestamp_type` and `gc_clock`. -/
def InRange : AtomicCell → Prop
  | live t _ => IsInt64 t
  | expiring t _ e ttl => IsInt64 t ∧ IsInt32 e ∧ IsInt32 ttl
  | dead t d => IsInt64 t ∧ IsInt32 d

instance : (c : AtomicCell) → Decidable c.InRange
  | live t _ => inferInstanceAs (Decidable (IsInt64 t))
  | expiring t _ e ttl => inferInstanceAs (Decidable (IsInt64 t ∧ IsInt32 e ∧ IsInt32 ttl))
  | dead t d => inferInstanceAs (Decidable (IsInt64 t ∧ IsInt32 d))

/-- Expiring cells that differ in the TTL and in nothing else. -/
def DifferInTtl : AtomicCell → AtomicCell → Prop
  | expiring t v e ttl, expiring t' v' e' ttl' => t = t' ∧ v = v' ∧ e = e' ∧ ttl ≠ ttl'
  | _, _ => False

instance : (l r : AtomicCell) → Decidable (l.DifferInTtl r)
  | expiring t v e ttl, expiring t' v' e' ttl' => inferInstanceAs (Decidable (t = t' ∧ v = v' ∧ e = e' ∧ ttl ≠ ttl'))
  | live .., _ | dead .., _ => inferInstanceAs (Decidable False)
  | expiring .., live .. | expiring .., dead .. => inferInstanceAs (Decidable False)

variable {c d l m r : AtomicCell}

theorem InRange.fits (h : c.InRange) : c.Fits := by
  cases c with
  | dead t d => exact h.2
  | _ => trivial

theorem serialize_inj (hl : l.InRange) (hr : r.InRange) (h : l.serialize = r.serialize) : l = r := by
  cases l with
  | live t v => cases r with
    | live u w =>
      obtain ⟨ts, value⟩ := append_inj (cons.inj h).2 (by simp)
      rw [bigEndian_eight_inj hl hr ts, value]
    | expiring | dead => exact absurd (cons.inj h).1 (by decide)
  | expiring t v e ttl => cases r with
    | live | dead => exact absurd (cons.inj h).1 (by decide)
    | expiring u w f ttl' =>
      obtain ⟨ts, rest⟩ := append_inj (cons.inj h).2 (by simp)
      obtain ⟨expiry, rest⟩ := append_inj rest (by simp)
      obtain ⟨ttls, value⟩ := append_inj rest (by simp)
      rw [bigEndian_eight_inj hl.1 hr.1 ts, bigEndian_four_inj hl.2.1 hr.2.1 expiry,
        bigEndian_four_inj hl.2.2 hr.2.2 ttls, value]
  | dead t d => cases r with
    | live | expiring => exact absurd (cons.inj h).1 (by decide)
    | dead u e =>
      obtain ⟨ts, deletion⟩ := append_inj (cons.inj h).2 (by simp)
      rw [bigEndian_eight_inj hl.1 hr.1 ts, bigEndian_four_inj hl.2 hr.2 deletion]

theorem DifferInTtl.ne (h : l.DifferInTtl r) : l ≠ r := by
  rintro rfl
  cases l with
  | expiring => exact h.2.2.2 rfl
  | _ => exact h

theorem DifferInTtl.rank_eq (h : l.DifferInTtl r) : l.rank = r.rank := by
  cases l <;> cases r <;> try exact h.elim
  obtain ⟨rfl, rfl, rfl, -⟩ := h
  rfl

theorem DifferInTtl.timestamp_eq (h : l.DifferInTtl r) : l.timestamp = r.timestamp := by
  rw [← rank_fst, ← rank_fst, h.rank_eq]

/-- Reconciliation tells all cells apart but for those. -/
theorem compareForMerge_eq_iff : l.compareForMerge r = .eq ↔ l = r ∨ l.DifferInTtl r := by
  cases l <;> cases r
  case expiring.expiring _ _ _ ttl _ _ _ ttl' =>
    by_cases same : ttl = ttl' <;>
      simp [compareForMerge, timestamp, DifferInTtl, Ordering.then_eq_eq, compareUnsigned_eq, same]
  case dead.dead _ d _ e =>
    by_cases same : d = e
    · simp [compareForMerge, timestamp, DifferInTtl, same]
    · have apart : (if d % 4294967296 < e % 4294967296 then Ordering.lt else .gt) ≠ .eq := by split <;> decide
      simp [compareForMerge, timestamp, DifferInTtl, Ordering.then_eq_eq, same, apart]
  all_goals simp [compareForMerge, timestamp, DifferInTtl, Ordering.then_eq_eq, compareUnsigned_eq]

theorem compareForMerge_trans (hl : l.Fits) (hm : m.Fits) (hr : r.Fits) (lm : (l.compareForMerge m).isLE)
    (mr : (m.compareForMerge r).isLE) : (l.compareForMerge r).isLE := by
  rw [compareForMerge_eq hl hm] at lm
  rw [compareForMerge_eq hm hr] at mr
  rw [compareForMerge_eq hl hr]
  exact Std.TransCmp.isLE_trans lm mr

/-- The cell is less than the other. -/
def Below (c d : AtomicCell) : Prop := compare c.rank d.rank = .lt

instance (c d : AtomicCell) : Decidable (c.Below d) := inferInstanceAs (Decidable (_ = _))

theorem not_below_iff : ¬ c.Below d ↔ RankLe rank d c := by
  unfold Below RankLe
  rw [Std.OrientedOrd.eq_swap (a := d.rank)]
  cases compare c.rank d.rank <;> simp

/-- Where two cells differ in the TTL only, another one is greater. -/
def Decided (cells : List AtomicCell) : Prop :=
  ∀ c ∈ cells, ∀ d ∈ cells, c.DifferInTtl d → ∃ e ∈ cells, c.Below e

instance (cells : List AtomicCell) : Decidable (Decided cells) :=
  inferInstanceAs (Decidable (∀ c ∈ cells, ∀ d ∈ cells, c.DifferInTtl d → ∃ e ∈ cells, c.Below e))

theorem merge_mem (c d : AtomicCell) : c.merge d = c ∨ c.merge d = d := by
  unfold merge
  split
  · exact .inr rfl
  · exact .inl rfl

theorem foldl_merge_mem (c : AtomicCell) (cs : List AtomicCell) : cs.foldl merge c ∈ c :: cs := by
  induction cs generalizing c with
  | nil => exact mem_singleton.2 rfl
  | cons d cs ih =>
    rcases mem_cons.1 (ih (c.merge d)) with eq | mem
    · rw [foldl_cons, eq]
      rcases merge_mem c d with eq | eq <;> simp [eq]
    · exact mem_cons_of_mem _ (mem_cons_of_mem _ mem)

variable {cs : List AtomicCell}

theorem le_foldl_merge (h : ∀ x ∈ c :: cs, x.Fits) :
    ∀ x ∈ c :: cs, RankLe rank x (cs.foldl merge c) := by
  induction cs generalizing c with
  | nil => exact forall_mem_singleton.2 (isJoin.refl c)
  | cons d cs ih =>
    obtain ⟨hc, hd, hcs⟩ : c.Fits ∧ d.Fits ∧ ∀ x ∈ cs, x.Fits := by simpa using h
    obtain ⟨first, rest⟩ := forall_mem_cons.1 (ih (forall_mem_cons.2 ⟨isJoin.closed c d hc hd, hcs⟩))
    refine forall_mem_cons.2 ⟨?_, forall_mem_cons.2 ⟨?_, rest⟩⟩
    · exact isJoin.trans _ _ _ (isJoin.left c d hc hd) first
    · exact isJoin.trans _ _ _ (isJoin.right c d hc hd) first

/-- A cell that comes first stays unless there is a greater one. -/
theorem foldl_merge_of_not_below (h : ∀ x ∈ c :: cs, x.Fits) (max : ∀ x ∈ cs, ¬ c.Below x) :
    cs.foldl merge c = c := by
  induction cs with
  | nil => rfl
  | cons d cs ih =>
    obtain ⟨hc, hd, hcs⟩ : c.Fits ∧ d.Fits ∧ ∀ x ∈ cs, x.Fits := by simpa using h
    obtain ⟨top, max⟩ := forall_mem_cons.1 max
    have kept : c.merge d = c := if_neg fun lt => top ((compareForMerge_eq hc hd).symm.trans lt)
    rw [foldl_cons, kept, ih (forall_mem_cons.2 ⟨hc, hcs⟩) max]

/-- The order in which cells are merged does not show exactly if a greater cell decides wherever the TTL would. -/
theorem ordersAgree_iff {cells : List AtomicCell} (h : ∀ c ∈ cells, c.InRange) :
    OrdersAgree merge serialize cells ↔ Decided cells := by
  have fits : ∀ x ∈ cells, x.Fits := fun x hx => (h x hx).fits
  constructor
  · intro agree c hc d hd differ
    by_contra undecided
    have top : ∀ x ∈ cells, ¬ c.Below x := fun x hx below => undecided ⟨x, hx, below⟩
    -- either of the two stays where it comes first
    have first : ∀ x ∈ cells, x.rank = c.rank → ∃ xs, (x :: xs).Perm cells ∧ xs.foldl merge x = x := by
      intro x hx same
      have perm := (perm_cons_erase hx).symm
      refine ⟨_, perm, foldl_merge_of_not_below (fun y hy => fits y (perm.mem_iff.1 hy)) fun y hy => ?_⟩
      unfold Below
      rw [same]
      exact top y (mem_of_mem_erase hy)
    obtain ⟨cs, hcs, keptC⟩ := first c hc rfl
    obtain ⟨ds, hds, keptD⟩ := first d hd differ.rank_eq.symm
    have bytes := agree c cs d ds hcs hds
    rw [keptC, keptD] at bytes
    exact differ.ne (serialize_inj (h c hc) (h d hd) bytes)
  · intro decided c cs d ds hc hd
    have memC := hc.mem_iff.1 (foldl_merge_mem c cs)
    have memD := hd.mem_iff.1 (foldl_merge_mem d ds)
    have topC := le_foldl_merge fun x hx => fits x (hc.mem_iff.1 hx)
    have topD := le_foldl_merge fun x hx => fits x (hd.mem_iff.1 hx)
    have ranks := (topD _ (hd.mem_iff.2 memC)).compare_eq (topC _ (hc.mem_iff.2 memD))
    have eq := (compareForMerge_eq (fits _ memC) (fits _ memD)).trans ranks
    rcases compareForMerge_eq_iff.1 eq with same | differ
    · rw [same]
    · obtain ⟨e, he, below⟩ := decided _ memC _ memD differ
      exact absurd below (not_below_iff.2 (topC e (hc.mem_iff.2 he)))

end AtomicCell

end ScyllaMoon.Mutation
