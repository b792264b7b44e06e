import Mathlib

/-!
# Producers

A producer gives its output in turns. Between two turns the outside may interfere, which the next turn
sees as its input. `Emits` relates two states if the turns from one to the other give the same output
whatever is put in, as long as it is allowed; then every schedule of allowed inputs gives that output.
-/

namespace ScyllaMoon.Lib

variable {σ ι α : Type}

/-- The state and the whole output after a number of turns. A producer that is done has no more turns. -/
def produce (turn : σ → ι → σ × List α) (done : σ → Bool) (inputs : Nat → ι) (s : σ × List α) : Nat → σ × List α
  | 0 => s
  | n + 1 =>
    let (s, out) := produce turn done inputs s n
    if done s then (s, out)
    else
      let (s, more) := turn s (inputs n)
      (s, out ++ more)

variable {turn : σ → ι → σ × List α} {inputs : Nat → ι}

theorem produce_of_le {done : σ → Bool} {s : σ × List α} {n m : Nat}
    (h : done (produce turn done inputs s n).1 = true) (le : n ≤ m) :
    produce turn done inputs s m = produce turn done inputs s n := by
  induction le with
  | refl => rfl
  | step _ ih => simp only [produce, ih, h, if_true]

theorem produce_unique {done : σ → Bool} {s : σ × List α} {n m : Nat}
    (h : done (produce turn done inputs s n).1 = true) (h' : done (produce turn done inputs s m).1 = true) :
    produce turn done inputs s n = produce turn done inputs s m := by
  rcases Nat.le_total n m with le | le
  · exact (produce_of_le h le).symm
  · exact produce_of_le h' le

/-- The producer gets from one state to the other with this output. -/
inductive Emits (turn : σ → ι → σ × List α) (done : σ → Bool) (allowed : σ → ι → Prop) (s : σ) : List α → σ → Prop where
  | refl : Emits turn done allowed s [] s
  | snoc {out more : List α} {t u : σ} (h : Emits turn done allowed s out t) (live : done t = false)
      (next : ∀ i, allowed t i → turn t i = (u, more)) : Emits turn done allowed s (out ++ more) u

namespace Emits

variable {turn : σ → ι → σ × List α} {done : σ → Bool} {allowed : σ → ι → Prop} {s t u : σ} {out more : List α}

theorem single (live : done s = false) (next : ∀ i, allowed s i → turn s i = (u, more)) :
    Emits turn done allowed s more u :=
  .snoc .refl live next

theorem trans (h : Emits turn done allowed s out t) (h' : Emits turn done allowed t more u) :
    Emits turn done allowed s (out ++ more) u := by
  induction h' with
  | refl => rwa [List.append_nil]
  | snoc _ live next ih =>
    rw [← List.append_assoc]
    exact .snoc ih live next

/-- One turn and what follows it. -/
theorem head (live : done s = false) (next : ∀ i, allowed s i → turn s i = (t, out))
    (h : Emits turn done allowed t more u) : Emits turn done allowed s (out ++ more) u :=
  (single live next).trans h

theorem produce (h : Emits turn done allowed s out t) (inputs : Nat → ι) (before : List α)
    (ok : ∀ n, done (Lib.produce turn done inputs (s, before) n).1 = false →
      allowed (Lib.produce turn done inputs (s, before) n).1 (inputs n)) :
    ∃ n, Lib.produce turn done inputs (s, before) n = (t, before ++ out) := by
  induction h with
  | refl => exact ⟨0, by rw [Lib.produce, List.append_nil]⟩
  | @snoc out more t u _ live next ih =>
    obtain ⟨n, hn⟩ := ih
    have allowed := ok n
    simp only [hn] at allowed
    refine ⟨n + 1, ?_⟩
    simp only [Lib.produce, hn, live, next _ (allowed live), Bool.false_eq_true, if_false, List.append_assoc]

end Emits

end ScyllaMoon.Lib
