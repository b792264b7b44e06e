import Mathlib

/-!
# Runs of a machine that can fault

A machine is a function `step : σ → ι → Except ε (σ × ο)`: from a state and a request it moves on
and answers, or it faults and there is no next state. `Run` collects the requests a machine served
together with their answers, each one admitted by a side condition on everything that happened
before it; `trace` lists the answers to a given list of requests up to the first fault. `Run.invariant`
is the invariant rule and `trace_eq_of_sim` the simulation rule.
-/

namespace ScyllaMoon.Lib

variable {σ τ ι ο ε : Type}

variable {α β : Type}

@[simp] theorem ok_bind (a : α) (f : α → Except ε β) : (Except.ok a >>= f) = f a := rfl

@[simp] theorem error_bind (e : ε) (f : α → Except ε β) : (Except.error e >>= f) = .error e := rfl

variable {x : Except ε α}

theorem bind_eq_ok {f : α → Except ε β} {b : β} : (x >>= f) = .ok b ↔ ∃ a, x = .ok a ∧ f a = .ok b := by
  cases x <;> simp

theorem toOption_eq_some {a : α} : x.toOption = some a ↔ x = .ok a := by
  cases x <;> simp [Except.toOption]

@[simp] theorem pure_eq_ok (a : α) : (pure a : Except ε α) = .ok a := rfl

/-- `Run step allowed s₀ tr s`: from `s₀` the machine served the requests of `tr`, each admitted by
`allowed`, gave the recorded answers and arrived at `s`. -/
inductive Run (step : σ → ι → Except ε (σ × ο)) (allowed : List (ι × ο) → σ → ι → Prop) (s₀ : σ) :
    List (ι × ο) → σ → Prop where
  | init : Run step allowed s₀ [] s₀
  | snoc {tr : List (ι × ο)} {s s' : σ} {i : ι} {o : ο} : Run step allowed s₀ tr s → allowed tr s i →
      step s i = .ok (s', o) → Run step allowed s₀ (tr ++ [(i, o)]) s'

variable {s₀ : σ} {tr : List (ι × ο)} {s : σ} {step : σ → ι → Except ε (σ × ο)} {allowed : List (ι × ο) → σ → ι → Prop}

/-- What holds at the start and survives every admitted step holds after every run. -/
theorem Run.invariant (Inv : List (ι × ο) → σ → Prop) (start : Inv [] s₀)
    (keep : ∀ tr s i s' o, Inv tr s → allowed tr s i → step s i = .ok (s', o) → Inv (tr ++ [(i, o)]) s')
    (run : Run step allowed s₀ tr s) : Inv tr s := by
  induction run with
  | init => exact start
  | snoc _ ok next ih => exact keep _ _ _ _ _ ih ok next

theorem Run.mono {allowed allowed' : List (ι × ο) → σ → ι → Prop}
    (weaker : ∀ tr s i, allowed tr s i → allowed' tr s i) (run : Run step allowed s₀ tr s) :
    Run step allowed' s₀ tr s := by
  induction run with
  | init => exact .init
  | snoc _ ok next ih => exact ih.snoc (weaker _ _ _ ok) next

/-- The answers to a list of requests, cut at the first fault. -/
def trace (step : σ → ι → Except ε (σ × ο)) : σ → List ι → List (Except ε ο)
  | _, [] => []
  | s, i :: is => match step s i with
    | .ok (s', o) => .ok o :: trace step s' is
    | .error e => [.error e]

/-- The state after a list of requests, if none of them faults. -/
def after (step : σ → ι → Except ε (σ × ο)) : σ → List ι → Option σ
  | s, [] => some s
  | s, i :: is => match step s i with
    | .ok (s', _) => after step s' is
    | .error _ => none

/-- Two results agree when both are the same fault, or values related by `R`. -/
inductive Agree {α β : Type} (R : α → β → Prop) : Except ε α → Except ε β → Prop where
  | ok {a : α} {b : β} : R a b → Agree R (.ok a) (.ok b)
  | error {e : ε} : Agree R (.error e) (.error e)

variable {R : α → β → Prop} {y : Except ε β}

/-- The relational rule for sequencing. -/
theorem Agree.bind {α' β' : Type} {R' : α' → β' → Prop} {f : α → Except ε α'} {g : β → Except ε β'} (h : Agree R x y)
    (next : ∀ a b, R a b → Agree R' (f a) (g b)) : Agree R' (x >>= f) (y >>= g) := by
  cases h with
  | ok hR => exact next _ _ hR
  | error => exact .error

theorem Agree.mono {R' : α → β → Prop} (h : Agree R x y) (imp : ∀ a b, R a b → R' a b) : Agree R' x y := by
  cases h with
  | ok hR => exact .ok (imp _ _ hR)
  | error => exact .error

theorem Agree.refl {R : α → α → Prop} (h : ∀ a, R a a) : Agree R x x := by
  cases x with
  | ok a => exact .ok (h a)
  | error e => exact .error

theorem Agree.symm (h : Agree R x y) : Agree (fun b a => R a b) y x := by
  cases h with
  | ok hR => exact .ok hR
  | error => exact .error

theorem Agree.trans {γ : Type} {R' : β → γ → Prop} {R'' : α → γ → Prop} {z : Except ε γ} (h : Agree R x y)
    (h' : Agree R' y z) (comp : ∀ a b c, R a b → R' b c → R'' a c) : Agree R'' x z := by
  cases h with
  | ok hR =>
    cases h' with
    | ok hR' => exact .ok (comp _ _ _ hR hR')
  | error =>
    cases h' with
    | error => exact .error

theorem Agree.of_ok {a : α} (h : Agree R (.ok a) y) : ∃ b, y = .ok b ∧ R a b := by
  cases h with
  | ok hR => exact ⟨_, rfl, hR⟩

theorem Agree.of_ok_right {b : β} (h : Agree R x (.ok b)) : ∃ a, x = .ok a ∧ R a b := by
  cases h with
  | ok hR => exact ⟨_, rfl, hR⟩

/-- The same answer from related states. -/
def SameAnswer (R : σ → τ → Prop) (p : σ × ο) (q : τ × ο) : Prop :=
  p.2 = q.2 ∧ R p.1 q.1

/-- The answer of a step, or its fault. -/
def answer (x : Except ε (σ × ο)) : Except ε ο :=
  x.map Prod.snd

variable {R : σ → τ → Prop}

theorem Agree.answer_eq {x : Except ε (σ × ο)} {y : Except ε (τ × ο)} (h : Agree (SameAnswer R) x y) :
    answer x = answer y := by
  cases h with
  | ok hab => exact congrArg Except.ok hab.1
  | error => rfl

variable {step' : τ → ι → Except ε (τ × ο)}

/-- Related states answer every list of requests alike. -/
theorem trace_eq_of_sim (sim : ∀ s t i, R s t → Agree (SameAnswer R) (step s i) (step' t i)) :
    ∀ {s : σ} {t : τ} (is : List ι), R s t → trace step s is = trace step' t is := by
  intro s t is
  induction is generalizing s t with
  | nil => intro _; rfl
  | cons i is ih =>
    intro hR
    have h := sim s t i hR
    unfold trace
    generalize step s i = x at h
    generalize step' t i = y at h
    cases h with
    | ok hab =>
      obtain ⟨ho, hR⟩ := hab
      simp only [ho, ih hR]
    | error => rfl

/-- The rule for steps that do not show. If every step is either invisible and keeps the states related, or
visible and matched by the other machine, then the other machine has a run of the visible steps alone. -/
theorem Run.visible {ι' ο' : Type}
    (run : Run step allowed s₀ tr s) (step' : τ → ι' → Except ε (τ × ο')) (R : σ → τ → Prop)
    (visible : ι × ο → Option (ι' × ο'))
    (hidden : ∀ tr s i s' o t, allowed tr s i → step s i = .ok (s', o) → R s t → visible (i, o) = none → R s' t)
    (matched : ∀ tr s i s' o t i' o', allowed tr s i → step s i = .ok (s', o) → R s t → visible (i, o) = some (i', o') → ∃ t', step' t i' = .ok (t', o') ∧ R s' t')
    {t₀ : τ} (start : R s₀ t₀) : ∃ t, Run step' (fun _ _ _ => True) t₀ (tr.filterMap visible) t ∧ R s t := by
  induction run with
  | init => exact ⟨t₀, .init, start⟩
  | @snoc tr s s' i o _ ok next ih =>
    obtain ⟨t, run', hR⟩ := ih
    cases hv : visible (i, o) with
    | none =>
      refine ⟨t, ?_, hidden tr s i s' o t ok next hR hv⟩
      simpa [hv] using run'
    | some p =>
      obtain ⟨t', next', hR'⟩ := matched tr s i s' o t p.1 p.2 ok next hR hv
      refine ⟨t', ?_, hR'⟩
      simpa [hv] using run'.snoc trivial next'

end ScyllaMoon.Lib
