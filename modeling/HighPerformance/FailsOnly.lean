import HighPerformance.FallibleRun

/-!
# What a computation may fail with

`FailsOnly E x` says that every error of `x` satisfies `E`, and nothing about its result. The
rules follow the way in which a computation is put together; the last one carries a guard and an
invariant along a run.
-/

namespace HighPerformance.FallibleRun

universe u
variable {σ ι ε : Type*} {α β : Type u}

def FailsOnly (E : ε → Prop) (x : Except ε α) : Prop := ∀ e, x = .error e → E e

section Rules
variable {E : ε → Prop} {x : Except ε α} {f : α → Except ε β} {a : α} {e : ε}

theorem failsOnly_ok : FailsOnly E (.ok a : Except ε α) := nofun

theorem failsOnly_pure : FailsOnly E (pure a : Except ε α) := failsOnly_ok

theorem failsOnly_error (h : E e) : FailsOnly E (.error e : Except ε α) := by
  intro e' he
  cases he
  exact h

theorem failsOnly_of_ok (h : x = .ok a) : FailsOnly E x := h ▸ failsOnly_ok

theorem FailsOnly.mono {E' : ε → Prop} (hx : FailsOnly E x) (h : ∀ e, E e → E' e) :
    FailsOnly E' x :=
  fun e he => h e (hx e he)

theorem FailsOnly.bind (hx : FailsOnly E x) (hf : ∀ a, x = .ok a → FailsOnly E (f a)) :
    FailsOnly E (x >>= f) := by
  cases x with
  | error e => exact failsOnly_error (hx e rfl)
  | ok a => exact hf a rfl

end Rules

/-- An allowed step fails only so, and keeps the invariant: so does an allowed run. -/
theorem failsOnly_run {E : ε → Prop} {step : σ → ι → Except ε σ} {G : σ → ι → Prop} {I : σ → Prop}
    {s : σ} {is : List ι} (h₀ : I s) (hG : Meets step G s is)
    (hfail : ∀ s i, I s → G s i → FailsOnly E (step s i))
    (hstep : ∀ s i t, I s → G s i → step s i = .ok t → I t) : FailsOnly E (run step s is) := by
  induction is generalizing s with
  | nil => exact failsOnly_ok
  | cons i is ih =>
    cases h : step s i with
    | error e =>
      rw [run_cons_error h]
      exact failsOnly_error (hfail s i h₀ hG.1 e h)
    | ok t =>
      rw [run_cons_ok h]
      exact ih (hstep s i t h₀ hG.1 h) (hG.2 t h)

end HighPerformance.FallibleRun
