import Mathlib.Data.List.Basic

/-!
# Histories of calls

Several threads call an object. A history lists the calls with their answers in the order in which
they take effect. `Replays effect s₀ h s` says that the object, called by nobody else and from `s₀`,
answers the calls of `h` one after the other as `h` says, and is then in the state `s`.
-/

namespace HighPerformance.CallHistory

variable {τ κ σ : Type}

inductive Replays (effect : σ → κ → σ → Prop) (s₀ : σ) : List (τ × κ) → σ → Prop where
  | nil : Replays effect s₀ [] s₀
  | concat {h : List (τ × κ)} {s u : σ} {c : κ} (t : τ) :
      Replays effect s₀ h s → effect s c u → Replays effect s₀ (h ++ [(t, c)]) u

variable [DecidableEq τ]

/-- The calls of thread `t`. -/
def callsOf (t : τ) (h : List (τ × κ)) : List κ := (h.filter (·.1 = t)).map Prod.snd

variable {t u : τ} {c : κ} {h : List (τ × κ)}

@[simp] theorem callsOf_nil : callsOf t ([] : List (τ × κ)) = [] := rfl

theorem callsOf_concat_own : callsOf t (h ++ [(t, c)]) = callsOf t h ++ [c] := by
  simp [callsOf]

theorem callsOf_concat_other (hne : u ≠ t) : callsOf t (h ++ [(u, c)]) = callsOf t h := by
  simp [callsOf, hne]

section Serial
variable {α ρ : Type} (perform : α → σ → σ × ρ) (s₀ : σ) {calls : List (τ × α)} {a : α}

omit [DecidableEq τ] in
/-- The calls one after the other, each with its answer. -/
def serial (calls : List (τ × α)) : σ × List (τ × α × ρ) :=
  calls.foldl (fun s c => ((perform c.2 s.1).1, s.2 ++ [(c.1, c.2, (perform c.2 s.1).2)])) (s₀, [])

omit [DecidableEq τ] in
@[simp] theorem serial_nil : serial perform s₀ ([] : List (τ × α)) = (s₀, []) := rfl

omit [DecidableEq τ] in
theorem serial_concat : serial perform s₀ (calls ++ [(t, a)]) =
    ((perform a (serial perform s₀ calls).1).1, (serial perform s₀ calls).2 ++
      [(t, a, (perform a (serial perform s₀ calls).1).2)]) := by
  rw [serial, List.foldl_append]
  rfl

end Serial

theorem callsOf_append {h' : List (τ × κ)} : callsOf t (h ++ h') = callsOf t h ++ callsOf t h' := by
  simp [callsOf]

theorem callsOf_cons_own : callsOf t ((t, c) :: h) = c :: callsOf t h := by
  simp [callsOf]

theorem callsOf_cons_other (hne : u ≠ t) : callsOf t ((u, c) :: h) = callsOf t h := by
  simp [callsOf, hne]

theorem callsOf_eq_nil (hno : ∀ e ∈ h, e.1 ≠ t) : callsOf t h = [] := by
  rw [callsOf, List.map_eq_nil_iff, List.filter_eq_nil_iff]
  intro e he
  simpa using hno e he

end HighPerformance.CallHistory
