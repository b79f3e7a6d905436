import HighPerformance.FallibleRun

/-!
# Two runs that look alike

A part of a system is observed through a relation `R` between states. Inputs that do not
concern the part leave its state related, and related states answer the same input of the part
alike: with related states, or with the same failure. Then two runs in which the part gets the
same inputs, and in which the other inputs do not fail, end alike, however many other inputs stand
between them.
-/

namespace HighPerformance.FallibleRun

variable {σ ι ε : Type*}

/-- Two calls return related results, or fail in the same way. -/
inductive Agree {α : Type*} (R : α → α → Prop) : Except ε α → Except ε α → Prop where
  | ok {a a' : α} : R a a' → Agree R (.ok a) (.ok a')
  | error (e : ε) : Agree R (.error e) (.error e)

namespace Agree
variable {α β : Type*} {R : α → α → Prop} {S : β → β → Prop} {x x' : Except ε α}

theorem bind {f f' : α → Except ε β} (h : Agree R x x')
    (hf : ∀ a a', R a a' → Agree S (f a) (f' a')) : Agree S (x.bind f) (x'.bind f') := by
  cases h with
  | ok ha => exact hf _ _ ha
  | error e => exact .error e

/-- The two calls begin with the same call. -/
theorem bind_same {f f' : α → Except ε β} (hf : ∀ a, Agree S (f a) (f' a)) :
    Agree S (x.bind f) (x.bind f') := by
  cases x with
  | ok a => exact hf a
  | error e => exact .error e

theorem map_same {f f' : α → β} (hf : ∀ a, S (f a) (f' a)) : Agree S (x.map f) (x.map f') := by
  cases x with
  | ok a => exact .ok (hf a)
  | error e => exact .error e

theorem map {f f' : α → β} (h : Agree R x x') (hf : ∀ a a', R a a' → S (f a) (f' a')) :
    Agree S (x.map f) (x'.map f') := by
  cases h with
  | ok ha => exact .ok (hf _ _ ha)
  | error e => exact .error e

end Agree

structure Unwinds (step : σ → ι → Except ε σ) (mine : ι → Bool) (R : σ → σ → Prop) : Prop where
  symm : ∀ s t, R s t → R t s
  trans : ∀ s t u, R s t → R t u → R s u
  other : ∀ s i t, mine i = false → step s i = .ok t → R s t
  own : ∀ s s' i, mine i = true → R s s' → Agree R (step s i) (step s' i)

/-- An input that does not concern the part does not end the run. -/
def OtherReturns (step : σ → ι → Except ε σ) (mine : ι → Bool) (s : σ) (i : ι) : Prop :=
  mine i = false → (step s i).isOk = true

instance {step : σ → ι → Except ε σ} {mine : ι → Bool} (s : σ) (i : ι) :
    Decidable (OtherReturns step mine s i) :=
  inferInstanceAs (Decidable (_ → _))

namespace Unwinds
variable {step : σ → ι → Except ε σ} {mine : ι → Bool} {R : σ → σ → Prop} {s s' t t' : σ}
  {i : ι} {is js : List ι}

theorem other_ok (U : Unwinds step mine R) (hi : mine i = false)
    (hreturns : OtherReturns step mine s i) : ∃ t, step s i = .ok t ∧ R s t := by
  have hok := hreturns hi
  cases hstep : step s i with
  | error e =>
    rw [hstep] at hok
    cases hok
  | ok t => exact ⟨t, rfl, U.other s i t hi hstep⟩

/-- A run without inputs of the part. -/
theorem run_other (U : Unwinds step mine R) (h : R s s') (hother : ∀ i ∈ is, mine i = false)
    (hreturns : Meets step (OtherReturns step mine) s is) : ∃ t, run step s is = .ok t ∧ R t s' := by
  induction is generalizing s with
  | nil => exact ⟨s, rfl, h⟩
  | cons i is ih =>
    obtain ⟨u, hu, hsu⟩ := U.other_ok (hother i List.mem_cons_self) hreturns.1
    have hus' := U.trans u s s' (U.symm s u hsu) h
    obtain ⟨t, ht, hts'⟩ :=
      ih hus' (fun j hj => hother j (List.mem_cons_of_mem i hj)) (hreturns.2 u hu)
    exact ⟨t, (run_cons_ok hu).trans ht, hts'⟩

theorem run_same (U : Unwinds step mine R) (h : R s s') (hsame : is.filter mine = js.filter mine)
    (hreturns : Meets step (OtherReturns step mine) s is)
    (hreturns' : Meets step (OtherReturns step mine) s' js) :
    R (lastState step s is) (lastState step s' js) ∧ Agree R (run step s is) (run step s' js) := by
  induction is generalizing s s' js with
  | nil =>
    have hnone : ∀ j ∈ js, mine j = false := by simpa using hsame.symm
    obtain ⟨t, ht, hts⟩ := U.run_other (U.symm s s' h) hnone hreturns'
    have hlast : lastState step s' (js ++ []) = t := lastState_append_ok ht
    rw [List.append_nil] at hlast
    rw [hlast, ht]
    exact ⟨U.symm t s hts, .ok (U.symm t s hts)⟩
  | cons i is ih =>
    cases hi : mine i with
    | false =>
      obtain ⟨u, hu, hsu⟩ := U.other_ok hi hreturns.1
      have hus' := U.trans u s s' (U.symm s u hsu) h
      rw [List.filter_cons_of_neg (by simp [hi])] at hsame
      rw [lastState_cons_ok hu, run_cons_ok hu]
      exact ih hus' hsame (hreturns.2 u hu) hreturns'
    | true =>
      rw [List.filter_cons_of_pos hi] at hsame
      obtain ⟨before, after, rfl, hbefore, -, hafter⟩ := List.filter_eq_cons_iff.mp hsame.symm
      obtain ⟨hreturnsBefore, hreturnsAfter⟩ := meets_append.mp hreturns'
      obtain ⟨v, hv, hvs⟩ := U.run_other (U.symm s s' h) (by simpa using hbefore) hreturnsBefore
      rw [lastState_append_ok hv, run_append_ok hv]
      have hsv := U.symm v s hvs
      have howns := U.own s v i hi hsv
      cases hu : step s i with
      | error e =>
        rw [hu] at howns
        cases hw : step v i with
        | ok w =>
          rw [hw] at howns
          cases howns
        | error e' =>
          rw [hw] at howns
          cases howns
          rw [lastState_cons_error hu, lastState_cons_error hw, run_cons_error hu, run_cons_error hw]
          exact ⟨hsv, .error e⟩
      | ok u =>
        rw [hu] at howns
        cases hw : step v i with
        | error e =>
          rw [hw] at howns
          cases howns
        | ok w =>
          rw [hw] at howns
          have huw : R u w := by
            cases howns with
            | ok huw => exact huw
          rw [lastState_cons_ok hu, lastState_cons_ok hw, run_cons_ok hu, run_cons_ok hw]
          exact ih huw hafter.symm (hreturns.2 u hu) ((hreturnsAfter v hv).2 w hw)

end Unwinds

end HighPerformance.FallibleRun
