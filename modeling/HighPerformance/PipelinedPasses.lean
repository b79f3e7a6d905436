import HighPerformance.CallHistory

/-!
# Passes behind each other

Several threads walk through one list from its front, and nobody overtakes. A pass visits one cell
after the other; it may change a cell, take it out, or end there. The passes that are on their way
stand between the cells as items. `settle` says what the list will be, and what the passes will
return, once all of them have come through, the one in front first. No move of a pass changes that,
and a pass that enters at the front comes after all the others.
-/

namespace HighPerformance.PipelinedPasses
open CallHistory

variable {τ P X R : Type}

inductive Item (τ P X : Type) where
  | cell (x : X)
  | pass (t : τ) (p : P)

/-- What a pass makes of a cell, and how it goes on; and what it returns at the end of the list. -/
structure Walk (P X R : Type) where
  visit : P → X → Option X × (P ⊕ R)
  finish : P → R

namespace Walk

/-- The pass through the whole list. -/
def apply (w : Walk P X R) : P → List X → List X × R
  | p, [] => ([], w.finish p)
  | p, x :: xs =>
      match w.visit p x with
      | (y, .inl q) => (y.toList ++ (w.apply q xs).1, (w.apply q xs).2)
      | (y, .inr r) => (y.toList ++ xs, r)

def settle (w : Walk P X R) : List (Item τ P X) → List X × List (τ × R)
  | [] => ([], [])
  | .cell x :: items => (x :: (w.settle items).1, (w.settle items).2)
  | .pass t p :: items =>
      ((w.apply p (w.settle items).1).1, (t, (w.apply p (w.settle items).1).2) :: (w.settle items).2)

end Walk

def cells (xs : List X) : List (Item τ P X) := xs.map .cell

/-- The threads whose passes are on their way. -/
def walkers : List (Item τ P X) → List τ
  | [] => []
  | .cell _ :: items => walkers items
  | .pass t _ :: items => t :: walkers items

section Settling
variable {w : Walk P X R} {front items items' : List (Item τ P X)} {xs : List X} {t : τ} {p q : P}
  {x : X} {y : Option X} {r : R}

theorem walkers_append : walkers (front ++ items) = walkers front ++ walkers items := by
  induction front with
  | nil => rfl
  | cons i front ih =>
    cases i with
    | cell x => exact ih
    | pass t p => exact congrArg (t :: ·) ih

theorem walkers_cells : walkers (cells xs : List (Item τ P X)) = [] := by
  induction xs with
  | nil => rfl
  | cons x xs ih => exact ih

theorem settle_cells_append :
    w.settle (cells xs ++ items) = (xs ++ (w.settle items).1, (w.settle items).2) := by
  induction xs with
  | nil => rfl
  | cons x xs ih =>
    change ((x :: (w.settle (cells xs ++ items)).1), (w.settle (cells xs ++ items)).2) = _
    rw [ih]
    rfl

theorem settle_cells : w.settle (cells xs : List (Item τ P X)) = (xs, []) := by
  have hcells : w.settle (cells xs ++ ([] : List (Item τ P X))) = (xs ++ [], []) :=
    settle_cells_append
  rwa [List.append_nil, List.append_nil] at hcells

/-- What is in front sees of the rest what the rest settles to. -/
theorem settle_append_congr (h : w.settle items = w.settle items') :
    w.settle (front ++ items) = w.settle (front ++ items') := by
  induction front with
  | nil => exact h
  | cons i front ih =>
    cases i with
    | cell x => simp only [List.cons_append, Walk.settle, ih]
    | pass t p => simp only [List.cons_append, Walk.settle, ih]

theorem mem_walkers_of_result : ∀ e ∈ (w.settle items).2, e.1 ∈ walkers items := by
  induction items with
  | nil => simp [Walk.settle]
  | cons i items ih =>
    cases i with
    | cell x => exact ih
    | pass t p =>
      intro e he
      rcases List.mem_cons.mp he with rfl | he
      · exact List.mem_cons_self
      · exact List.mem_cons_of_mem _ (ih e he)

theorem settle_move (hvisit : w.visit p x = (y, .inl q)) :
    w.settle (.pass t p :: .cell x :: items) =
      w.settle (cells y.toList ++ .pass t q :: items) := by
  rw [settle_cells_append]
  simp only [Walk.settle, Walk.apply, hvisit]

theorem settle_stop (hvisit : w.visit p x = (y, .inr r)) :
    w.settle (.pass t p :: .cell x :: items) =
      ((w.settle (cells y.toList ++ items)).1, (t, r) :: (w.settle (cells y.toList ++ items)).2) := by
  rw [settle_cells_append]
  simp only [Walk.settle, Walk.apply, hvisit]

theorem settle_finish : w.settle [.pass t p] = (([] : List X), [(t, w.finish p)]) := rfl

/-- A pass less, with what it returns. -/
theorem settle_append_result (front : List (Item τ P X))
    (h : w.settle items = ((w.settle items').1, (t, r) :: (w.settle items').2)) :
    (w.settle (front ++ items)).1 = (w.settle (front ++ items')).1 ∧
      ∃ rs, (w.settle (front ++ items)).2 = rs ++ (t, r) :: (w.settle items').2 ∧
        (w.settle (front ++ items')).2 = rs ++ (w.settle items').2 ∧
        ∀ e ∈ rs, e.1 ∈ walkers front := by
  induction front with
  | nil =>
    refine ⟨?_, [], ?_, rfl, ?_⟩
    · simp [h]
    · simp [h]
    · simp
  | cons i front ih =>
    obtain ⟨hlist, rs, hrs, hrs', hmem⟩ := ih
    cases i with
    | cell x => exact ⟨congrArg (x :: ·) hlist, rs, hrs, hrs', hmem⟩
    | pass u p =>
      refine ⟨?_, (u, (w.apply p (w.settle (front ++ items)).1).2) :: rs, ?_, ?_, ?_⟩
      · simp only [List.cons_append, Walk.settle, hlist]
      · simp only [List.cons_append, Walk.settle, hrs]
      · simp only [List.cons_append, Walk.settle, hlist, hrs']
      · intro e he
        rcases List.mem_cons.mp he with rfl | he
        · exact List.mem_cons_self
        · exact List.mem_cons_of_mem _ (hmem e he)

end Settling

section Settled
variable {κ ρ : Type} [DecidableEq τ]

/-- The calls that have entered, one after the other, leave what the list settles to; of its calls a
thread has been told all but the one that is on its way. -/
structure Settled (w : Walk P X (κ × ρ)) (perform : κ → List X → List X × ρ)
    (items : List (Item τ P X)) (entered : List (τ × κ)) (told : τ → List (κ × ρ)) : Prop where
  contents : (serial perform [] entered).1 = (w.settle items).1
  calls : ∀ t, callsOf t (serial perform [] entered).2 = told t ++ callsOf t (w.settle items).2
  distinct : (walkers items).Nodup

variable {w : Walk P X (κ × ρ)} {perform : κ → List X → List X × ρ}
  {front items items' : List (Item τ P X)} {entered : List (τ × κ)} {told : τ → List (κ × ρ)} {t : τ}
  {p q : P} {x : X} {y : Option X} {r : κ × ρ} {c : κ}

namespace Settled

theorem init : Settled w perform ([] : List (Item τ P X)) [] fun _ => [] :=
  ⟨rfl, fun _ => rfl, List.nodup_nil⟩

theorem move (h : Settled w perform (front ++ .pass t p :: .cell x :: items) entered told)
    (hvisit : w.visit p x = (y, .inl q)) :
    Settled w perform (front ++ (cells y.toList ++ .pass t q :: items)) entered told := by
  have hsettle : w.settle (front ++ .pass t p :: .cell x :: items) =
      w.settle (front ++ (cells y.toList ++ .pass t q :: items)) :=
    settle_append_congr (settle_move hvisit)
  constructor
  · rw [← hsettle]
    exact h.contents
  · rw [← hsettle]
    exact h.calls
  · have hwalkers : walkers (front ++ (cells y.toList ++ .pass t q :: items)) =
        walkers (front ++ .pass t p :: .cell x :: items) := by
      rw [walkers_append, walkers_append, walkers_append, walkers_cells]
      rfl
    rw [hwalkers]
    exact h.distinct

/-- A pass ends: its thread is told the result that was settled when it entered. -/
theorem result (h : Settled w perform (front ++ .pass t p :: items) entered told)
    (hsettle : w.settle (.pass t p :: items) =
      ((w.settle items').1, (t, r) :: (w.settle items').2))
    (hwalkers : walkers items' = walkers items) :
    Settled w perform (front ++ items') entered
      (Function.update told t (told t ++ [r])) := by
  obtain ⟨hlist, rs, hrs, hrs', hmem⟩ := settle_append_result front hsettle
  have hdistinct := h.distinct
  have hcalls := h.calls
  rw [walkers_append] at hdistinct
  rw [hrs] at hcalls
  have hfront : ∀ e ∈ rs, e.1 ≠ t := by
    intro e he hte
    exact (List.nodup_append.mp hdistinct).2.2 t (hte ▸ hmem e he) t List.mem_cons_self rfl
  have hbehind : ∀ e ∈ (w.settle items').2, e.1 ≠ t := by
    intro e he hte
    have hmem := mem_walkers_of_result e he
    rw [hwalkers, hte] at hmem
    exact (List.nodup_cons.mp (List.nodup_append.mp hdistinct).2.1).1 hmem
  constructor
  · rw [← hlist]
    exact h.contents
  · intro u
    rw [hrs', hcalls u, callsOf_append, callsOf_append]
    by_cases hu : u = t
    · subst hu
      rw [callsOf_cons_own, Function.update_self, callsOf_eq_nil hfront, callsOf_eq_nil hbehind]
      simp
    · rw [callsOf_cons_other (Ne.symm hu), Function.update_of_ne hu]
  · rw [walkers_append, hwalkers]
    exact (List.Sublist.append_left (List.sublist_cons_self t _) _).nodup hdistinct

theorem stop (h : Settled w perform (front ++ .pass t p :: .cell x :: items) entered told)
    (hvisit : w.visit p x = (y, .inr r)) :
    Settled w perform (front ++ (cells y.toList ++ items)) entered
      (Function.update told t (told t ++ [r])) := by
  refine h.result (settle_stop hvisit) ?_
  rw [walkers_append, walkers_cells]
  rfl

theorem finish (h : Settled w perform (front ++ [.pass t p]) entered told) :
    Settled w perform front entered (Function.update told t (told t ++ [w.finish p])) := by
  have hresult : Settled w perform (front ++ []) entered _ := h.result settle_finish rfl
  rwa [List.append_nil] at hresult

theorem enter (h : Settled w perform items entered told) (ht : t ∉ walkers items)
    (hperform : ∀ xs, w.apply p xs = ((perform c xs).1, c, (perform c xs).2)) :
    Settled w perform (.pass t p :: items) (entered ++ [(t, c)]) told := by
  have hnone : callsOf t (w.settle items).2 = [] :=
    callsOf_eq_nil fun e he hte => ht (hte ▸ mem_walkers_of_result e he)
  constructor
  · rw [serial_concat, h.contents, Walk.settle, hperform]
  · intro u
    rw [serial_concat, Walk.settle, hperform, ← h.contents, callsOf_append, h.calls u]
    by_cases hu : u = t
    · subst hu
      rw [hnone, callsOf_cons_own, callsOf_cons_own, hnone, List.append_nil]
      rfl
    · rw [callsOf_cons_other (Ne.symm hu), callsOf_cons_other (Ne.symm hu)]
      simp
  · exact List.nodup_cons.mpr ⟨ht, h.distinct⟩

theorem push {ans : ρ} (h : Settled w perform items entered told) (ht : t ∉ walkers items)
    (hperform : ∀ xs, perform c xs = (x :: xs, ans)) :
    Settled w perform (.cell x :: items) (entered ++ [(t, c)])
      (Function.update told t (told t ++ [(c, ans)])) := by
  have hnone : callsOf t (w.settle items).2 = [] :=
    callsOf_eq_nil fun e he hte => ht (hte ▸ mem_walkers_of_result e he)
  constructor
  · rw [serial_concat, h.contents, hperform, Walk.settle]
  · intro u
    rw [serial_concat, Walk.settle, hperform, callsOf_append, h.calls u]
    by_cases hu : u = t
    · subst hu
      rw [hnone, callsOf_cons_own, Function.update_self, List.append_nil]
      simp
    · rw [callsOf_cons_other (Ne.symm hu), Function.update_of_ne hu]
      simp
  · exact h.distinct

end Settled

end Settled

end HighPerformance.PipelinedPasses
