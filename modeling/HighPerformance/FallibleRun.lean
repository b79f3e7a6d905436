import Mathlib.Data.List.Induction
import Mathlib.Data.List.Infix

/-!
# Runs of a step function that may fail

`run step` feeds a list of inputs to a step function into `Except`. A failed
step ends the run with its error. `Meets step G` says that every input of a run
arrives in a state in which the guard `G` allows it. The rules below turn facts
about one step into facts about whole runs.
-/

namespace HighPerformance.FallibleRun

variable {σ ι ε : Type*}

/-- Feed the inputs one after another; stop at the first failure. -/
def run (step : σ → ι → Except ε σ) : σ → List ι → Except ε σ
  | s, [] => .ok s
  | s, i :: is =>
      match step s i with
      | .error e => .error e
      | .ok t => run step t is

/-- The state in which a run stops: after its last input, or before the input that fails. -/
def lastState (step : σ → ι → Except ε σ) : σ → List ι → σ
  | s, [] => s
  | s, i :: is =>
      match step s i with
      | .error _ => s
      | .ok t => lastState step t is

/-- Every input is allowed in the state it meets. -/
def Meets (step : σ → ι → Except ε σ) (G : σ → ι → Prop) : σ → List ι → Prop
  | _, [] => True
  | s, i :: is => G s i ∧ ∀ t, step s i = .ok t → Meets step G t is

instance {step : σ → ι → Except ε σ} {G : σ → ι → Prop} [∀ s i, Decidable (G s i)] :
    ∀ s is, Decidable (Meets step G s is)
  | _, [] => inferInstanceAs (Decidable True)
  | s, i :: is =>
      match h : step s i with
      | .error _ => decidable_of_iff (G s i) (by simp [Meets, h])
      | .ok t =>
          have : Decidable (Meets step G t is) := instDecidableMeets t is
          decidable_of_iff (G s i ∧ Meets step G t is) (by simp [Meets, h])

section Rules
variable {step : σ → ι → Except ε σ} {G : σ → ι → Prop} {P : σ → Prop}
  {s t u : σ} {i : ι} {is js : List ι} {e : ε}

@[simp] theorem run_nil : run step s [] = .ok s := rfl

theorem run_cons_ok (h : step s i = .ok t) : run step s (i :: is) = run step t is := by
  simp [run, h]

theorem run_cons_error (h : step s i = .error e) : run step s (i :: is) = .error e := by
  simp [run, h]

theorem run_cons_eq_ok :
    run step s (i :: is) = .ok u ↔ ∃ t, step s i = .ok t ∧ run step t is = .ok u := by
  cases h : step s i with
  | error e => simp [run, h]
  | ok t => simp [run, h]

theorem lastState_cons_ok (h : step s i = .ok t) :
    lastState step s (i :: is) = lastState step t is := by
  simp [lastState, h]

theorem lastState_cons_error (h : step s i = .error e) : lastState step s (i :: is) = s := by
  simp [lastState, h]

theorem run_map {κ : Type*} (f : κ → ι) (ks : List κ) :
    run step s (ks.map f) = run (fun s k => step s (f k)) s ks := by
  induction ks generalizing s with
  | nil => rfl
  | cons k ks ih =>
    rw [List.map_cons, run, run]
    cases step s (f k) with
    | error e => rfl
    | ok t => exact ih

theorem run_foldl (next : σ → ι → σ) (s : σ) (is : List ι) :
    run (fun s i => (.ok (next s i) : Except ε σ)) s is = .ok (is.foldl next s) := by
  induction is generalizing s with
  | nil => rfl
  | cons i is ih => exact ih (next s i)

theorem run_append_ok (h : run step s is = .ok t) :
    run step s (is ++ js) = run step t js := by
  induction is generalizing s with
  | nil => cases h; rfl
  | cons i is ih =>
    obtain ⟨u, hu, hr⟩ := run_cons_eq_ok.mp h
    rw [List.cons_append, run_cons_ok hu]
    exact ih hr

theorem lastState_append_ok (h : run step s is = .ok t) :
    lastState step s (is ++ js) = lastState step t js := by
  induction is generalizing s with
  | nil => cases h; rfl
  | cons i is ih =>
    obtain ⟨u, hu, hr⟩ := run_cons_eq_ok.mp h
    rw [List.cons_append, lastState_cons_ok hu]
    exact ih hr

theorem run_append_eq_ok :
    run step s (is ++ js) = .ok u ↔ ∃ t, run step s is = .ok t ∧ run step t js = .ok u := by
  induction is generalizing s with
  | nil => simp
  | cons i is ih =>
    rw [List.cons_append, run_cons_eq_ok]
    simp only [ih, run_cons_eq_ok]
    constructor
    · rintro ⟨t, ht, v, hv, hu⟩
      exact ⟨v, ⟨t, ht, hv⟩, hu⟩
    · rintro ⟨v, ⟨t, ht, hv⟩, hu⟩
      exact ⟨t, ht, v, hv, hu⟩

/-- A guard that never refuses is met by every run. -/
theorem meets_of_forall (h : ∀ s i, G s i) : Meets step G s is := by
  induction is generalizing s with
  | nil => trivial
  | cons i is ih => exact ⟨h s i, fun _ _ => ih⟩

theorem Meets.imp {G' : σ → ι → Prop} (h : Meets step G s is)
    (hG : ∀ s i, G s i → G' s i) : Meets step G' s is := by
  induction is generalizing s with
  | nil => trivial
  | cons i is ih => exact ⟨hG s i h.1, fun t ht => ih (h.2 t ht)⟩

theorem Meets.of_prefix (h : Meets step G s is) (hjs : js <+: is) : Meets step G s js := by
  induction js generalizing s is with
  | nil => trivial
  | cons j js ih =>
    cases is with
    | nil => simp at hjs
    | cons i is =>
      obtain ⟨rfl, htail⟩ := List.cons_prefix_cons.mp hjs
      exact ⟨h.1, fun t ht => ih (h.2 t ht) htail⟩

theorem meets_append : Meets step G s (is ++ js) ↔
    Meets step G s is ∧ ∀ t, run step s is = .ok t → Meets step G t js := by
  induction is generalizing s with
  | nil => simp [Meets]
  | cons i is ih =>
    constructor
    · rintro ⟨hfirst, hrest⟩
      refine ⟨⟨hfirst, fun t ht => (ih.mp (hrest t ht)).1⟩, ?_⟩
      intro u hu
      obtain ⟨t, ht, hu⟩ := run_cons_eq_ok.mp hu
      exact (ih.mp (hrest t ht)).2 u hu
    · rintro ⟨⟨hfirst, hrest⟩, hlast⟩
      refine ⟨hfirst, fun t ht => ih.mpr ⟨hrest t ht, fun u hu => ?_⟩⟩
      exact hlast u (run_cons_ok ht ▸ hu)

theorem Meets.and {G' : σ → ι → Prop} (h : Meets step G s is) (h' : Meets step G' s is) :
    Meets step (fun s i => G s i ∧ G' s i) s is := by
  induction is generalizing s with
  | nil => trivial
  | cons i is ih => exact ⟨⟨h.1, h'.1⟩, fun t ht => ih (h.2 t ht) (h'.2 t ht)⟩

/-- Invariant rule: an invariant of every allowed step holds after the run. -/
theorem run_invariant (h₀ : P s) (hG : Meets step G s is)
    (hstep : ∀ s i t, P s → G s i → step s i = .ok t → P t)
    (hr : run step s is = .ok t) : P t := by
  induction is generalizing s with
  | nil => cases hr; exact h₀
  | cons i is ih =>
    obtain ⟨u, hu, hr⟩ := run_cons_eq_ok.mp hr
    exact ih (hstep s i u h₀ hG.1 hu) (hG.2 u hu) hr

/-- Progress rule with history: the invariant may speak of the inputs so far,
and a step may use that they are the beginning of the whole run. -/
theorem run_progress_history {Q : List ι → σ → Prop} {E : ε → Prop} (h₀ : Q [] s)
    (hG : Meets step G s is)
    (hstep : ∀ done i t, done ++ [i] <+: is → Q done t → G t i →
      (∃ u, step t i = .ok u ∧ Q (done ++ [i]) u) ∨ ∃ e, step t i = .error e ∧ E e) :
    (∃ t, run step s is = .ok t ∧ Q is t) ∨ ∃ e, run step s is = .error e ∧ E e := by
  suffices hgen : ∀ done rest t, done ++ rest = is → Q done t → Meets step G t rest →
      (∃ u, run step t rest = .ok u ∧ Q is u) ∨ ∃ e, run step t rest = .error e ∧ E e from
    hgen [] is s rfl h₀ hG
  intro done rest
  induction rest generalizing done with
  | nil =>
    intro t hd hQ _
    rw [List.append_nil] at hd
    exact .inl ⟨t, rfl, hd ▸ hQ⟩
  | cons i rest ih =>
    intro t hd hQ hM
    have hd' : (done ++ [i]) ++ rest = is := by simpa using hd
    rcases hstep done i t ⟨rest, hd'⟩ hQ hM.1 with ⟨u, hu, hQu⟩ | ⟨e, he, hE⟩
    · rw [run_cons_ok hu]
      exact ih (done ++ [i]) u hd' hQu (hM.2 u hu)
    · exact .inr ⟨e, run_cons_error he, hE⟩

/-- Progress rule: when an allowed step either succeeds into the invariant or
fails with one of the tolerated errors, so does every allowed run. -/
theorem run_progress {E : ε → Prop} (h₀ : P s) (hG : Meets step G s is)
    (hstep : ∀ s i, P s → G s i →
      (∃ t, step s i = .ok t ∧ P t) ∨ ∃ e, step s i = .error e ∧ E e) :
    (∃ t, run step s is = .ok t ∧ P t) ∨ ∃ e, run step s is = .error e ∧ E e := by
  induction is generalizing s with
  | nil => exact .inl ⟨s, rfl, h₀⟩
  | cons i is ih =>
    rcases hstep s i h₀ hG.1 with ⟨t, ht, hP⟩ | ⟨e, he, hE⟩
    · rw [run_cons_ok ht]
      exact ih hP (hG.2 t ht)
    · exact .inr ⟨e, run_cons_error he, hE⟩

/-- Progress rule for all parts of a run: an allowed step succeeds into the invariant. -/
theorem forall_run_ok_of_meets (h₀ : P s) (hG : Meets step G s is)
    (hstep : ∀ s i, P s → G s i → ∃ t, step s i = .ok t ∧ P t) :
    ∀ done, done <+: is → ∃ t, run step s done = .ok t ∧ P t := by
  induction is generalizing s with
  | nil =>
    intro done hdone
    rw [List.prefix_nil.mp hdone]
    exact ⟨s, rfl, h₀⟩
  | cons i is ih =>
    intro done hdone
    cases done with
    | nil => exact ⟨s, rfl, h₀⟩
    | cons j done =>
      obtain ⟨rfl, htail⟩ := List.cons_prefix_cons.mp hdone
      obtain ⟨t, ht, hP⟩ := hstep s j h₀ hG.1
      obtain ⟨u, hu, hPu⟩ := ih hP (hG.2 t ht) done htail
      exact ⟨u, by rw [run_cons_ok ht, hu], hPu⟩

/-- Exactness rule: `I` is an invariant of the allowed steps that implies `P`,
and a step that returns into `P` was allowed. Then `P` holds all along a run
exactly when every step of it is allowed. -/
theorem forall_run_iff_meets {I : σ → Prop} (h₀ : I s) (hP : ∀ s, I s → P s)
    (hstep : ∀ s i t, I s → step s i = .ok t → (G s i → I t) ∧ (P t → G s i))
    (hfail : ∀ s i, (∀ t, step s i ≠ .ok t) → G s i) :
    (∀ done, done <+: is → ∀ t, run step s done = .ok t → P t) ↔ Meets step G s is := by
  induction is generalizing s with
  | nil =>
    simp only [List.prefix_nil, forall_eq, Meets, iff_true]
    intro t hrun
    cases hrun
    exact hP s h₀
  | cons i is ih =>
    constructor
    · intro hall
      have hfirst : G s i := by
        by_cases hok : ∃ t, step s i = .ok t
        · obtain ⟨t, ht⟩ := hok
          apply (hstep s i t h₀ ht).2
          apply hall [i] (by simp)
          rw [run_cons_ok ht, run_nil]
        · exact hfail s i fun t ht => hok ⟨t, ht⟩
      constructor
      · exact hfirst
      · intro t ht
        apply (ih ((hstep s i t h₀ ht).1 hfirst)).mp
        intro done hdone u hrun
        apply hall (i :: done) (List.cons_prefix_cons.mpr ⟨rfl, hdone⟩)
        rw [run_cons_ok ht, hrun]
    · intro hmeets done hdone t hrun
      cases done with
      | nil =>
        cases hrun
        exact hP s h₀
      | cons j done =>
        obtain ⟨rfl, htail⟩ := List.cons_prefix_cons.mp hdone
        obtain ⟨u, hu, hrun⟩ := run_cons_eq_ok.mp hrun
        exact (ih ((hstep s j u h₀ hu).1 hmeets.1)).mpr (hmeets.2 u hu) done htail t hrun

/-- Exactness rule with progress, for runs that meet `A`: an allowed step returns into the
invariant `I`, and a step that returns into `P` was allowed. Then every part of a run returns into
`P` exactly when every step of it is allowed. -/
theorem forall_run_ok_iff_meets_of {A : σ → ι → Prop} {I : σ → Prop} (hA : Meets step A s is)
    (h₀ : I s) (hP : ∀ s, I s → P s)
    (hgood : ∀ s i, I s → A s i → G s i → ∃ t, step s i = .ok t ∧ I t)
    (hbad : ∀ s i t, I s → A s i → step s i = .ok t → P t → G s i) :
    (∀ done, done <+: is → ∃ t, run step s done = .ok t ∧ P t) ↔ Meets step G s is := by
  induction is generalizing s with
  | nil =>
    simp only [List.prefix_nil, forall_eq, Meets, iff_true]
    exact ⟨s, rfl, hP s h₀⟩
  | cons i is ih =>
    constructor
    · intro hall
      obtain ⟨t, hrun, ht⟩ := hall [i] (by simp)
      obtain ⟨u, hu, hnil⟩ := run_cons_eq_ok.mp hrun
      cases hnil
      have hfirst : G s i := hbad s i t h₀ hA.1 hu ht
      obtain ⟨v, hv, hI⟩ := hgood s i h₀ hA.1 hfirst
      rw [hu] at hv
      cases hv
      refine ⟨hfirst, fun w hw => ?_⟩
      rw [hu] at hw
      cases hw
      apply (ih (hA.2 t hu) hI).mp
      intro done hdone
      obtain ⟨w, hw, hPw⟩ := hall (i :: done) (List.cons_prefix_cons.mpr ⟨rfl, hdone⟩)
      rw [run_cons_ok hu] at hw
      exact ⟨w, hw, hPw⟩
    · intro hmeets done hdone
      cases done with
      | nil => exact ⟨s, rfl, hP s h₀⟩
      | cons j done =>
        obtain ⟨rfl, htail⟩ := List.cons_prefix_cons.mp hdone
        obtain ⟨t, ht, hI⟩ := hgood s j h₀ hA.1 hmeets.1
        obtain ⟨u, hu, hPu⟩ := (ih (hA.2 t ht) hI).mpr (hmeets.2 t ht) done htail
        exact ⟨u, by rw [run_cons_ok ht, hu], hPu⟩

theorem forall_run_ok_iff_meets {I : σ → Prop} (h₀ : I s) (hP : ∀ s, I s → P s)
    (hgood : ∀ s i, I s → G s i → ∃ t, step s i = .ok t ∧ I t)
    (hbad : ∀ s i t, I s → step s i = .ok t → P t → G s i) :
    (∀ done, done <+: is → ∃ t, run step s done = .ok t ∧ P t) ↔ Meets step G s is :=
  forall_run_ok_iff_meets_of (meets_of_forall (G := fun _ _ => True) fun _ _ => trivial) h₀ hP
    (fun s i h _ => hgood s i h) (fun s i t h _ => hbad s i t h)

end Rules

/-- Every input is allowed in the state it meets, for a step that cannot fail. -/
def Along (next : σ → ι → σ) (A : σ → ι → Prop) : σ → List ι → Prop
  | _, [] => True
  | s, i :: is => A s i ∧ Along next A (next s i) is

instance {next : σ → ι → σ} {A : σ → ι → Prop} [∀ s i, Decidable (A s i)] :
    ∀ s is, Decidable (Along next A s is)
  | _, [] => inferInstanceAs (Decidable True)
  | s, i :: is =>
      have : Decidable (Along next A (next s i) is) := instDecidableAlong (next s i) is
      inferInstanceAs (Decidable (A s i ∧ Along next A (next s i) is))

section Total
variable {next : σ → ι → σ} {A B : σ → ι → Prop} {P : σ → Prop} {s : σ} {i : ι} {is js : List ι}

theorem along_append : Along next A s (is ++ js) ↔
    Along next A s is ∧ Along next A (is.foldl next s) js := by
  induction is generalizing s with
  | nil => simp [Along]
  | cons i is ih => simp [Along, ih, and_assoc]

theorem Along.of_prefix (h : Along next A s is) (hjs : js <+: is) : Along next A s js := by
  obtain ⟨rest, rfl⟩ := hjs
  exact (along_append.mp h).1

theorem Along.imp (h : Along next A s is) (hAB : ∀ s i, A s i → B s i) : Along next B s is := by
  induction is generalizing s with
  | nil => trivial
  | cons i is ih => exact ⟨hAB s i h.1, ih h.2⟩

theorem Along.and (h : Along next A s is) (h' : Along next B s is) :
    Along next (fun s i => A s i ∧ B s i) s is := by
  induction is generalizing s with
  | nil => trivial
  | cons i is ih => exact ⟨⟨h.1, h'.1⟩, ih h.2 h'.2⟩

theorem Along.forall_mem {Q : ι → Prop} (h : Along next A s is) (hA : ∀ s i, A s i → Q i) :
    ∀ i ∈ is, Q i := by
  induction is generalizing s with
  | nil => simp
  | cons i is ih =>
    intro j hj
    rcases List.mem_cons.mp hj with rfl | hj
    · exact hA s j h.1
    · exact ih h.2 j hj

theorem Along.invariant (h : Along next A s is) (h₀ : P s)
    (hstep : ∀ s i, P s → A s i → P (next s i)) : P (is.foldl next s) := by
  induction is generalizing s with
  | nil => exact h₀
  | cons i is ih => exact ih h.2 (hstep s i h₀ h.1)

theorem le_foldl {μ : σ → ℕ} (hμ : ∀ s i, μ s ≤ μ (next s i)) (s : σ) (is : List ι) :
    μ s ≤ μ (is.foldl next s) := by
  induction is generalizing s with
  | nil => exact Nat.le_refl _
  | cons i is ih => exact Nat.le_trans (hμ s i) (ih (next s i))

/-- Invariant rule for runs in which a quantity that never falls stays below a bound. -/
theorem foldl_invariant_of_lt {μ : σ → ℕ} {bound : ℕ} (hμ : ∀ s i, μ s ≤ μ (next s i))
    (hlt : μ (is.foldl next s) < bound) (h₀ : P s)
    (hstep : ∀ s i, P s → μ (next s i) < bound → P (next s i)) : P (is.foldl next s) := by
  induction is generalizing s with
  | nil => exact h₀
  | cons i is ih =>
    exact ih hlt (hstep s i h₀ (Nat.lt_of_le_of_lt (le_foldl hμ _ is) hlt))

/-- Exactness rule for what each step shows, beside a reference that cannot
fail: `O` is right of a step exactly when the guard allows it, and an allowed
step keeps the relation `I` to the reference. -/
theorem forall_step_iff_meets {α ε τ : Type*} {step : τ → ι → Except ε τ} {G : τ → ι → Prop}
    {next : α → ι → α} {A : α → ι → Prop} {I : τ → α → Prop} {O : τ → α → ι → Prop} {t : τ} {a : α}
    (h₀ : I t a) (hA : Along next A a is)
    (hstep : ∀ t a i, I t a → A a i →
      (O t a i ↔ G t i) ∧ (G t i → ∀ t', step t i = .ok t' → I t' (next a i))) :
    (∀ done i, done ++ [i] <+: is → ∀ t', run step t done = .ok t' → O t' (done.foldl next a) i) ↔
      Meets step G t is := by
  induction is generalizing t a with
  | nil =>
    constructor
    · intro _
      trivial
    · intro _ done i hdone
      simp at hdone
  | cons j is ih =>
    have hj := hstep t a j h₀ hA.1
    constructor
    · intro hall
      have hfirst : G t j := hj.1.mp (hall [] j (by simp) t rfl)
      refine ⟨hfirst, fun t' ht' => (ih (hj.2 hfirst t' ht') hA.2).mp ?_⟩
      intro done i hdone t'' hrun
      apply hall (j :: done) i (List.cons_prefix_cons.mpr ⟨rfl, hdone⟩)
      rw [run_cons_ok ht', hrun]
    · rintro ⟨hfirst, hrest⟩ done i hdone t' hrun
      cases done with
      | nil =>
        cases hrun
        obtain ⟨rfl, -⟩ := List.cons_prefix_cons.mp hdone
        exact hj.1.mpr hfirst
      | cons k done =>
        obtain ⟨rfl, htail⟩ := List.cons_prefix_cons.mp hdone
        obtain ⟨u, hu, hrun⟩ := run_cons_eq_ok.mp hrun
        exact (ih (hj.2 hfirst u hu) hA.2).mpr (hrest u hu) done i htail t' hrun

theorem forall_history_concat {O : List ι → ι → Prop} :
    (∀ done j, done ++ [j] <+: is ++ [i] → O done j) ↔
      (∀ done j, done ++ [j] <+: is → O done j) ∧ O is i := by
  constructor
  · intro hO
    exact ⟨fun done j hdone => hO done j (hdone.trans (List.prefix_append _ _)),
      hO is i (List.prefix_refl _)⟩
  · intro hO done j hdone
    rcases List.prefix_concat_iff.mp hdone with heq | hold
    · obtain ⟨rfl, hj⟩ := List.append_inj' heq rfl
      cases hj
      exact hO.2
    · exact hO.1 done j hold

/-- Exactness rule for what each step shows after a history: where the invariant `I` holds, `O` is
right of a step exactly when `A` allows it, and an allowed step keeps the invariant. -/
theorem forall_history_iff {O A : List ι → ι → Prop} {I : List ι → Prop} (h₀ : I [])
    (hstep : ∀ done i, I done → (O done i ↔ A done i) ∧ (A done i → I (done ++ [i]))) :
    (∀ done i, done ++ [i] <+: is → O done i) ↔ ∀ done i, done ++ [i] <+: is → A done i := by
  suffices hall : ((∀ done i, done ++ [i] <+: is → O done i) ↔
      ∀ done i, done ++ [i] <+: is → A done i) ∧
      ((∀ done i, done ++ [i] <+: is → A done i) → I is) from hall.1
  induction is using List.reverseRecOn with
  | nil => exact ⟨by simp, fun _ => h₀⟩
  | append_singleton is i ih =>
    rw [forall_history_concat, forall_history_concat, ih.1]
    exact ⟨and_congr_right fun hA => (hstep is i (ih.2 hA)).1,
      fun hA => (hstep is i (ih.2 hA.1)).2 hA.2⟩

theorem along_of_forall (h : ∀ s i, A s i) : Along next A s is := by
  induction is generalizing s with
  | nil => trivial
  | cons i is ih => exact ⟨h s i, ih⟩

theorem forall_call_iff_meets {ε τ : Type*} {step : τ → ι → Except ε τ} {G : τ → ι → Prop}
    {I : τ → Prop} {O : τ → ι → Prop} {t : τ} (h₀ : I t)
    (hstep : ∀ t i, I t → (O t i ↔ G t i) ∧ (G t i → ∀ t', step t i = .ok t' → I t')) :
    (∀ done i, done ++ [i] <+: is → ∀ t', run step t done = .ok t' → O t' i) ↔
      Meets step G t is := by
  have hA : Along (fun (_ : Unit) (_ : ι) => ()) (fun _ _ => True) () is :=
    along_of_forall fun _ _ => trivial
  exact forall_step_iff_meets (I := fun t _ => I t) (O := fun t _ i => O t i) h₀ hA
    fun t _ i hI _ => hstep t i hI

end Total

end HighPerformance.FallibleRun
