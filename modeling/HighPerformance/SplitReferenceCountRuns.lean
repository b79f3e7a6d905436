import HighPerformance.SplitReferenceCount

/-!
# Runs of the stack with split reference counts

In a run of any threads, no step touches a node that is not in use, and the calls are those of one
stack. The external counts grow by one at most with each step, so the increment overflows in long
runs only. The count beside the null pointer is never reset.
-/

namespace HighPerformance.SplitReferenceCount
open FallibleRun CallHistory ThreadCounts

variable {τ T : Type}

/-- The pointer that a thread carries to its next exchange. -/
def carriedBy : SplitReferenceCountPc T → Option CountedNodePtr
  | .increase p | .unlink _ _ p | .release _ p | .deleteReleased _ p => some p
  | _ => none

/-- No external count anywhere is more than `k`. -/
structure Bounded (k : ℕ) (s : SplitReferenceCount τ T) : Prop where
  head : s.head.externalCount ≤ k
  next : ∀ ptr n, s.heap ptr = some n → n.next.externalCount ≤ k
  carried : ∀ t p, carriedBy (s.pc t) = some p → p.externalCount ≤ k

variable [DecidableEq τ]

section Bounds
variable {s s' : SplitReferenceCount τ T} {k ptr : ℕ} {t : τ} {pc : SplitReferenceCountPc T}
  {n : Option (CountedNode T)} {m : CountedNode T} {calls : List (StackCall T)}
  {head : CountedNodePtr} {event : List (τ × StackCall T)} {a : SplitReferenceCountAction τ T}

omit [DecidableEq τ] in
theorem bounded_init : Bounded 0 ({} : SplitReferenceCount τ T) := by
  constructor
  · exact le_rfl
  · rintro ptr n ⟨⟩
  · rintro t p ⟨⟩

omit [DecidableEq τ] in
theorem Bounded.mono (h : Bounded k s) {k' : ℕ} (hk : k ≤ k') : Bounded k' s :=
  ⟨h.head.trans hk, fun ptr n hn => (h.next ptr n hn).trans hk,
    fun t p hp => (h.carried t p hp).trans hk⟩

theorem carried_update (h : ∀ t p, carriedBy (s.pc t) = some p → p.externalCount ≤ k)
    (hpc : ∀ p, carriedBy pc = some p → p.externalCount ≤ k) :
    ∀ u p, carriedBy (Function.update s.pc t pc u) = some p → p.externalCount ≤ k := by
  intro u p hp
  by_cases hu : u = t
  · rw [hu, Function.update_self] at hp
    exact hpc p hp
  · rw [Function.update_of_ne hu] at hp
    exact h u p hp

theorem Bounded.goto (h : Bounded k s) (hpc : ∀ p, carriedBy pc = some p → p.externalCount ≤ k) :
    Bounded k (s.goto t pc) :=
  ⟨h.head, h.next, carried_update h.carried hpc⟩

theorem Bounded.edit (h : Bounded k s) (hn : ∀ m, n = some m → m.next.externalCount ≤ k)
    (hpc : ∀ p, carriedBy pc = some p → p.externalCount ≤ k) :
    Bounded k (s.edit t ptr n pc calls) := by
  refine ⟨h.head, ?_, carried_update h.carried hpc⟩
  intro q m hm
  change Function.update s.heap ptr n q = some m at hm
  by_cases hq : q = ptr
  · rw [hq, Function.update_self] at hm
    exact hn m hm
  · rw [Function.update_of_ne hq] at hm
    exact h.next q m hm

theorem Bounded.exchange (h : Bounded k s) (hhead : head.externalCount ≤ k)
    (hpc : ∀ p, carriedBy pc = some p → p.externalCount ≤ k) :
    Bounded k (s.exchange t head event pc calls) :=
  ⟨hhead, h.next, carried_update h.carried hpc⟩

omit [DecidableEq τ] in
theorem node_bind_eq_ok {f : CountedNode T → Except SplitReferenceCountFault (SplitReferenceCount τ T)}
    (hs : (s.node ptr >>= f) = .ok s') : ∃ m, s.heap ptr = some m ∧ f m = .ok s' := by
  unfold node at hs
  cases hm : s.heap ptr with
  | none =>
    rw [hm] at hs
    cases hs
  | some m =>
    rw [hm] at hs
    exact ⟨m, rfl, hs⟩

theorem Bounded.increase (h : Bounded k s) {oldHead : CountedNodePtr}
    (hpc : s.pc t = .increase oldHead) (hs : s.increase t oldHead = .ok s') :
    Bounded (k + 1) s' := by
  have hold : oldHead.externalCount ≤ k := h.carried t oldHead (by rw [hpc]; rfl)
  unfold SplitReferenceCount.increase at hs
  by_cases hlt : oldHead.externalCount < intMax
  · rw [if_pos hlt] at hs
    by_cases hcas : s.head = oldHead
    · rw [if_pos hcas] at hs
      obtain ⟨externalCount, ptr⟩ := oldHead
      cases ptr with
      | none =>
        cases hs
        exact (h.mono (Nat.le_succ k)).exchange (Nat.succ_le_succ hold) (by rintro p ⟨⟩)
      | some ptr =>
        cases hs
        exact (h.mono (Nat.le_succ k)).exchange (Nat.succ_le_succ hold) (by rintro p ⟨⟩)
    · rw [if_neg hcas] at hs
      cases hs
      refine (h.mono (Nat.le_succ k)).goto ?_
      rintro p ⟨⟩
      exact h.head.trans (Nat.le_succ k)
  · rw [if_neg hlt] at hs
    cases hs

theorem Bounded.release (h : Bounded k s) {oldHead : CountedNodePtr}
    (hpc : s.pc t = .release ptr oldHead) (hs : s.release t ptr oldHead = .ok s') :
    Bounded k s' := by
  obtain ⟨m, hm, hs⟩ := node_bind_eq_ok hs
  have hold : oldHead.externalCount ≤ k := h.carried t oldHead (by rw [hpc]; rfl)
  have hnext : ∀ m', some (m.add (-1)) = some m' → m'.next.externalCount ≤ k := by
    rintro m' ⟨⟩
    exact h.next ptr m hm
  split at hs
  · cases hs
    refine h.edit hnext ?_
    rintro p ⟨⟩
    exact hold
  · cases hs
    refine h.edit hnext ?_
    rintro p ⟨⟩
    exact hold

theorem Bounded.step (h : Bounded k s) (hs : s.step a = .ok s') : Bounded (k + 1) s' := by
  have h' := h.mono (Nat.le_succ k)
  unfold SplitReferenceCount.step at hs
  cases hpc : s.pc a.thread with
  | idle =>
    rw [hpc] at hs
    cases hpush : a.push with
    | none =>
      rw [hpush] at hs
      cases hs
      exact h'.goto (by rintro p ⟨⟩)
    | some call =>
      rw [hpush] at hs
      cases hs
      unfold SplitReferenceCount.push
      split
      · exact h'
      · refine h'.edit ?_ (by rintro p ⟨⟩)
        rintro m ⟨⟩
        exact Nat.zero_le _
  | loadNext data newNode =>
    rw [hpc] at hs
    obtain ⟨m, hm, hs⟩ := node_bind_eq_ok hs
    cases hs
    refine h'.edit ?_ (by rintro p ⟨⟩)
    rintro m' ⟨⟩
    exact h'.head
  | link data newNode =>
    rw [hpc] at hs
    obtain ⟨m, hm, hs⟩ := node_bind_eq_ok hs
    split at hs
    · cases hs
      exact h'.exchange (Nat.succ_le_succ (Nat.zero_le k)) (by rintro p ⟨⟩)
    · cases hs
      refine h'.edit ?_ (by rintro p ⟨⟩)
      rintro m' ⟨⟩
      exact h'.head
  | loadHead =>
    rw [hpc] at hs
    cases hs
    refine h'.goto ?_
    rintro p ⟨⟩
    exact h'.head
  | increase oldHead =>
    rw [hpc] at hs
    exact h.increase hpc hs
  | readNext ptr externalCount =>
    rw [hpc] at hs
    obtain ⟨m, hm, hs⟩ := node_bind_eq_ok hs
    cases hs
    refine h'.goto ?_
    rintro p ⟨⟩
    exact h'.next ptr m hm
  | unlink ptr externalCount next =>
    rw [hpc] at hs
    cases hs
    have hnext : next.externalCount ≤ k + 1 := h'.carried a.thread next (by rw [hpc]; rfl)
    unfold SplitReferenceCount.unlink
    split
    · exact h'.exchange hnext (by rintro p ⟨⟩)
    · refine h'.goto ?_
      rintro p ⟨⟩
      exact h'.head
  | swapData ptr externalCount =>
    rw [hpc] at hs
    obtain ⟨m, hm, hs⟩ := node_bind_eq_ok hs
    cases hs
    refine h'.edit ?_ (by rintro p ⟨⟩)
    rintro m' ⟨⟩
    exact h'.next ptr m hm
  | addCount ptr externalCount res =>
    rw [hpc] at hs
    obtain ⟨m, hm, hs⟩ := node_bind_eq_ok hs
    have hnext : ∀ m', some (m.add ((externalCount : ℤ) - 2)) = some m' →
        m'.next.externalCount ≤ k + 1 := by
      rintro m' ⟨⟩
      exact h'.next ptr m hm
    dsimp only at hs
    split at hs
    · cases hs
      exact h'.edit hnext (by rintro p ⟨⟩)
    · cases hs
      exact h'.edit hnext (by rintro p ⟨⟩)
  | deleteTaken ptr res =>
    rw [hpc] at hs
    obtain ⟨m, hm, hs⟩ := node_bind_eq_ok hs
    cases hs
    exact h'.edit (by rintro m' ⟨⟩) (by rintro p ⟨⟩)
  | release ptr oldHead =>
    rw [hpc] at hs
    exact h'.release hpc hs
  | deleteReleased ptr oldHead =>
    rw [hpc] at hs
    obtain ⟨m, hm, hs⟩ := node_bind_eq_ok hs
    cases hs
    refine h'.edit (by rintro m' ⟨⟩) ?_
    rintro p ⟨⟩
    exact h'.carried a.thread oldHead (by rw [hpc]; rfl)

end Bounds

section Runs
variable [Fintype τ] (actions : List (SplitReferenceCountAction τ T))

/-- A run that fails is longer than the largest `int`. -/
theorem run_good : (run step ({} : SplitReferenceCount τ T) actions = .error .overflow ∧
      intMax < actions.length) ∨
    ∃ s, run step ({} : SplitReferenceCount τ T) actions = .ok s ∧ Good s := by
  have hrun : (∃ s, run step ({} : SplitReferenceCount τ T) actions = .ok s ∧
        Good s ∧ Bounded actions.length s) ∨
      ∃ e, run step ({} : SplitReferenceCount τ T) actions = .error e ∧
        e = .overflow ∧ intMax < actions.length := by
    have hall : Meets step (fun _ _ => True) ({} : SplitReferenceCount τ T) actions :=
      meets_of_forall fun _ _ => trivial
    refine run_progress_history (Q := fun done s => Good s ∧ Bounded done.length s)
      (E := fun e => e = .overflow ∧ intMax < actions.length) ⟨good_init, bounded_init⟩ hall ?_
    intro done a s hprefix ⟨hgood, hbounded⟩ _
    rcases hgood.step a with ⟨hs, oldHead, hpc, hmax⟩ | ⟨s', hs, hgood'⟩
    · refine .inr ⟨_, hs, rfl, ?_⟩
      have hcount := hbounded.carried a.thread oldHead (by rw [hpc]; rfl)
      have hlen := hprefix.length_le
      rw [List.length_append, List.length_singleton] at hlen
      omega
    · refine .inl ⟨s', hs, hgood', ?_⟩
      rw [List.length_append, List.length_singleton]
      exact hbounded.step hs
  rcases hrun with ⟨s, hs, hgood, _⟩ | ⟨e, hs, rfl, hlen⟩
  · exact .inr ⟨s, hs, hgood⟩
  · exact .inl ⟨hs, hlen⟩

/-- No step touches a node that is not in use, and the calls that have taken effect are those of one
stack, which holds what is linked; a thread has been told of its calls what that stack answers. -/
theorem run_linearizable : (run step ({} : SplitReferenceCount τ T) actions = .error .overflow ∧
      intMax < actions.length) ∨
    ∃ s nodes, run step ({} : SplitReferenceCount τ T) actions = .ok s ∧ Chain s.heap s.head nodes ∧
      Replays StackCall.Effect [] s.history (nodes.map (·.2.2)) ∧
      ∀ t, callsOf t s.history = s.returned t ++ (s.pc t).pending s.heap := by
  refine (run_good actions).imp_right ?_
  rintro ⟨s, hs, nodes, status, h⟩
  exact ⟨s, nodes, hs, h.chain, h.replays, h.calls⟩

/-- Every node that was taken off is deleted once: when all calls have returned, the nodes in use are
those of the list. -/
theorem run_reclaims : (run step ({} : SplitReferenceCount τ T) actions = .error .overflow ∧
      intMax < actions.length) ∨
    ∃ s nodes, run step ({} : SplitReferenceCount τ T) actions = .ok s ∧ Chain s.heap s.head nodes ∧
      (nodes.map Prod.fst).Nodup ∧
      ((∀ t, s.pc t = .idle) → ∀ ptr, (s.heap ptr).isSome ↔ ptr ∈ nodes.map Prod.fst) := by
  refine (run_good actions).imp_right ?_
  rintro ⟨s, hs, nodes, status, h⟩
  exact ⟨s, nodes, hs, h.chain, h.nodup, h.isSome_iff⟩

end Runs

section EmptyPops
variable (t : τ) {s : SplitReferenceCount τ T} {k : ℕ}

/-- Thread `t` calls `pop` on its own `k` times. -/
def emptyPops (k : ℕ) : List (SplitReferenceCountAction τ T) := List.replicate (3 * k) { thread := t }

omit [DecidableEq τ] in
theorem emptyPops_add (j k : ℕ) :
    (emptyPops t (j + k) : List (SplitReferenceCountAction τ T)) = emptyPops t j ++ emptyPops t k := by
  rw [emptyPops, Nat.mul_add, List.replicate_add, emptyPops, emptyPops]

theorem step_loadHead (hpc : s.pc t = .idle) :
    s.step { thread := t } = .ok (s.goto t .loadHead) := by
  rw [SplitReferenceCount.step, hpc]

theorem step_increase (hpc : s.pc t = .loadHead) :
    s.step { thread := t } = .ok (s.goto t (.increase s.head)) := by
  rw [SplitReferenceCount.step, hpc]

theorem run_emptyPop (hpc : s.pc t = .idle) (rest : List (SplitReferenceCountAction τ T)) :
    ∃ s', s'.pc t = .increase s.head ∧ s'.head = s.head ∧
      run step s ({ thread := t } :: { thread := t } :: rest) = run step s' rest := by
  refine ⟨(s.goto t .loadHead).goto t (.increase s.head), Function.update_self .., rfl, ?_⟩
  rw [run_cons_ok (step_loadHead t hpc), run_cons_ok (step_increase t (Function.update_self ..))]
  rfl

theorem run_emptyPops_ok (k : ℕ) (hk : k ≤ intMax) :
    ∃ s, run step ({} : SplitReferenceCount τ T) (emptyPops t k) = .ok s ∧ s.pc t = .idle ∧
      s.head = ⟨k, none⟩ := by
  induction k with
  | zero => exact ⟨_, rfl, rfl, rfl⟩
  | succ k ih =>
    obtain ⟨s, hs, hpc, hhead⟩ := ih (Nat.le_of_succ_le hk)
    obtain ⟨s₂, hpc₂, hhead₂, hrun⟩ := run_emptyPop t hpc [{ thread := t }]
    rw [hhead] at hpc₂ hhead₂
    have hstep : s₂.step { thread := t } =
        .ok (s₂.exchange t ⟨k + 1, none⟩ [(t, .pop none)] .idle [.pop none]) := by
      rw [SplitReferenceCount.step, hpc₂]
      exact (if_pos hk).trans (if_pos hhead₂)
    have hcall : run step ({} : SplitReferenceCount τ T) (emptyPops t (k + 1)) =
        .ok (s₂.exchange t ⟨k + 1, none⟩ [(t, .pop none)] .idle [.pop none]) := by
      rw [emptyPops_add, run_append_ok hs]
      exact hrun.trans (run_cons_ok hstep)
    exact ⟨_, hcall, Function.update_self .., rfl⟩

/-- The count beside the null pointer is never reset: one call more than the largest `int`, on a stack
that was always empty, overflows. -/
theorem run_emptyPops_iff (k : ℕ) :
    run step ({} : SplitReferenceCount τ T) (emptyPops t k) = .error .overflow ↔ intMax < k := by
  constructor
  · intro herror
    by_contra hk
    obtain ⟨s, hs, _⟩ := run_emptyPops_ok (T := T) t k (Nat.le_of_not_lt hk)
    rw [hs] at herror
    cases herror
  · intro hk
    obtain ⟨s, hs, hpc, hhead⟩ := run_emptyPops_ok (T := T) t intMax le_rfl
    obtain ⟨j, rfl⟩ := Nat.exists_eq_add_of_lt hk
    rw [Nat.add_assoc, Nat.add_comm j, emptyPops_add, emptyPops_add, run_append_ok hs]
    obtain ⟨s₂, hpc₂, -, hrun⟩ := run_emptyPop t hpc ({ thread := t } :: emptyPops t j)
    refine hrun.trans (run_cons_error ?_)
    rw [SplitReferenceCount.step, hpc₂, hhead]
    exact if_neg (Nat.lt_irrefl _)

end EmptyPops

end HighPerformance.SplitReferenceCount
