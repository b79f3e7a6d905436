import HighPerformance.LockFreeStackSteps
import HighPerformance.Types

/-!
# Runs of the lock-free stack

Whatever the threads do, the hazard pointers keep every node that is used, and the stack gives back the
last element first. The scans do not keep this up: none comes to its end, for it deletes its first
node again. So a thread that takes its tenth element brings the program down.
-/

namespace HighPerformance.LockFreeStack
open FallibleRun CallHistory HazardPointer

variable {s s' : LockFreeStack} {nodes : List (ℕ × ℤ)} {t : ThreadId}

theorem rep_init : Rep {} [] := by
  refine ⟨rfl, List.nodup_nil, ?_, nofun, nofun, fun _ => List.nodup_nil, fun _ => rfl,
    fun _ => trivial, nofun, fun _ => ⟨rfl, Nat.succ_pos _, nofun⟩, .nil, fun _ => rfl⟩
  intro a
  refine iff_of_false Bool.false_ne_true ?_
  rintro (hmem | ⟨t, ht⟩)
  · cases hmem
  · cases ht

theorem run_cases (is : List LockFreeStackAction) :
    (∃ s nodes, run step {} is = .ok s ∧ Rep s nodes) ∨
      ∃ before t spurious s nodes, before ++ [.go t spurious] <+: is ∧
        run step {} before = .ok s ∧ Rep s nodes ∧ (s.pc t).toDelete ≠ [] ∧
        run step {} is = .error .doubleFree := by
  have hmeets : Meets step (fun _ _ => True) ({} : LockFreeStack) is :=
    meets_of_forall fun _ _ => trivial
  have hrun := run_progress_history (Q := fun before s => run step {} before = .ok s ∧
      ∃ nodes, Rep s nodes)
    (E := fun e => e = .doubleFree ∧ ∃ before t spurious s nodes,
      before ++ [.go t spurious] <+: is ∧ run step {} before = .ok s ∧ Rep s nodes ∧
      (s.pc t).toDelete ≠ [])
    ⟨rfl, [], rep_init⟩ hmeets ?_
  · rcases hrun with ⟨s, hs, -, nodes, h⟩ |
      ⟨e, he, rfl, before, t, spurious, s, nodes, hprefix, hs, h, hpc⟩
    · exact .inl ⟨s, nodes, hs, h⟩
    · exact .inr ⟨before, t, spurious, s, nodes, hprefix, hs, h, hpc, he⟩
  · rintro before i s hprefix ⟨hs, nodes, h⟩ -
    have hdone : ∀ {s'}, step s i = .ok s' → run step {} (before ++ [i]) = .ok s' := by
      intro s' hs'
      rw [run_append_ok hs, run_cons_ok hs', run_nil]
    cases i with
    | push t value address => exact .inl ⟨_, rfl, hdone rfl, nodes, h.beginPush t value address⟩
    | pop t => exact .inl ⟨_, rfl, hdone rfl, nodes, h.beginPop t⟩
    | go t spurious =>
      rcases h.go t spurious with ⟨hpc, he⟩ | ⟨s', nodes', hs', h'⟩
      · exact .inr ⟨_, he, rfl, before, t, spurious, s, nodes, hprefix, hs, h, hpc⟩
      · exact .inl ⟨s', hs', hdone hs', nodes', h'⟩

/-- When no thread is in a call, the nodes in use are those of the elements and those that wait for a
scan. -/
theorem Rep.at_rest (h : Rep s nodes) (hidle : ∀ t, s.pc t = .idle) :
    Links s.heap s.head nodes ∧
      ∀ a, (s.heap a).isSome ↔ a ∈ nodes.map Prod.fst ∨ ∃ t, a ∈ s.retiredList t := by
  refine ⟨h.links, ?_⟩
  intro a
  rw [h.inUse]
  refine or_congr_right (exists_congr fun t => ?_)
  rw [limbo, hidle t]
  exact Iff.of_eq (congrArg (a ∈ ·) (List.append_nil _))

/-- Any interleaving of the steps goes well up to the second turn of a scan after its first deletion.
Until then no thread uses a deleted node, the answers are those of one stack that is called once at a
time, and no thread has got back from ten calls that took an element. -/
theorem run_lifo (is : List LockFreeStackAction) :
    (∃ s nodes, run step {} is = .ok s ∧
      Replays LockFreeStackCall.Effect [] s.calls (nodes.map Prod.snd) ∧
      (∀ t, s.returned t <+: callsOf t s.calls) ∧
      (∀ t, s.pc t = .idle → s.returned t = callsOf t s.calls) ∧
      (∀ t, taken (s.returned t) < retireThreshold) ∧
      ((∀ t, s.pc t = .idle) → Links s.heap s.head nodes ∧
        ∀ a, (s.heap a).isSome ↔ a ∈ nodes.map Prod.fst ∨ ∃ t, a ∈ s.retiredList t)) ∨
      ∃ before t spurious s, before ++ [.go t spurious] <+: is ∧ run step {} before = .ok s ∧
        (s.pc t).toDelete ≠ [] ∧ run step {} is = .error .doubleFree := by
  rcases run_cases is with ⟨s, nodes, hs, h⟩ | ⟨before, t, spurious, s, nodes, hprefix, hs, h, hpc, he⟩
  · refine .inl ⟨s, nodes, hs, h.replays, ?_, ?_, fun t => (h.counts t).few, h.at_rest⟩
    · intro t
      rw [h.answers t, told]
      exact List.prefix_append _ _
    · intro t ht
      rw [h.answers t, told, ht]
      exact (List.append_nil _).symm
  · exact .inr ⟨before, t, spurious, s, hprefix, hs, hpc, he⟩

/-! ### No scan ends -/

def isGo (t : ThreadId) : LockFreeStackAction → Bool
  | .go u _ => u = t
  | _ => false

/-- A bound for the steps of a scan that are left. -/
def scanSteps : LockFreeStackPc → ℕ
  | .collect i _ _ => threads * hpMax - i + 1 + retireThreshold
  | .sweep _ _ rest _ _ _ => rest.length
  | _ => 0

section Others
variable {u : ThreadId} {spurious : Bool}

theorem deleteNodes_pc {nodes deleted : List ℕ} {x : LockFreeStack × List ℕ}
    (h : nodes.foldlM deleteNode (s, deleted) = .ok x) : x.1.pc = s.pc := by
  induction nodes generalizing s deleted with
  | nil =>
    cases h
    rfl
  | cons p rest ih =>
    rw [List.foldlM_cons] at h
    obtain ⟨y, hy, h⟩ := bind_eq_ok.mp h
    unfold deleteNode at hy
    by_cases hp : p ∈ deleted ∨ s.heap p = none
    · cases (if_pos hp).symm.trans hy
    · cases (if_neg hp).symm.trans hy
      have hpc := ih h
      exact hpc

theorem go_pc_other (hu : t ≠ u) (hgo : s.go u spurious = .ok s') : s'.pc t = s.pc t := by
  unfold LockFreeStack.go at hgo
  cases hpc : s.pc u with
  | idle =>
    rw [hpc] at hgo
    cases hgo
    rfl
  | pushLoad value newNode =>
    rw [hpc] at hgo
    obtain ⟨n, -, hgo⟩ := bind_eq_ok.mp hgo
    cases hgo
    exact goto_pc_other hu
  | pushCas value newNode =>
    rw [hpc] at hgo
    obtain ⟨n, -, hgo⟩ := bind_eq_ok.mp hgo
    by_cases hsame : s.head = n.next ∧ spurious = false
    · cases (if_pos hsame).symm.trans hgo
      exact goto_pc_other hu
    · cases (if_neg hsame).symm.trans hgo
      rfl
  | acquire i =>
    rw [hpc] at hgo
    cases hgo
    unfold LockFreeStack.acquire
    by_cases hmore : i < hpMax
    · rw [if_pos hmore]
      cases s.active (slot u + i) with
      | true => exact goto_pc_other hu
      | false => exact goto_pc_other hu
    · rw [if_neg hmore]
      exact goto_pc_other hu
  | popLoad hp | protect hp oldHead | clearPointer hp res =>
    rw [hpc] at hgo
    cases hgo
    exact goto_pc_other hu
  | validate hp oldHead =>
    rw [hpc] at hgo
    cases hgo
    unfold LockFreeStack.validate
    by_cases hsame : oldHead = s.head
    · rw [if_pos hsame]
      cases oldHead with
      | none => exact goto_pc_other hu
      | some a => exact goto_pc_other hu
    · rw [if_neg hsame]
      exact goto_pc_other hu
  | loadNext hp oldHead | loadData hp oldHead =>
    rw [hpc] at hgo
    obtain ⟨n, -, hgo⟩ := bind_eq_ok.mp hgo
    cases hgo
    exact goto_pc_other hu
  | popCas hp oldHead next =>
    rw [hpc] at hgo
    cases hgo
    unfold LockFreeStack.popCas
    by_cases hhead : s.head = some oldHead
    · rw [if_pos hhead]
      exact goto_pc_other hu
    · rw [if_neg hhead]
      exact goto_pc_other hu
  | clearActive hp res =>
    rw [hpc] at hgo
    cases hgo
    cases res with
    | empty | failed | popped => exact goto_pc_other hu
  | retire node value =>
    rw [hpc] at hgo
    cases hgo
    unfold LockFreeStack.retire
    by_cases hscan : retireThreshold ≤
        ((s.retires u (s.retiredList u ++ [node])).retiredList u).length
    · refine (if_pos hscan).symm ▸ ?_
      exact goto_pc_other hu
    · refine (if_neg hscan).symm ▸ ?_
      exact goto_pc_other hu
  | collect i protectedPtrs value =>
    rw [hpc] at hgo
    cases hgo
    unfold LockFreeStack.collect
    by_cases hmore : i < threads * hpMax
    · rw [if_pos hmore]
      exact goto_pc_other hu
    · rw [if_neg hmore]
      exact goto_pc_other hu
  | sweep protectedPtrs kept rest toDelete deleted value =>
    rw [hpc] at hgo
    cases rest with
    | nil =>
      cases hgo
      exact goto_pc_other hu
    | cons p rest =>
      by_cases hp : p ∈ protectedPtrs
      · obtain ⟨x, hx, hgo⟩ := bind_eq_ok.mp ((if_pos hp).symm.trans hgo)
        cases hgo
        exact (goto_pc_other hu).trans (congrFun (deleteNodes_pc hx) t)
      · obtain ⟨x, hx, hgo⟩ := bind_eq_ok.mp ((if_neg hp).symm.trans hgo)
        cases hgo
        exact (goto_pc_other hu).trans (congrFun (deleteNodes_pc hx) t)

end Others

/-- A scan cannot be interrupted by a call of its thread. -/
theorem Rep.scan_step {i : LockFreeStackAction} (h : Rep s nodes) (hscans : (s.pc t).scans = true)
    (hstep : step s i = .ok s') : (s'.pc t).scans = true ∧
      scanSteps (s'.pc t) + (isGo t i).toNat ≤ scanSteps (s.pc t) := by
  have hstays : s'.pc t = s.pc t → isGo t i = false → (s'.pc t).scans = true ∧
      scanSteps (s'.pc t) + (isGo t i).toNat ≤ scanSteps (s.pc t) := by
    intro hpc hother
    rw [hpc, hother]
    exact ⟨hscans, le_refl _⟩
  have hbusy : s.pc t ≠ .idle := by
    intro hidle
    rw [hidle] at hscans
    cases hscans
  cases i with
  | push u value address =>
    refine hstays ?_ rfl
    cases hstep
    unfold LockFreeStack.push
    cases hpc : s.pc u with
    | idle =>
      have hu : t ≠ u := by
        rintro rfl
        exact hbusy hpc
      by_cases hused : (s.heap address).isSome
      · refine (if_pos hused).symm ▸ ?_
        rfl
      · refine (if_neg hused).symm ▸ ?_
        exact goto_pc_other hu
    | _ => rfl
  | pop u =>
    refine hstays ?_ rfl
    cases hstep
    unfold LockFreeStack.pop
    cases hpc : s.pc u with
    | idle =>
      have hu : t ≠ u := by
        rintro rfl
        exact hbusy hpc
      exact goto_pc_other hu
    | _ => rfl
  | go u spurious =>
    by_cases hu : t = u
    · subst hu
      have hgo : isGo t (.go t spurious) = true := decide_eq_true rfl
      rw [hgo]
      change s.go t spurious = .ok s' at hstep
      unfold LockFreeStack.go at hstep
      cases hpc : s.pc t with
      | collect i protectedPtrs value =>
        rw [hpc] at hstep
        cases hstep
        unfold LockFreeStack.collect
        by_cases hmore : i < threads * hpMax
        · rw [if_pos hmore, goto_pc_self]
          refine ⟨rfl, ?_⟩
          change threads * hpMax - (i + 1) + 1 + retireThreshold + 1 ≤
            threads * hpMax - i + 1 + retireThreshold
          omega
        · rw [if_neg hmore, goto_pc_self]
          have hlength := (h.counts t).retired
          have hlast := (h.counts t).last hscans
          rw [hpc] at hlength
          have hten : (s.retiredList t).length = taken (s.returned t) + 1 := hlength
          refine ⟨rfl, ?_⟩
          change (s.retiredList t).length + 1 ≤ threads * hpMax - i + 1 + retireThreshold
          omega
      | sweep protectedPtrs kept rest toDelete deleted value =>
        rw [hpc] at hstep
        cases rest with
        | nil => exact (h.rest_ne_nil hpc rfl).elim
        | cons p rest =>
          by_cases hp : p ∈ protectedPtrs
          · obtain ⟨x, -, hstep⟩ := bind_eq_ok.mp ((if_pos hp).symm.trans hstep)
            cases hstep
            rw [goto_pc_self]
            exact ⟨rfl, le_refl _⟩
          · obtain ⟨x, -, hstep⟩ := bind_eq_ok.mp ((if_neg hp).symm.trans hstep)
            cases hstep
            rw [goto_pc_self]
            exact ⟨rfl, le_refl _⟩
      | _ =>
        rw [hpc] at hscans
        cases hscans
    · refine hstays (go_pc_other hu hstep) ?_
      exact decide_eq_false (Ne.symm hu)

/-- While a run goes well, a scan in it takes fewer steps than its bound. -/
theorem Rep.scan_run {js : List LockFreeStackAction} (h : Rep s nodes)
    (hscans : (s.pc t).scans = true) (hrun : run step s js = .ok s') :
    js.countP (isGo t) < scanSteps (s.pc t) := by
  induction js generalizing s nodes with
  | nil =>
    cases hpc : s.pc t with
    | collect i protectedPtrs value => exact Nat.lt_of_lt_of_le (Nat.succ_pos _) (Nat.le_add_right ..)
    | sweep protectedPtrs kept rest toDelete deleted value =>
      exact List.length_pos_of_ne_nil (h.rest_ne_nil hpc)
    | _ =>
      rw [hpc] at hscans
      cases hscans
  | cons i js ih =>
    obtain ⟨s₁, hs₁, hrun⟩ := run_cons_eq_ok.mp hrun
    obtain ⟨hscans₁, hsteps⟩ := h.scan_step hscans hs₁
    have hrep : ∃ nodes₁, Rep s₁ nodes₁ := by
      cases i with
      | push u value address =>
        cases hs₁
        exact ⟨nodes, h.beginPush u value address⟩
      | pop u =>
        cases hs₁
        exact ⟨nodes, h.beginPop u⟩
      | go u spurious =>
        rcases h.go u spurious with ⟨-, he⟩ | ⟨s₂, nodes₂, hs₂, h₂⟩
        · cases he.symm.trans hs₁
        · cases hs₂.symm.trans hs₁
          exact ⟨nodes₂, h₂⟩
    obtain ⟨nodes₁, h₁⟩ := hrep
    have hcount := ih h₁ hscans₁ hrun
    rw [List.countP_cons]
    cases hgo : isGo t i with
    | true =>
      rw [hgo] at hsteps
      exact Nat.lt_of_lt_of_le (Nat.succ_lt_succ hcount) hsteps
    | false =>
      rw [hgo] at hsteps
      exact Nat.lt_of_lt_of_le hcount hsteps

/-- A thread that has begun a scan, as it does when it retires its tenth node, deletes a node twice
after few more of its steps, whatever the other threads do meanwhile. -/
theorem run_scanFails {is js : List LockFreeStackAction} (hs : run step {} is = .ok s)
    (hscans : (s.pc t).scans = true)
    (hjs : threads * hpMax + 1 + retireThreshold ≤ js.countP (isGo t)) :
    run step {} (is ++ js) = .error .doubleFree := by
  rcases run_cases is with ⟨s₁, nodes, hs₁, h⟩ | ⟨-, -, -, -, -, -, -, -, -, he⟩
  · cases hs.symm.trans hs₁
    rcases run_cases (is ++ js) with ⟨s', -, hs', -⟩ | ⟨-, -, -, -, -, -, -, -, -, he⟩
    · rw [run_append_ok hs] at hs'
      have hbound : scanSteps (s.pc t) ≤ threads * hpMax + 1 + retireThreshold := by
        cases hpc : s.pc t with
        | collect i protectedPtrs value =>
          change threads * hpMax - i + 1 + retireThreshold ≤ _
          omega
        | sweep protectedPtrs kept rest toDelete deleted value =>
          have hok : s.PcOk t (.sweep protectedPtrs kept rest toDelete deleted value) := hpc ▸ h.pcOk t
          have hlength := (h.counts t).retired
          have hlast := (h.counts t).last hscans
          rw [hpc, hok.2.2.1, List.length_append] at hlength
          have hsum : kept.length + rest.length + toDelete.length = taken (s.returned t) + 1 := hlength
          change rest.length ≤ _
          omega
        | _ => exact Nat.zero_le _
      exact (Nat.lt_irrefl _ ((h.scan_run hscans hs').trans_le (hbound.trans hjs))).elim
    · exact he
  · cases hs.symm.trans he

def firstThread : ThreadId := ⟨0, by decide⟩

/-- A thread puts ten elements in and takes each of them out again. -/
def tenPops : List LockFreeStackAction :=
  (List.range retireThreshold).flatMap fun i =>
    [.push firstThread i i, .go firstThread false, .go firstThread false, .pop firstThread] ++
      List.replicate 10 (.go firstThread false)

theorem tenPops_scanFails : ∃ s, run step {} tenPops = .ok s ∧ (s.pc firstThread).scans = true ∧
    run step {} (tenPops ++ List.replicate 19 (.go firstThread false)) = .error .doubleFree := by
  have hscans : ((run step {} tenPops).toOption.map fun s => (s.pc firstThread).scans) = some true := by
    decide +kernel
  cases hs : run step {} tenPops with
  | error e =>
    rw [hs] at hscans
    cases hscans
  | ok s =>
    rw [hs] at hscans
    have hpc : (s.pc firstThread).scans = true := Option.some.inj hscans
    exact ⟨s, rfl, hpc, run_scanFails hs hpc (by decide)⟩

end HighPerformance.LockFreeStack
