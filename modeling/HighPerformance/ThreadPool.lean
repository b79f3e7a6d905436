import HighPerformance.FallibleRun
import HighPerformance.Types
import Mathlib.Data.List.Nodup
import Mathlib.Data.Nat.Notation
import Mathlib.Logic.Function.Basic

/-!
# The thread pool

The parties of `threadpool` are the threads that call `async`, the `n` workers
that `init` has started, each running `spawn`, and the thread that calls
`terminate`. An action is what one of them does under a lock or between two
locks; a schedule is any sequence of actions that are possible when they are
taken. `cancel` is never called.

`async` tests `stop_` under one lock and puts the task into the queue under
another one. A worker that finds `stop_` set and the queue empty leaves.
-/

namespace HighPerformance
open FallibleRun

/-- The calls of `async`, one task each: `checked` is between the test and
`emplace`, `emplaced` before `notify_one`. -/
inductive AsyncCall where
  | idle | checked | rejected | emplaced | returned
  deriving DecidableEq

/-- A worker evaluates the predicate of `wait` when `ready`. `blocking` has found
it false and still holds `mtx_`, so that a notification does not reach it yet;
`waiting` has given the lock back. `woken` has left `wait` with what was popped,
`running` has passed the test behind it. -/
inductive Worker where
  | ready | blocking | waiting
  | woken (task : Option ℕ)
  | running (task : ℕ)
  | exited
  deriving DecidableEq

inductive Terminator where
  | idle | stopping | joining | joined
  deriving DecidableEq

structure ThreadPool (n : ℕ) where
  stop : Bool := false
  tasks : List ℕ := []
  calls : ℕ → AsyncCall := fun _ => .idle
  workers : Fin n → Worker := fun _ => .ready
  terminator : Terminator := .idle
  ran : List ℕ := []

/-- A call of `async` has the number of its task. -/
inductive PoolAction (n : ℕ) where
  | check (c : ℕ)
  | emplace (c : ℕ)
  | notifyOne (c : ℕ) (w : Option (Fin n))
  | evaluate (w : Fin n)
  | block (w : Fin n)
  | wake (w : Fin n)
  | test (w : Fin n)
  | run (w : Fin n)
  | setStop
  | notifyAll
  | join

/-- An action that is not possible. -/
inductive Blocked where
  | blocked
  deriving DecidableEq

namespace ThreadPool
variable {n : ℕ}

def setCall (s : ThreadPool n) (c : ℕ) (x : AsyncCall) : ThreadPool n :=
  { s with calls := Function.update s.calls c x }

def setWorker (s : ThreadPool n) (w : Fin n) (x : Worker) : ThreadPool n :=
  { s with workers := Function.update s.workers w x }

/-- No worker holds `mtx_`. -/
def Unlocked (s : ThreadPool n) : Prop := ∀ w, s.workers w ≠ .blocking

instance (s : ThreadPool n) : Decidable s.Unlocked :=
  inferInstanceAs (Decidable (∀ w, s.workers w ≠ .blocking))

def step (s : ThreadPool n) : PoolAction n → Except Blocked (ThreadPool n)
  -- `async`: the test under the read lock, `tasks_.emplace`, `notify_one` and the return
  | .check c =>
      if s.calls c = .idle ∧ s.Unlocked then .ok (s.setCall c (if s.stop then .rejected else .checked))
      else .error .blocked
  | .emplace c =>
      if s.calls c = .checked then .ok { s.setCall c .emplaced with tasks := s.tasks ++ [c] }
      else .error .blocked
  | .notifyOne c none =>
      if s.calls c = .emplaced ∧ ∀ w, s.workers w ≠ .waiting then .ok (s.setCall c .returned)
      else .error .blocked
  | .notifyOne c (some w) =>
      if s.calls c = .emplaced ∧ s.workers w = .waiting then
        .ok ((s.setCall c .returned).setWorker w .ready)
      else .error .blocked
  -- `spawn`: the predicate of `wait`, the release of the lock in it, a spurious wakeup,
  -- the test, the task
  | .evaluate w =>
      if s.workers w = .ready ∧ s.Unlocked then
        match s.tasks with
        | c :: rest => .ok { s.setWorker w (.woken (some c)) with tasks := rest }
        | [] => .ok (s.setWorker w (if s.stop then .woken none else .blocking))
      else .error .blocked
  | .block w =>
      if s.workers w = .blocking then .ok (s.setWorker w .waiting) else .error .blocked
  | .wake w =>
      if s.workers w = .waiting then .ok (s.setWorker w .ready) else .error .blocked
  | .test w =>
      match s.workers w with
      | .woken (some c) => .ok (s.setWorker w (.running c))
      | .woken none => if s.stop then .ok (s.setWorker w .exited) else .error .blocked
      | _ => .error .blocked
  | .run w =>
      match s.workers w with
      | .running c => .ok { s.setWorker w .ready with ran := s.ran ++ [c] }
      | _ => .error .blocked
  -- `terminate`
  | .setStop =>
      if s.terminator = .idle ∧ s.Unlocked then .ok { s with stop := true, terminator := .stopping }
      else .error .blocked
  | .notifyAll =>
      if s.terminator = .stopping then
        .ok { s with
          terminator := .joining
          workers := fun w => if s.workers w = .waiting then .ready else s.workers w }
      else .error .blocked
  | .join =>
      if s.terminator = .joining ∧ ∀ w, s.workers w = .exited then
        .ok { s with terminator := .joined }
      else .error .blocked

/-- A future has been returned for the task of call `c`, which nobody is left to run. -/
def LostCall (s : ThreadPool n) (c : ℕ) : Prop :=
  s.stop = true ∧ (∀ w, s.workers w = .exited) ∧ s.calls c = .returned ∧ c ∉ s.ran

instance (s : ThreadPool n) (c : ℕ) : Decidable (s.LostCall c) :=
  inferInstanceAs (Decidable (_ ∧ _ ∧ _ ∧ _))

def Lost (s : ThreadPool n) : Prop := ∃ c, s.LostCall c

end ThreadPool

namespace Worker

/-- The task that a worker holds. -/
def task : Worker → Option ℕ
  | .woken t => t
  | .running c => some c
  | _ => none

/-- The worker has found the queue empty after the stop. -/
def leaves : Worker → Prop
  | .woken none => True
  | .exited => True
  | _ => False

instance : DecidablePred leaves
  | .woken none => inferInstanceAs (Decidable True)
  | .exited => inferInstanceAs (Decidable True)
  | .woken (some _) => inferInstanceAs (Decidable False)
  | .ready => inferInstanceAs (Decidable False)
  | .blocking => inferInstanceAs (Decidable False)
  | .waiting => inferInstanceAs (Decidable False)
  | .running _ => inferInstanceAs (Decidable False)

end Worker

namespace ThreadPool
variable {n : ℕ}

/-- A task is put into the queue while some worker will still look there. -/
def ReachesWorker (s : ThreadPool n) : PoolAction n → Prop
  | .emplace _ => ∃ w, ¬(s.workers w).leaves
  | _ => True

instance (s : ThreadPool n) : ∀ a, Decidable (s.ReachesWorker a)
  | .emplace _ => inferInstanceAs (Decidable (∃ w, ¬(s.workers w).leaves))
  | .check _ | .notifyOne _ _ | .evaluate _ | .block _ | .wake _ | .test _ | .run _
  | .setStop | .notifyAll | .join => inferInstanceAs (Decidable True)

/-- The task of the call is in the queue, with a worker, or done. -/
def Accepted (s : ThreadPool n) (c : ℕ) : Prop := s.calls c = .emplaced ∨ s.calls c = .returned

/-- Each accepted task is at one place. -/
structure Placed (s : ThreadPool n) : Prop where
  tasks : s.tasks.Nodup
  ran : s.ran.Nodup
  held : ∀ w w' c, (s.workers w).task = some c → (s.workers w').task = some c → w = w'
  queued : ∀ c ∈ s.tasks, c ∉ s.ran ∧ ∀ w, (s.workers w).task ≠ some c
  done : ∀ w c, (s.workers w).task = some c → c ∉ s.ran
  accepted : ∀ c, s.Accepted c ↔ c ∈ s.tasks ∨ (∃ w, (s.workers w).task = some c) ∨ c ∈ s.ran

section Steps
variable {s s' : ThreadPool n} {a : PoolAction n}

/-- What an action does with tasks: nothing, or one of the three ways on which a
task goes from its caller to the queue, to a worker and to its end. A worker
begins to leave only over an empty queue. -/
inductive Moves (s s' : ThreadPool n) : PoolAction n → Prop where
  | quiet (a : PoolAction n) (tasks : s'.tasks = s.tasks) (ran : s'.ran = s.ran)
      (workers : ∀ w, (s'.workers w).task = (s.workers w).task)
      (leaving : s'.tasks = [] ∨ ∀ w, (s'.workers w).leaves → (s.workers w).leaves)
      (accepted : ∀ c, s'.Accepted c ↔ s.Accepted c) : Moves s s' a
  | enqueue (c : ℕ) (tasks : s'.tasks = s.tasks ++ [c]) (ran : s'.ran = s.ran)
      (workers : s'.workers = s.workers) (fresh : ¬s.Accepted c)
      (accepted : ∀ c', s'.Accepted c' ↔ c' = c ∨ s.Accepted c') : Moves s s' (.emplace c)
  | dequeue (w : Fin n) (c : ℕ) (tasks : s.tasks = c :: s'.tasks) (ran : s'.ran = s.ran)
      (task : (s.workers w).task = none)
      (workers : s'.workers = Function.update s.workers w (.woken (some c)))
      (calls : s'.calls = s.calls) : Moves s s' (.evaluate w)
  | finish (w : Fin n) (c : ℕ) (tasks : s'.tasks = s.tasks) (ran : s'.ran = s.ran ++ [c])
      (task : (s.workers w).task = some c)
      (workers : s'.workers = Function.update s.workers w .ready)
      (calls : s'.calls = s.calls) : Moves s s' (.run w)

theorem task_update {x : Worker} (w w' : Fin n) (h : x.task = (s.workers w).task) :
    (Function.update s.workers w x w').task = (s.workers w').task := by
  by_cases hw : w' = w
  · rw [hw, Function.update_self, h]
  · rw [Function.update_of_ne hw]

theorem leaves_update {x : Worker} (w w' : Fin n) (h : x.leaves → (s.workers w).leaves) :
    (Function.update s.workers w x w').leaves → (s.workers w').leaves := by
  by_cases hw : w' = w
  · rw [hw, Function.update_self]
    exact h
  · rw [Function.update_of_ne hw]
    exact id

theorem accepted_update {x : AsyncCall} (c c' : ℕ)
    (h : (x = .emplaced ∨ x = .returned) ↔ s.Accepted c) :
    (Function.update s.calls c x c' = .emplaced ∨ Function.update s.calls c x c' = .returned) ↔
      s.Accepted c' := by
  by_cases hc : c' = c
  · rw [hc, Function.update_self, h]
  · rw [Function.update_of_ne hc, Accepted]

theorem Moves.setCall {c : ℕ} {x : AsyncCall}
    (h : (x = .emplaced ∨ x = .returned) ↔ s.Accepted c) : Moves s (s.setCall c x) a := by
  apply Moves.quiet
  · rfl
  · rfl
  · exact fun _ => rfl
  · exact .inr fun _ => id
  · exact fun c' => accepted_update c c' h

theorem Moves.setWorker {w : Fin n} {x : Worker} (h : x.task = (s.workers w).task)
    (hleaves : s.tasks = [] ∨ (x.leaves → (s.workers w).leaves)) :
    Moves s (s.setWorker w x) a := by
  apply Moves.quiet
  · rfl
  · rfl
  · exact fun w' => task_update w w' h
  · exact hleaves.imp id fun h w' => leaves_update w w' h
  · exact fun _ => Iff.rfl

/-- A guarded action has been taken only if it was possible. -/
theorem guarded_eq_ok {p : Prop} [Decidable p] {t : ThreadPool n} :
    (if p then .ok t else .error .blocked : Except Blocked (ThreadPool n)) = .ok s' ↔
      p ∧ t = s' := by
  by_cases h : p
  · simp [h]
  · simp [h]

theorem emplace_moves {c : ℕ} (h : step s (.emplace c) = .ok s') :
    Moves s s' (.emplace c) := by
  obtain ⟨hc, rfl⟩ := guarded_eq_ok.mp h
  apply Moves.enqueue
  · rfl
  · rfl
  · rfl
  · simp [Accepted, hc]
  · intro c'
    by_cases he : c' = c
    · simp [Accepted, setCall, he]
    · simp [Accepted, setCall, he]

theorem notifyOne_moves {c : ℕ} {w : Option (Fin n)} (h : step s (.notifyOne c w) = .ok s') :
    Moves s s' (.notifyOne c w) := by
  cases w with
  | none =>
    obtain ⟨hc, rfl⟩ := guarded_eq_ok.mp h
    apply Moves.setCall
    simp [Accepted, hc.1]
  | some w =>
    obtain ⟨hc, rfl⟩ := guarded_eq_ok.mp h
    apply Moves.quiet
    · rfl
    · rfl
    · intro w'
      apply task_update
      change _ = (s.workers w).task
      rw [hc.2]
      rfl
    · exact .inr fun w' => leaves_update w w' False.elim
    · intro c'
      apply accepted_update
      simp [Accepted, hc.1]

theorem evaluate_moves {w : Fin n} (h : step s (.evaluate w) = .ok s') :
    Moves s s' (.evaluate w) := by
  simp only [step] at h
  split at h
  · next hw =>
    split at h
    · next c rest htasks =>
      cases h
      apply Moves.dequeue w c htasks
      · rfl
      · rw [hw.1]
        rfl
      · rfl
      · rfl
    · next htasks =>
      cases h
      apply Moves.setWorker
      · rw [hw.1]
        split <;> rfl
      · exact .inl htasks
  · cases h

theorem test_moves {w : Fin n} (h : step s (.test w) = .ok s') :
    Moves s s' (.test w) := by
  simp only [step] at h
  split at h
  · next c hw =>
    cases h
    apply Moves.setWorker
    · rw [hw]
      rfl
    · exact .inr False.elim
  · next hw =>
    obtain ⟨-, rfl⟩ := guarded_eq_ok.mp h
    apply Moves.setWorker
    · rw [hw]
      rfl
    · rw [hw]
      exact .inr id
  · cases h

theorem run_moves {w : Fin n} (h : step s (.run w) = .ok s') :
    Moves s s' (.run w) := by
  simp only [step] at h
  split at h
  · next c hw =>
    cases h
    apply Moves.finish w c
    · rfl
    · rfl
    · rw [hw]
      rfl
    · rfl
    · rfl
  · cases h

theorem notifyAll_moves (h : step s (.notifyAll) = .ok s') :
    Moves s s' (.notifyAll) := by
  obtain ⟨-, rfl⟩ := guarded_eq_ok.mp h
  apply Moves.quiet
  · rfl
  · rfl
  · intro w
    dsimp only
    split
    · next hw =>
      rw [hw]
      rfl
    · rfl
  · right
    intro w
    dsimp only
    split
    · exact False.elim
    · exact id
  · exact fun _ => Iff.rfl

theorem step_moves (h : step s a = .ok s') : Moves s s' a := by
  cases a with
  | check c =>
    obtain ⟨hc, rfl⟩ := guarded_eq_ok.mp h
    apply Moves.setCall
    split <;> simp [Accepted, hc.1]
  | emplace c => exact emplace_moves h
  | notifyOne c w => exact notifyOne_moves h
  | evaluate w => exact evaluate_moves h
  | block w =>
    obtain ⟨hw, rfl⟩ := guarded_eq_ok.mp h
    apply Moves.setWorker
    · rw [hw]
      rfl
    · exact .inr False.elim
  | wake w =>
    obtain ⟨hw, rfl⟩ := guarded_eq_ok.mp h
    apply Moves.setWorker
    · rw [hw]
      rfl
    · exact .inr False.elim
  | test w => exact test_moves h
  | run w => exact run_moves h
  | setStop =>
    obtain ⟨-, rfl⟩ := guarded_eq_ok.mp h
    exact .quiet _ rfl rfl (fun _ => rfl) (.inr fun _ => id) fun _ => Iff.rfl
  | notifyAll => exact notifyAll_moves h
  | join =>
    obtain ⟨-, rfl⟩ := guarded_eq_ok.mp h
    exact .quiet _ rfl rfl (fun _ => rfl) (.inr fun _ => id) fun _ => Iff.rfl

theorem placed_init : Placed ({} : ThreadPool n) := by
  constructor <;> simp [Accepted, Worker.task]

theorem Placed.quiet (hp : Placed s) (htasks : s'.tasks = s.tasks) (hran : s'.ran = s.ran)
    (hworkers : ∀ w, (s'.workers w).task = (s.workers w).task)
    (haccepted : ∀ c, s'.Accepted c ↔ s.Accepted c) : Placed s' := by
  constructor
  · rw [htasks]
    exact hp.tasks
  · rw [hran]
    exact hp.ran
  · simp only [hworkers]
    exact hp.held
  · simp only [htasks, hran, hworkers]
    exact hp.queued
  · simp only [hran, hworkers]
    exact hp.done
  · intro c
    simp only [haccepted, htasks, hran, hworkers]
    exact hp.accepted c

theorem Placed.enqueue {c : ℕ} (hp : Placed s) (htasks : s'.tasks = s.tasks ++ [c])
    (hran : s'.ran = s.ran) (hworkers : s'.workers = s.workers) (hnew : ¬s.Accepted c)
    (haccepted : ∀ c', s'.Accepted c' ↔ c' = c ∨ s.Accepted c') : Placed s' := by
  have hc := (not_congr (hp.accepted c)).mp hnew
  simp only [not_or, not_exists] at hc
  constructor
  · rw [htasks, ← List.concat_eq_append]
    exact List.Nodup.concat hc.1 hp.tasks
  · rw [hran]
    exact hp.ran
  · rw [hworkers]
    exact hp.held
  · intro c' hc'
    rw [htasks] at hc'
    rw [hran, hworkers]
    rcases List.mem_append.mp hc' with hc' | hc'
    · exact hp.queued c' hc'
    · rw [List.mem_singleton.mp hc']
      exact ⟨hc.2.2, hc.2.1⟩
  · rw [hran, hworkers]
    exact hp.done
  · intro c'
    rw [haccepted, hp.accepted, htasks, hran, hworkers, List.mem_append, List.mem_singleton]
    tauto

theorem Placed.dequeue {w : Fin n} {c : ℕ} (hp : Placed s) (htasks : s.tasks = c :: s'.tasks)
    (hran : s'.ran = s.ran) (hnone : (s.workers w).task = none)
    (hworkers : s'.workers = Function.update s.workers w (.woken (some c)))
    (hcalls : s'.calls = s.calls) : Placed s' := by
  have htask : ∀ w' c', (s'.workers w').task = some c' ↔
      if w' = w then c' = c else (s.workers w').task = some c' := by
    intro w' c'
    rw [hworkers]
    by_cases hw : w' = w
    · simp [hw, Worker.task, eq_comm]
    · simp [hw]
  have hnd := hp.tasks
  rw [htasks, List.nodup_cons] at hnd
  have hc := hp.queued c (by simp [htasks])
  constructor
  · exact hnd.2
  · rw [hran]
    exact hp.ran
  · intro w₁ w₂ c' h₁ h₂
    rw [htask] at h₁ h₂
    by_cases hw₁ : w₁ = w
    · rw [if_pos hw₁] at h₁
      by_cases hw₂ : w₂ = w
      · rw [hw₁, hw₂]
      · rw [if_neg hw₂, h₁] at h₂
        exact (hc.2 w₂ h₂).elim
    · rw [if_neg hw₁] at h₁
      by_cases hw₂ : w₂ = w
      · rw [if_pos hw₂] at h₂
        rw [h₂] at h₁
        exact (hc.2 w₁ h₁).elim
      · rw [if_neg hw₂] at h₂
        exact hp.held w₁ w₂ c' h₁ h₂
  · intro c' hc'
    have hold := hp.queued c' (by simp [htasks, hc'])
    rw [hran]
    refine ⟨hold.1, fun w' hw' => ?_⟩
    rw [htask] at hw'
    split at hw'
    · rw [hw'] at hc'
      exact hnd.1 hc'
    · exact hold.2 w' hw'
  · intro w' c' hw'
    rw [hran]
    rw [htask] at hw'
    split at hw'
    · rw [hw']
      exact hc.1
    · exact hp.done w' c' hw'
  · intro c'
    have hacc : s'.Accepted c' ↔ s.Accepted c' := by rw [Accepted, Accepted, hcalls]
    rw [hacc, hp.accepted, htasks, hran, List.mem_cons]
    simp only [htask]
    constructor
    · rintro ((rfl | hc') | ⟨w', hw'⟩ | hc')
      · exact .inr (.inl ⟨w, by simp⟩)
      · exact .inl hc'
      · refine .inr (.inl ⟨w', ?_⟩)
        rw [if_neg]
        · exact hw'
        · rintro rfl
          rw [hnone] at hw'
          cases hw'
      · exact .inr (.inr hc')
    · rintro (hc' | ⟨w', hw'⟩ | hc')
      · exact .inl (.inr hc')
      · split at hw'
        · exact .inl (.inl hw')
        · exact .inr (.inl ⟨w', hw'⟩)
      · exact .inr (.inr hc')

theorem Placed.finish {w : Fin n} {c : ℕ} (hp : Placed s) (htasks : s'.tasks = s.tasks)
    (hran : s'.ran = s.ran ++ [c]) (hsome : (s.workers w).task = some c)
    (hworkers : s'.workers = Function.update s.workers w .ready)
    (hcalls : s'.calls = s.calls) : Placed s' := by
  have htask : ∀ w' c', (s'.workers w').task = some c' ↔
      w' ≠ w ∧ (s.workers w').task = some c' := by
    intro w' c'
    rw [hworkers]
    by_cases hw : w' = w
    · simp [hw, Worker.task]
    · simp [hw]
  have hc := hp.done w c hsome
  constructor
  · rw [htasks]
    exact hp.tasks
  · rw [hran, ← List.concat_eq_append]
    exact List.Nodup.concat hc hp.ran
  · intro w₁ w₂ c' h₁ h₂
    exact hp.held w₁ w₂ c' ((htask _ _).mp h₁).2 ((htask _ _).mp h₂).2
  · intro c' hc'
    rw [htasks] at hc'
    have hold := hp.queued c' hc'
    rw [hran, List.mem_append, List.mem_singleton]
    constructor
    · rintro (hr | rfl)
      · exact hold.1 hr
      · exact hold.2 w hsome
    · intro w' hw'
      exact hold.2 w' ((htask _ _).mp hw').2
  · intro w' c' hw'
    obtain ⟨hne, hw'⟩ := (htask _ _).mp hw'
    rw [hran, List.mem_append, List.mem_singleton]
    rintro (hr | rfl)
    · exact hp.done w' c' hw' hr
    · exact hne (hp.held w' w c' hw' hsome)
  · intro c'
    have hacc : s'.Accepted c' ↔ s.Accepted c' := by rw [Accepted, Accepted, hcalls]
    rw [hacc, hp.accepted, htasks, hran, List.mem_append, List.mem_singleton]
    simp only [htask]
    constructor
    · rintro (hc' | ⟨w', hw'⟩ | hc')
      · exact .inl hc'
      · by_cases hw : w' = w
        · rw [hw, hsome, Option.some.injEq] at hw'
          exact .inr (.inr (.inr hw'.symm))
        · exact .inr (.inl ⟨w', hw, hw'⟩)
      · exact .inr (.inr (.inl hc'))
    · rintro (hc' | ⟨w', -, hw'⟩ | hc' | rfl)
      · exact .inl hc'
      · exact .inr (.inl ⟨w', hw'⟩)
      · exact .inr (.inr hc')
      · exact .inr (.inl ⟨w, hsome⟩)

/-- A task is at one place before and after every action. -/
theorem Placed.step (hp : Placed s) (h : step s a = .ok s') : Placed s' := by
  cases step_moves h with
  | quiet _ htasks hran hworkers _ haccepted => exact hp.quiet htasks hran hworkers haccepted
  | enqueue c htasks hran hworkers hnew haccepted =>
    exact hp.enqueue htasks hran hworkers hnew haccepted
  | dequeue w c htasks hran hnone hworkers hcalls =>
    exact hp.dequeue htasks hran hnone hworkers hcalls
  | finish w c htasks hran hsome hworkers hcalls =>
    exact hp.finish htasks hran hsome hworkers hcalls

/-- A task in the queue has a worker that will still look there. -/
def Attended (s : ThreadPool n) : Prop := s.tasks ≠ [] → ∃ w, ¬(s.workers w).leaves

theorem Attended.step (hs : s.Attended) (hg : s.ReachesWorker a) (h : step s a = .ok s') :
    s'.Attended := by
  intro hne
  cases step_moves h with
  | quiet _ htasks _ _ hleaving _ =>
    rcases hleaving with hempty | hleaving
    · exact (hne hempty).elim
    · rw [htasks] at hne
      obtain ⟨w, hw⟩ := hs hne
      exact ⟨w, fun h => hw (hleaving w h)⟩
  | enqueue c _ _ hworkers _ _ =>
    rw [hworkers]
    exact hg
  | dequeue w c _ _ _ hworkers _ =>
    exists w
    rw [hworkers, Function.update_self]
    exact id
  | finish w c _ _ _ hworkers _ =>
    exists w
    rw [hworkers, Function.update_self]
    exact id

theorem not_lost (hp : Placed s) (hs : s.Attended) : ¬s.Lost := by
  intro ⟨c, _, hexited, hc, hran⟩
  rcases (hp.accepted c).mp (.inr hc) with htasks | ⟨w, hw⟩ | hran'
  · obtain ⟨w, hw⟩ := hs (List.ne_nil_of_mem htasks)
    rw [hexited w] at hw
    exact hw trivial
  · rw [hexited w] at hw
    cases hw
  · exact hran hran'

theorem run_placed {schedule : List (PoolAction n)} (h : FallibleRun.run step {} schedule = .ok s) :
    Placed s :=
  run_invariant placed_init (meets_of_forall (G := fun _ _ => True) fun _ _ => trivial)
    (fun _ _ _ hp _ h => hp.step h) h

theorem run_attended {schedule : List (PoolAction n)}
    (hmeets : Meets step ReachesWorker {} schedule)
    (h : FallibleRun.run step {} schedule = .ok s) : s.Attended := by
  apply run_invariant _ hmeets (fun _ _ _ hs hg h => hs.step hg h) h
  intro hne
  exact (hne rfl).elim

end Steps

/-- On every schedule no task is run twice. No task is lost as long as `async`
puts its task into the queue while some worker has not begun to leave. -/
theorem run_keeps_tasks {schedule : List (PoolAction n)} {s : ThreadPool n}
    (h : FallibleRun.run step {} schedule = .ok s) :
    s.ran.Nodup ∧ (Meets step ReachesWorker {} schedule → ¬s.Lost) := by
  constructor
  · exact (run_placed h).ran
  · intro hmeets
    exact not_lost (run_placed h) (run_attended hmeets h)

/-- Two workers, one of them waiting when the first task comes; the second task
is accepted before the stop and run after it. -/
theorem run_keeps_two_tasks :
    ∃ s, FallibleRun.run step ({} : ThreadPool 2)
      [.evaluate 0, .block 0, .check 0, .check 1, .emplace 0, .notifyOne 0 (some 0), .setStop,
        .evaluate 0, .emplace 1, .notifyOne 1 none, .notifyAll, .evaluate 1, .test 1, .run 1,
        .test 0, .run 0] = .ok s ∧ s.ran.Nodup ∧ ¬s.Lost := by
  have hmeets : Meets step ReachesWorker ({} : ThreadPool 2)
      [.evaluate 0, .block 0, .check 0, .check 1, .emplace 0, .notifyOne 0 (some 0), .setStop,
        .evaluate 0, .emplace 1, .notifyOne 1 none, .notifyAll, .evaluate 1, .test 1, .run 1,
        .test 0, .run 0] := by decide
  have hok : (FallibleRun.run step ({} : ThreadPool 2)
      [.evaluate 0, .block 0, .check 0, .check 1, .emplace 0, .notifyOne 0 (some 0), .setStop,
        .evaluate 0, .emplace 1, .notifyOne 1 none, .notifyAll, .evaluate 1, .test 1, .run 1,
        .test 0, .run 0]).map (fun _ => ()) = .ok () := by decide
  obtain ⟨s, hrun, -⟩ := map_eq_ok hok
  have hkeeps := run_keeps_tasks hrun
  exact ⟨s, hrun, hkeeps.1, hkeeps.2 hmeets⟩

/-- One worker. The caller has passed the test of `stop_`; then the pool is
stopped, the worker finds the queue empty and leaves, and the task is put in. -/
theorem late_task_is_lost :
    ∃ s, FallibleRun.run step ({} : ThreadPool 1)
      [.check 0, .setStop, .evaluate 0, .test 0, .emplace 0, .notifyOne 0 none, .notifyAll,
        .join] = .ok s ∧ s.Lost := by
  have hlost : (FallibleRun.run step ({} : ThreadPool 1)
      [.check 0, .setStop, .evaluate 0, .test 0, .emplace 0, .notifyOne 0 none, .notifyAll,
        .join]).map (fun s => decide (s.LostCall 0)) = .ok true := by decide
  obtain ⟨s, hrun, hcall⟩ := map_eq_ok hlost
  exact ⟨s, hrun, 0, of_decide_eq_true hcall⟩

end ThreadPool

end HighPerformance
