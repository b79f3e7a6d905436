import HighPerformance.ThreadsafeQueueSteps
import HighPerformance.Types

/-!
# Runs of the queue with a lock at each end

Elements come out in the order in which they went in, whatever the threads do; the only step that
fails is the return of `try_pop` into a variable from an empty queue. No set of calls is stuck on the
mutexes.
-/

namespace HighPerformance.ThreadsafeQueue
open FallibleRun CallHistory

variable {τ T : Type} [DecidableEq τ] {s s' : ThreadsafeQueue τ T} {nodes : List (ℕ × T)} {t : τ}
  {dummy : ℕ}

theorem rep_init : Rep (init dummy : ThreadsafeQueue τ T) [] := by
  have hheap : (init dummy : ThreadsafeQueue τ T).heap dummy = some {} := by
    simp [ThreadsafeQueue.init]
  refine ⟨rfl, trivial, hheap, List.nodup_singleton _, fun t => ?_, fun t => ?_, fun t => ?_,
    List.nodup_nil, ?_, nofun, nofun, fun _ => trivial, .nil, fun _ => rfl⟩
  · exact iff_of_false nofun Bool.false_ne_true
  · exact iff_of_false nofun Bool.false_ne_true
  · exact iff_of_false nofun Bool.false_ne_true
  · intro a
    by_cases ha : a = dummy
    · rw [ha, hheap]
      exact iff_of_true rfl (.inl (List.mem_singleton_self _))
    · refine iff_of_false ?_ ?_
      · simp [ThreadsafeQueue.init, Function.update_of_ne ha]
      · rintro (hmem | ⟨t, ht⟩)
        · exact ha (List.mem_singleton.mp hmem)
        · cases ht

theorem run_cases (is : List (ThreadsafeQueueAction τ T)) :
    (∃ s nodes, run step (init dummy) is = .ok s ∧ Rep s nodes) ∨
      ∃ before t choice s, before ++ [.go t choice] <+: is ∧ run step (init dummy) before = .ok s ∧
        s.pc t = .returnNone true ∧ run step (init dummy) is = .error .nullDeref := by
  have hmeets : Meets step (fun _ _ => True) (init dummy : ThreadsafeQueue τ T) is :=
    meets_of_forall fun _ _ => trivial
  have hrun := run_progress_history (Q := fun before s => run step (init dummy) before = .ok s ∧
      ∃ nodes, Rep s nodes)
    (E := fun e => e = .nullDeref ∧ ∃ before t choice s, before ++ [.go t choice] <+: is ∧
      run step (init dummy) before = .ok s ∧ s.pc t = .returnNone true)
    ⟨rfl, [], rep_init⟩ hmeets ?_
  · rcases hrun with ⟨s, hs, -, nodes, h⟩ | ⟨e, he, rfl, before, t, choice, s, hprefix, hs, hpc⟩
    · exact .inl ⟨s, nodes, hs, h⟩
    · exact .inr ⟨before, t, choice, s, hprefix, hs, hpc, he⟩
  · rintro before i s hprefix ⟨hs, nodes, h⟩ -
    have hdone : ∀ {s'}, step s i = .ok s' → run step (init dummy) (before ++ [i]) = .ok s' := by
      intro s' hs'
      rw [run_append_ok hs, run_cons_ok hs', run_nil]
    cases i with
    | call t request address =>
      exact .inl ⟨_, rfl, hdone rfl, nodes, h.call t request address⟩
    | wake t => exact .inl ⟨_, rfl, hdone rfl, nodes, h.wake t⟩
    | go t choice =>
      rcases h.go t choice with ⟨hpc, he⟩ | ⟨s', hs', h'⟩
      · exact .inr ⟨_, he, rfl, before, t, choice, s, hprefix, hs, hpc⟩
      · exact .inl ⟨s', hs', hdone hs', _, h'⟩

/-- When no thread is in a call, the elements are in their nodes, and all other nodes are gone. -/
theorem Rep.at_rest (h : Rep s nodes) (hidle : ∀ t, s.pc t = .idle) :
    s.head = some (firstOf nodes s.tail) ∧ Links s.heap s.tail nodes ∧
      ∀ a, (s.heap a).isSome ↔ a ∈ nodes.map Prod.fst ++ [s.tail] := by
  refine ⟨?_, h.links, ?_⟩
  · have hfree : s.headMutex = none := by
      cases howner : s.headMutex with
      | none => rfl
      | some t =>
        have hholds := (h.headLock t).mp howner
        rw [hidle t] at hholds
        cases hholds
    have hfront := h.front
    rwa [ThreadsafeQueue.front, hfree] at hfront
  · intro a
    rw [h.inUse]
    refine or_iff_left ?_
    rintro ⟨t, ht⟩
    rw [hidle t] at ht
    cases ht

/-- Any interleaving of the steps goes well up to the return of a `try_pop` into a variable that has
found nothing. Until then the answers are those of one queue that is called once at a time, with
`wait_and_pop` called only when there is an element. -/
theorem run_fifo (is : List (ThreadsafeQueueAction τ T)) :
    (∃ s nodes, run step (init dummy) is = .ok s ∧
      Replays QueueEffect [] s.calls (nodes.map Prod.snd) ∧
      (∀ t, s.returned t <+: callsOf t s.calls) ∧
      (∀ t, s.pc t = .idle → s.returned t = callsOf t s.calls) ∧
      ((∀ t, s.pc t = .idle) → s.head = some (firstOf nodes s.tail) ∧ Links s.heap s.tail nodes ∧
        ∀ a, (s.heap a).isSome ↔ a ∈ nodes.map Prod.fst ++ [s.tail])) ∨
      ∃ before t choice s, before ++ [.go t choice] <+: is ∧ run step (init dummy) before = .ok s ∧
        s.pc t = .returnNone true ∧ run step (init dummy) is = .error .nullDeref := by
  refine (run_cases is).imp_left ?_
  rintro ⟨s, nodes, hs, h⟩
  refine ⟨s, nodes, hs, h.replays, ?_, ?_, h.at_rest⟩
  · intro t
    rw [h.answers t, told]
    exact List.prefix_append _ _
  · intro t ht
    rw [h.answers t, told, ht]
    exact (List.append_nil _).symm

/-! ### No deadlock -/

/-- The thread does not stay where it is. -/
def CanGo (s : ThreadsafeQueue τ T) (t : τ) : Prop := ∀ choice, s.go t choice ≠ .ok s

/-- Not in a call, or waiting for a notification. -/
def AtRest (pc : ThreadsafeQueuePc T) : Prop := pc = .idle ∨ ∃ into, pc = .asleep into

def locksNext : ThreadsafeQueuePc T → Bool
  | .lockTail _ _ | .lockHead _ | .lockSeen _ => true
  | _ => false

/-- From where to where a step takes its thread; `isEmpty` is what a comparison of the head with the
tail says. -/
inductive Follows (isEmpty : Bool) : ThreadsafeQueuePc T → ThreadsafeQueuePc T → Prop where
  | lockTail (newValue : T) (p : ℕ) : Follows isEmpty (.lockTail newValue p) (.setData newValue p)
  | setData (newValue : T) (p : ℕ) : Follows isEmpty (.setData newValue p) (.setNext newValue p)
  | setNext (newValue : T) (p : ℕ) : Follows isEmpty (.setNext newValue p) (.setTail newValue p)
  | setTail (newValue : T) (p : ℕ) : Follows isEmpty (.setTail newValue p) (.unlockTail newValue)
  | unlockTail (newValue : T) : Follows isEmpty (.unlockTail newValue) (.notify newValue)
  | notify (newValue : T) : Follows isEmpty (.notify newValue) .idle
  | lockHead (c : QueueCheck) : Follows isEmpty (.lockHead c) (.lockSeen c)
  | lockSeen (c : QueueCheck) : Follows isEmpty (.lockSeen c) (.readTail c)
  | readTail (c : QueueCheck) : Follows isEmpty (.readTail c) (.unlockSeen c isEmpty)
  | unlockSeen (c : QueueCheck) (b : Bool) : Follows isEmpty (.unlockSeen c b) (afterCheck c b)
  | readValue (k : QueuePop) (value : T) : Follows isEmpty (.readValue k) (.takeHead k (some value))
  | takeHead (k : QueuePop) (value : Option T) (head : ℕ) :
      Follows isEmpty (.takeHead k value) (.moveNext k value head)
  | moveNext (k : QueuePop) (value : Option T) (oldHead : ℕ) :
      Follows isEmpty (.moveNext k value oldHead) (.unlockHead k value oldHead)
  | unlockHead (k : QueuePop) (value : Option T) (oldHead : ℕ) :
      Follows isEmpty (.unlockHead k value oldHead) (.destroy k value oldHead)
  | destroy (k : QueuePop) (value : Option T) (oldHead : ℕ) :
      Follows isEmpty (.destroy k value oldHead) .idle
  | unlockNone (into : Bool) : Follows isEmpty (.unlockNone into) (.returnNone into)
  | returnNone (into : Bool) : Follows isEmpty (.returnNone into) .idle
  | sleep (into : Bool) : Follows isEmpty (.sleep into) (.asleep into)
  | unlockEmpty (b : Bool) : Follows isEmpty (.unlockEmpty b) .idle

theorem Follows.ne {isEmpty : Bool} {pc pc' : ThreadsafeQueuePc T} (h : Follows isEmpty pc pc') :
    pc' ≠ pc := by
  cases h with
  | unlockSeen c b =>
    refine afterCheck_cases c b (fun pc => pc ≠ .unlockSeen c b) ?_ ?_ ?_ ?_ ?_
    · nofun
    · nofun
    · nofun
    · nofun
    · nofun
  | _ => nofun

theorem pc_readTail {c : QueueCheck} :
    (s.readTail t c).pc = Function.update s.pc t (.unlockSeen c (decide (s.head = some s.tail))) := by
  unfold ThreadsafeQueue.readTail
  dsimp only
  cases decide (s.head = some s.tail) with
  | true =>
    cases c with
    | empty => rfl
    | pop k =>
      cases k with
      | tryPop into => rfl
      | waitAndPop into => rfl
  | false =>
    cases c with
    | empty => rfl
    | pop k =>
      cases k with
      | tryPop into => rfl
      | waitAndPop into => rfl

/-- A step leaves everything as it was, or takes its thread on; a notification wakes another thread
before. -/
theorem go_follows {choice : ℕ} (hgo : s.go t choice = .ok s') :
    (s' = s ∧ (locksNext (s.pc t) = true ∨ AtRest (s.pc t))) ∨
      ∃ pc, Follows (decide (s.head = some s.tail)) (s.pc t) pc ∧
        ((∀ newValue, s.pc t ≠ .notify newValue) ∧ s'.pc = Function.update s.pc t pc ∨
          ∃ newValue, s.pc t = .notify newValue ∧
            s' = (s.notifyOne choice).leave t (.push newValue, .returned)) := by
  unfold ThreadsafeQueue.go at hgo
  cases hpc : s.pc t with
  | idle =>
    rw [hpc] at hgo
    cases hgo
    exact .inl ⟨rfl, .inr (.inl rfl)⟩
  | asleep into =>
    rw [hpc] at hgo
    cases hgo
    exact .inl ⟨rfl, .inr (.inr ⟨into, rfl⟩)⟩
  | lockTail newValue p =>
    rw [hpc] at hgo
    cases hgo
    unfold ThreadsafeQueue.lockTail
    by_cases hlocked : s.tailMutex.isSome
    · rw [if_pos hlocked]
      exact .inl ⟨rfl, .inl rfl⟩
    · rw [if_neg hlocked]
      exact .inr ⟨_, .lockTail newValue p, .inl ⟨nofun, rfl⟩⟩
  | lockSeen c =>
    rw [hpc] at hgo
    cases hgo
    unfold ThreadsafeQueue.lockTail
    by_cases hlocked : s.tailMutex.isSome
    · rw [if_pos hlocked]
      exact .inl ⟨rfl, .inl rfl⟩
    · rw [if_neg hlocked]
      exact .inr ⟨_, .lockSeen c, .inl ⟨nofun, rfl⟩⟩
  | lockHead c =>
    rw [hpc] at hgo
    cases hgo
    unfold ThreadsafeQueue.lockHead
    by_cases hlocked : s.headMutex.isSome
    · rw [if_pos hlocked]
      exact .inl ⟨rfl, .inl rfl⟩
    · rw [if_neg hlocked]
      exact .inr ⟨_, .lockHead c, .inl ⟨nofun, rfl⟩⟩
  | setTail newValue p =>
    rw [hpc] at hgo
    cases hgo
    exact .inr ⟨_, .setTail newValue p, .inl ⟨nofun, rfl⟩⟩
  | unlockTail newValue =>
    rw [hpc] at hgo
    cases hgo
    exact .inr ⟨_, .unlockTail newValue, .inl ⟨nofun, rfl⟩⟩
  | notify newValue =>
    rw [hpc] at hgo
    cases hgo
    exact .inr ⟨_, .notify newValue, .inr ⟨newValue, rfl, rfl⟩⟩
  | setData newValue p =>
    rw [hpc] at hgo
    obtain ⟨n, -, hgo⟩ := bind_eq_ok.mp hgo
    cases hgo
    exact .inr ⟨_, .setData newValue p, .inl ⟨nofun, rfl⟩⟩
  | setNext newValue p =>
    rw [hpc] at hgo
    obtain ⟨n, -, hgo⟩ := bind_eq_ok.mp hgo
    cases hgo
    exact .inr ⟨_, .setNext newValue p, .inl ⟨nofun, rfl⟩⟩
  | readTail c =>
    rw [hpc] at hgo
    cases hgo
    exact .inr ⟨_, .readTail c, .inl ⟨nofun, pc_readTail⟩⟩
  | unlockSeen c isEmpty =>
    rw [hpc] at hgo
    cases hgo
    exact .inr ⟨_, .unlockSeen c isEmpty, .inl ⟨nofun, rfl⟩⟩
  | readValue k =>
    rw [hpc] at hgo
    obtain ⟨head, -, hgo⟩ := bind_eq_ok.mp hgo
    obtain ⟨n, -, hgo⟩ := bind_eq_ok.mp hgo
    obtain ⟨value, -, hgo⟩ := bind_eq_ok.mp hgo
    cases hgo
    exact .inr ⟨_, .readValue k value, .inl ⟨nofun, rfl⟩⟩
  | takeHead k value =>
    rw [hpc] at hgo
    obtain ⟨head, -, hgo⟩ := bind_eq_ok.mp hgo
    cases hgo
    exact .inr ⟨_, .takeHead k value head, .inl ⟨nofun, rfl⟩⟩
  | moveNext k value oldHead =>
    rw [hpc] at hgo
    obtain ⟨n, -, hgo⟩ := bind_eq_ok.mp hgo
    cases hgo
    exact .inr ⟨_, .moveNext k value oldHead, .inl ⟨nofun, rfl⟩⟩
  | unlockHead k value oldHead =>
    rw [hpc] at hgo
    cases hgo
    exact .inr ⟨_, .unlockHead k value oldHead, .inl ⟨nofun, rfl⟩⟩
  | destroy k value oldHead =>
    rw [hpc] at hgo
    obtain ⟨n, -, hgo⟩ := bind_eq_ok.mp hgo
    cases hgo
    exact .inr ⟨_, .destroy k value oldHead, .inl ⟨nofun, rfl⟩⟩
  | unlockNone into =>
    rw [hpc] at hgo
    cases hgo
    exact .inr ⟨_, .unlockNone into, .inl ⟨nofun, rfl⟩⟩
  | returnNone into =>
    rw [hpc] at hgo
    cases into with
    | true => cases hgo
    | false =>
      cases hgo
      exact .inr ⟨_, .returnNone false, .inl ⟨nofun, rfl⟩⟩
  | sleep into =>
    rw [hpc] at hgo
    cases hgo
    exact .inr ⟨_, .sleep into, .inl ⟨nofun, rfl⟩⟩
  | unlockEmpty isEmpty =>
    rw [hpc] at hgo
    cases hgo
    exact .inr ⟨_, .unlockEmpty isEmpty, .inl ⟨nofun, rfl⟩⟩

theorem canGo_of_not_locks (hcall : ¬AtRest (s.pc t)) (hlocks : locksNext (s.pc t) = false) :
    CanGo s t := by
  intro choice hgo
  rcases go_follows hgo with ⟨-, hlocks' | hrest⟩ | ⟨pc, hfollows, ⟨-, hpc⟩ | ⟨newValue, hpc, hs⟩⟩
  · cases hlocks.symm.trans hlocks'
  · exact hcall hrest
  · refine hfollows.ne ?_
    rw [hpc, Function.update_self]
  · have hidle : s.pc t = .idle := by
      rw [hs]
      exact Function.update_self ..
    cases hpc.symm.trans hidle

theorem Rep.canGo_tail (h : Rep s nodes) (howner : s.tailMutex = some t) : CanGo s t := by
  have hholds := (h.tailLock t).mp howner
  refine canGo_of_not_locks ?_ ?_
  · rintro (hpc | ⟨into, hpc⟩)
    · rw [hpc] at hholds
      cases hholds
    · rw [hpc] at hholds
      cases hholds
  · cases hpc : s.pc t with
    | lockTail newValue p | lockHead c | lockSeen c =>
      rw [hpc] at hholds
      cases hholds
    | _ => rfl

theorem Rep.canGo_lockTail (h : Rep s nodes) {pc : ThreadsafeQueuePc T} (hpc : pc ≠ s.pc t)
    (hgo : ∀ choice, s.go t choice = .ok (s.lockTail t pc)) : ∃ u, CanGo s u := by
  cases howner : s.tailMutex with
  | some u => exact ⟨u, h.canGo_tail howner⟩
  | none =>
    refine ⟨t, ?_⟩
    intro choice hs
    rw [hgo, Except.ok.injEq] at hs
    have hnext : (s.lockTail t pc).pc t = pc := by
      rw [ThreadsafeQueue.lockTail, howner]
      exact Function.update_self ..
    exact hpc (hnext.symm.trans (by rw [hs]))

theorem Rep.canGo_lockSeen (h : Rep s nodes) {c : QueueCheck} (hpc : s.pc t = .lockSeen c) :
    ∃ u, CanGo s u := by
  have hne : .readTail c ≠ s.pc t := by
    rw [hpc]
    nofun
  refine h.canGo_lockTail hne ?_
  intro choice
  rw [ThreadsafeQueue.go, hpc]

theorem Rep.canGo_head (h : Rep s nodes) (howner : s.headMutex = some t) : ∃ u, CanGo s u := by
  have hholds := (h.headLock t).mp howner
  cases hpc : s.pc t with
  | lockSeen c => exact h.canGo_lockSeen hpc
  | idle | asleep into =>
    rw [hpc] at hholds
    cases hholds
  | _ =>
    refine ⟨t, canGo_of_not_locks ?_ ?_⟩
    · rw [hpc]
      rintro (hidle | ⟨into, hasleep⟩)
      · cases hidle
      · cases hasleep
    · rw [hpc] at hholds ⊢
      first
      | rfl
      | cases hholds

/-- A thread in a call that does not sleep goes on, or waits for one that does. -/
theorem Rep.noDeadlock (h : Rep s nodes) (hcall : ¬AtRest (s.pc t)) : ∃ u, CanGo s u := by
  cases hpc : s.pc t with
  | lockTail newValue p =>
    have hne : .setData newValue p ≠ s.pc t := by
      rw [hpc]
      nofun
    refine h.canGo_lockTail hne ?_
    intro choice
    rw [ThreadsafeQueue.go, hpc]
  | lockSeen c => exact h.canGo_lockSeen hpc
  | lockHead c =>
    cases howner : s.headMutex with
    | some u => exact h.canGo_head howner
    | none =>
      refine ⟨t, ?_⟩
      intro choice hs
      rw [ThreadsafeQueue.go, hpc, Except.ok.injEq] at hs
      have hnext : (s.lockHead t (.lockSeen c)).pc t = .lockSeen c := by
        rw [ThreadsafeQueue.lockHead, howner]
        exact Function.update_self ..
      cases hpc.symm.trans ((congrArg (ThreadsafeQueue.pc · t) hs).symm.trans hnext)
  | _ =>
    refine ⟨t, canGo_of_not_locks hcall ?_⟩
    rw [hpc]
    rfl

/-- Whatever the threads do, they never wait for each other in a circle. -/
theorem run_noDeadlock (is : List (ThreadsafeQueueAction τ T)) :
    (∃ s, run step (init dummy) is = .ok s ∧ ∀ t, ¬AtRest (s.pc t) → ∃ u, CanGo s u) ∨
      ∃ before t choice s, before ++ [.go t choice] <+: is ∧ run step (init dummy) before = .ok s ∧
        s.pc t = .returnNone true ∧ run step (init dummy) is = .error .nullDeref := by
  refine (run_cases is).imp_left ?_
  rintro ⟨s, nodes, hs, h⟩
  exact ⟨s, hs, fun t hcall => h.noDeadlock hcall⟩

end HighPerformance.ThreadsafeQueue
