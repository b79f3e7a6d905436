import HighPerformance.ThreadCounts
import HighPerformance.ThreadsafeQueueRuns

/-!
# Wake-ups of the queue with a lock at each end

`push` notifies without the lock of the head. A thread in `wait_and_pop` that has found the queue
empty and does not sleep yet misses such a notification. If no notification comes between a check and
the sleep, then as long as somebody sleeps there are no more elements than notifications still to come
and threads on their way to an element. Otherwise a thread may sleep beside an element for ever.
-/

namespace HighPerformance.ThreadsafeQueue
open FallibleRun CallHistory ThreadCounts

variable {τ T : Type} [DecidableEq τ] {s s' : ThreadsafeQueue τ T} {nodes nodes' : List (ℕ × T)}
  {t u : τ} {dummy choice : ℕ} {pc : ThreadsafeQueuePc T}

def waits : QueueCheck → Bool
  | .pop (.waitAndPop _) => true
  | _ => false

/-- The thread has found the queue empty and is on its way to sleep. -/
def fallsAsleep : ThreadsafeQueuePc T → Bool
  | .unlockSeen c isEmpty => waits c && isEmpty
  | .sleep _ => true
  | _ => false

/-- The thread will notify, or take an element, or find that there is none. -/
def promises : ThreadsafeQueuePc T → Bool
  | .unlockTail _ | .notify _ => true
  | .lockHead c | .lockSeen c | .readTail c => waits c
  | .unlockSeen c isEmpty => waits c && !isEmpty
  | .readValue k | .takeHead k _ | .moveNext k _ _ => waits (.pop k)
  | _ => false

def promise (pc : ThreadsafeQueuePc T) : Option Unit := if promises pc then some () else none

section Counts
variable [Fintype τ]

def promised (s : ThreadsafeQueue τ T) : ℕ := count (promise ∘ s.pc) ()

theorem promised_update (hpc : s'.pc = Function.update s.pc t pc) :
    promised s' + (promises (s.pc t)).toNat = promised s + (promises pc).toNat := by
  have hcount := count_update (promise ∘ s.pc) t (promise pc) ()
  rw [← Function.comp_update, ← hpc] at hcount
  have htoNat : ∀ pc : ThreadsafeQueuePc T,
      (if promise pc = some () then 1 else 0) = (promises pc).toNat := by
    intro pc
    unfold promise
    cases promises pc with
    | true => rfl
    | false => rfl
  rw [Function.comp_apply, htoNat, htoNat] at hcount
  exact hcount

/-- As long as a thread sleeps or is about to, each element is promised. -/
def Promised (s : ThreadsafeQueue τ T) (nodes : List (ℕ × T)) : Prop :=
  (∃ t, fallsAsleep (s.pc t) = true ∨ (s.pc t).isAsleep = true) → nodes.length ≤ promised s

theorem Promised.update (h : Promised s nodes) (hpc : s'.pc = Function.update s.pc t pc)
    (hlength : nodes'.length + (promises (s.pc t)).toNat ≤ nodes.length + (promises pc).toNat)
    (hsleeps : fallsAsleep pc = true ∨ pc.isAsleep = true →
      fallsAsleep (s.pc t) = true ∨ (s.pc t).isAsleep = true) : Promised s' nodes' := by
  rintro ⟨u, hu⟩
  have hcount := promised_update hpc
  have hbound : nodes.length ≤ promised s := by
    by_cases hut : u = t
    · rw [hut, hpc, Function.update_self] at hu
      exact h ⟨t, hsleeps hu⟩
    · rw [hpc, Function.update_of_ne hut] at hu
      exact h ⟨u, hu⟩
  omega

omit [DecidableEq τ] in
theorem Promised.nil : Promised s [] := fun _ => Nat.zero_le _

theorem Promised.wake (h : Promised s nodes) (u : τ) : Promised (s.wake u) nodes := by
  cases hpc : s.pc u with
  | asleep into =>
    have hpcs : (s.wake u).pc = Function.update s.pc u (.lockHead (.pop (.waitAndPop into))) := by
      rw [ThreadsafeQueue.wake, hpc]
      rfl
    refine h.update hpcs ?_ nofun
    rw [hpc]
    exact Nat.le_succ _
  | _ =>
    rw [ThreadsafeQueue.wake, hpc]
    exact h

/-- A notification wakes a thread that takes over the promise, or there is nobody to promise anything
to. -/
theorem Promised.notify (h : Promised s nodes) (hrep : Rep s nodes) {x : T}
    (hpc : s.pc t = .notify x) (hawake : ∀ u, fallsAsleep (s.pc u) = false) :
    Promised ((s.notifyOne choice).leave t (.push x, .returned)) nodes := by
  have hleave : ∀ {s : ThreadsafeQueue τ T}, (s.leave t (.push x, .returned)).pc =
      Function.update s.pc t .idle := rfl
  unfold notifyOne
  cases hchoice : s.dataCond[choice % s.dataCond.length]? with
  | none =>
    have hnobody : s.dataCond = [] := by
      by_contra hne
      have hlt := Nat.mod_lt choice (List.length_pos_iff.mpr hne)
      rw [List.getElem?_eq_getElem hlt] at hchoice
      cases hchoice
    rintro ⟨v, hv⟩
    by_cases hvt : v = t
    · rw [hvt, hleave, Function.update_self] at hv
      rcases hv with hv | hv
      · cases hv
      · cases hv
    · rw [hleave, Function.update_of_ne hvt, hawake v, ← hrep.cond, hnobody] at hv
      rcases hv with hv | hv
      · cases hv
      · cases hv
  | some u =>
    have hasleep : (s.pc u).isAsleep = true := (hrep.cond u).mp (List.mem_of_getElem? hchoice)
    obtain ⟨into, hu⟩ : ∃ into, s.pc u = .asleep into := by
      cases hu : s.pc u with
      | asleep into => exact ⟨into, rfl⟩
      | _ =>
        rw [hu] at hasleep
        cases hasleep
    have hut : t ≠ u := by
      rintro rfl
      cases hpc.symm.trans hu
    have hwake : (s.wake u).pc = Function.update s.pc u (.lockHead (.pop (.waitAndPop into))) := by
      rw [ThreadsafeQueue.wake, hu]
      rfl
    have hwoken := promised_update hwake
    have hleft := promised_update (hleave (s := s.wake u))
    rw [hu] at hwoken
    rw [pc_wake_other hut, hpc] at hleft
    have hsame : promised ((s.wake u).leave t (.push x, .returned)) = promised s := by
      change promised (s.wake u) + 0 = promised s + 1 at hwoken
      change _ + 1 = promised (s.wake u) + 0 at hleft
      omega
    rintro -
    rw [hsame]
    exact h ⟨u, .inr hasleep⟩

/-- Each step keeps the promises; one that finds the queue empty has nothing to keep. -/
theorem Promised.go (h : Promised s nodes) (hrep : Rep s nodes) (hgo : s.go t choice = .ok s')
    (hguard : ∀ x, s.pc t = .notify x → ∀ u, fallsAsleep (s.pc u) = false) :
    Promised s' (nodesAfter s nodes (s.pc t)) := by
  rcases go_follows hgo with ⟨rfl, hstays⟩ | ⟨pc, hfollows, ⟨hnot, hpc⟩ | ⟨newValue, hpc, rfl⟩⟩
  · have hsame : nodesAfter s' nodes (s'.pc t) = nodes := by
      rcases hstays with hlocks | hidle | ⟨into, hasleep⟩
      · cases hpc : s'.pc t with
        | setTail newValue p | moveNext k value oldHead =>
          rw [hpc] at hlocks
          cases hlocks
        | _ => rfl
      · rw [hidle]
        rfl
      · rw [hasleep]
        rfl
    rw [hsame]
    exact h
  · generalize hpc₀ : s.pc t = pc₀ at hfollows
    have hok := hrep.pcOk t
    rw [hpc₀] at hok
    cases hfollows with
    | notify newValue => exact (hnot newValue hpc₀).elim
    | setTail newValue p =>
      refine h.update hpc ?_ nofun
      rw [hpc₀]
      simp [nodesAfter, promises]
    | moveNext k value oldHead =>
      obtain ⟨-, x, rest, rfl, -⟩ := hok
      refine h.update hpc ?_ nofun
      rw [hpc₀]
      exact Nat.add_le_add_left (Bool.toNat_le _) rest.length
    | readTail c =>
      cases hempty : decide (s.head = some s.tail) with
      | true =>
        have hhead := hrep.head_eq (t := t) (by rw [hpc₀]; rfl) (by rw [hpc₀]; rfl)
        rw [decide_eq_true_iff, hhead, Option.some.injEq, hrep.first_eq_tail] at hempty
        rw [hempty]
        exact Promised.nil
      | false =>
        rw [hempty] at hpc
        refine h.update hpc ?_ ?_
        · rw [hpc₀]
          simp [nodesAfter, promises]
        · simp [fallsAsleep, ThreadsafeQueuePc.isAsleep]
    | unlockSeen c b =>
      refine h.update hpc ?_ ?_
      · rw [hpc₀]
        refine Nat.add_le_add_left (Nat.le_of_eq (congrArg Bool.toNat ?_)) _
        refine afterCheck_cases c b (fun pc => promises (.unlockSeen c b) = promises pc) ?_ ?_ ?_ ?_ ?_
        · rintro into rfl rfl
          rfl
        · rintro into rfl rfl
          rfl
        · rintro k rfl rfl
          exact Bool.and_true _
        · rintro k rfl rfl
          exact Bool.and_true _
        · rintro rfl
          rfl
      · rw [hpc₀]
        refine afterCheck_cases c b (fun pc => fallsAsleep pc = true ∨ pc.isAsleep = true → _) ?_ ?_ ?_
          ?_ ?_
        · nofun
        · rintro into rfl rfl -
          exact .inl rfl
        · nofun
        · nofun
        · nofun
    | sleep into =>
      refine h.update hpc ?_ ?_
      · rw [hpc₀]
        exact Nat.le_refl _
      · rw [hpc₀]
        exact fun _ => .inl rfl
    | _ =>
      refine h.update hpc ?_ nofun
      rw [hpc₀]
      exact Nat.le_refl _
  · rw [hpc]
    exact h.notify hrep hpc (hguard newValue hpc)

def notifies : ThreadsafeQueuePc T → Bool
  | .notify _ => true
  | _ => false

/-- No notification comes between a check and the sleep. -/
def NotifiesInTime (s : ThreadsafeQueue τ T) : ThreadsafeQueueAction τ T → Prop
  | .go t _ => notifies (s.pc t) = true → ∀ u, fallsAsleep (s.pc u) = false
  | _ => True

instance (s : ThreadsafeQueue τ T) : ∀ i, Decidable (NotifiesInTime s i)
  | .go t _ =>
      inferInstanceAs (Decidable (notifies (s.pc t) = true → ∀ u, fallsAsleep (s.pc u) = false))
  | .call _ _ _ | .wake _ => inferInstanceAs (Decidable True)

theorem Promised.step {i : ThreadsafeQueueAction τ T} (h : Promised s nodes) (hrep : Rep s nodes)
    (hguard : NotifiesInTime s i) (hs : s.step i = .ok s') :
    ∃ nodes, Rep s' nodes ∧ Promised s' nodes := by
  cases i with
  | call t request address =>
    cases hs
    refine ⟨nodes, hrep.call t request address, ?_⟩
    unfold ThreadsafeQueue.call
    cases hpc : s.pc t with
    | idle =>
      cases request with
      | push newValue =>
        change Promised (if (s.heap address).isSome then s else _) nodes
        by_cases hused : (s.heap address).isSome
        · rw [if_pos hused]
          exact h
        · rw [if_neg hused]
          have hpcs : ((s.set address (some {})).goto t (.lockTail newValue address)).pc =
              Function.update s.pc t (.lockTail newValue address) := rfl
          refine h.update hpcs ?_ nofun
          rw [hpc]
          exact Nat.le_refl _
      | check c =>
        have hpcs : (s.goto t (.lockHead c)).pc = Function.update s.pc t (.lockHead c) := rfl
        refine h.update hpcs ?_ nofun
        rw [hpc]
        exact Nat.le_add_right _ _
    | _ => exact h
  | wake t =>
    cases hs
    exact ⟨nodes, hrep.wake t, h.wake t⟩
  | go t choice =>
    rcases hrep.go t choice with ⟨-, he⟩ | ⟨u, hu, hrep'⟩
    · cases hs.symm.trans he
    · cases hs.symm.trans hu
      refine ⟨_, hrep', h.go hrep hs ?_⟩
      intro x hx
      exact hguard (by rw [hx]; rfl)

/-- In time means that no element is forgotten: once all threads are at rest and one of them sleeps,
the queue is empty. -/
theorem run_wakes {is : List (ThreadsafeQueueAction τ T)}
    (hmeets : Meets step NotifiesInTime (init dummy) is) (hok : run step (init dummy) is = .ok s) :
    ∃ xs, Replays QueueEffect [] s.calls xs ∧
      ((∃ t into, s.pc t = .asleep into) → xs.length ≤ promised s) ∧
      ((∃ t into, s.pc t = .asleep into) → (∀ t, AtRest (s.pc t)) → xs = []) := by
  obtain ⟨nodes, hrep, h⟩ := run_invariant (P := fun s => ∃ nodes, Rep s nodes ∧ Promised s nodes)
    ⟨[], rep_init, Promised.nil⟩ hmeets
    (fun _ _ _ ⟨_, hrep, h⟩ hguard hs => h.step hrep hguard hs) hok
  have hbound : (∃ t into, s.pc t = .asleep into) → (nodes.map Prod.snd).length ≤ promised s := by
    rintro ⟨t, into, hpc⟩
    rw [List.length_map]
    refine h ⟨t, .inr ?_⟩
    rw [hpc]
    rfl
  refine ⟨nodes.map Prod.snd, hrep.replays, hbound, ?_⟩
  intro hasleep hrest
  have hnone : promised s = 0 := by
    rw [promised, count_eq_zero_iff]
    intro t
    rw [Function.comp_apply]
    rcases hrest t with hpc | ⟨into, hpc⟩
    · rw [hpc]
      nofun
    · rw [hpc]
      nofun
  exact List.length_eq_zero_iff.mp (Nat.le_zero.mp (hnone ▸ hbound hasleep))

/-- Threads 0 and 1 wait; once both sleep, thread 2 pushes and wakes the first. -/
def wakingRun : List (ThreadsafeQueueAction (Fin 3) ℕ) :=
  [.call 0 (.check (.pop (.waitAndPop false))) 0, .go 0 0, .go 0 0, .go 0 0, .go 0 0, .go 0 0,
    .call 1 (.check (.pop (.waitAndPop false))) 0, .go 1 0, .go 1 0, .go 1 0, .go 1 0, .go 1 0,
    .call 2 (.push 7) 1, .go 2 0, .go 2 0, .go 2 0, .go 2 0, .go 2 0, .go 2 0]

/-- It takes the element, and the other one still sleeps. -/
def takingRun : List (ThreadsafeQueueAction (Fin 3) ℕ) := List.replicate 8 (.go 0 0)

theorem wakingRun_wakes :
    (∃ s xs, run step (init 0) wakingRun = .ok s ∧ s.pc 1 = .asleep false ∧
      Replays QueueEffect [] s.calls xs ∧ xs.length ≤ promised s) ∧
    ∃ s, run step (init 0) (wakingRun ++ takingRun) = .ok s ∧ s.pc 1 = .asleep false ∧
      Replays QueueEffect [] s.calls [] := by
  constructor
  · have hmeets : Meets step NotifiesInTime (init 0) wakingRun := by decide +kernel
    obtain ⟨s, hok, hpc⟩ : ∃ s, run step (init 0) wakingRun = .ok s ∧ s.pc 1 = .asleep false :=
      ⟨_, rfl, rfl⟩
    obtain ⟨xs, hxs, hbound, -⟩ := run_wakes hmeets hok
    exact ⟨s, xs, hok, hpc, hxs, hbound ⟨1, false, hpc⟩⟩
  · have hmeets : Meets step NotifiesInTime (init 0) (wakingRun ++ takingRun) := by decide +kernel
    obtain ⟨s, hok, hpc, hrest⟩ : ∃ s, run step (init 0) (wakingRun ++ takingRun) = .ok s ∧
        s.pc 1 = .asleep false ∧ ∀ t, AtRest (s.pc t) := by
      exact ⟨_, rfl, rfl,
        Fin.cases (.inl rfl) (Fin.cases (.inr ⟨false, rfl⟩) (Fin.cases (.inl rfl) fun i => i.elim0))⟩
    obtain ⟨xs, hxs, -, hempty⟩ := run_wakes hmeets hok
    rw [hempty ⟨1, false, hpc⟩ hrest] at hxs
    exact ⟨s, hok, hpc, hxs⟩

end Counts

/-! ### A wake-up that is lost -/

/-- A step inside `push` with the lock of the tail, or the step to sleep. -/
def goesAlone : ThreadsafeQueuePc T → Bool
  | .setData _ _ | .setNext _ _ | .setTail _ _ | .unlockTail _ | .sleep _ => true
  | _ => false

theorem Rep.follows {pcs : τ → ThreadsafeQueuePc T} (h : Rep s nodes)
    (hpcs : s.pc = Function.update pcs t pc) (halone : goesAlone pc = true) :
    ∃ s' pc', step s (.go t 0) = .ok s' ∧ Rep s' (nodesAfter s nodes pc) ∧
      Follows (decide (s.head = some s.tail)) pc pc' ∧ s'.pc = Function.update pcs t pc' := by
  obtain rfl : s.pc t = pc := by rw [hpcs, Function.update_self]
  rcases h.go t 0 with ⟨hpc, -⟩ | ⟨s', hgo, h'⟩
  · rw [hpc] at halone
    cases halone
  · rcases go_follows hgo with ⟨-, hlocks | hidle | ⟨into, hasleep⟩⟩ |
      ⟨pc', hfollows, ⟨-, hpc⟩ | ⟨x, hpc, -⟩⟩
    · cases hpc : s.pc t with
      | lockTail newValue p | lockHead c | lockSeen c =>
        rw [hpc] at halone
        cases halone
      | _ =>
        rw [hpc] at hlocks
        cases hlocks
    · rw [hidle] at halone
      cases halone
    · rw [hasleep] at halone
      cases halone
    · refine ⟨s', pc', hgo, h', hfollows, ?_⟩
      rw [hpc, hpcs, Function.update_idem]
    · rw [hpc] at halone
      cases halone

/-- A thread calls `push` and goes on to its end. -/
def soloPush (t : τ) (x : T) (address : ℕ) : List (ThreadsafeQueueAction τ T) :=
  [.call t (.push x) address, .go t 0, .go t 0, .go t 0, .go t 0, .go t 0, .go t 0]

theorem Rep.pushAlone (h : Rep s nodes) {x : T} {a : ℕ} (hpc : s.pc t = .idle)
    (ha : s.heap a = none) (htail : s.tailMutex = none) (hcond : s.dataCond = []) :
    ∃ s' b, run step s (soloPush t x a) = .ok s' ∧ Rep s' (nodes ++ [(b, x)]) ∧ s'.pc = s.pc := by
  have hcall : s.call t (.push x) a = (s.set a (some {})).goto t (.lockTail x a) := by
    unfold ThreadsafeQueue.call
    rw [hpc]
    exact if_neg (by simp [ha])
  have h₁ := h.call t (.push x) a
  rw [hcall] at h₁
  generalize hs₁ : (s.set a (some {})).goto t (.lockTail x a) = s₁ at hcall h₁
  have hpc₁ : s₁.pc = Function.update s.pc t (.lockTail x a) := by
    rw [← hs₁]
    rfl
  have hpct : s₁.pc t = .lockTail x a := by rw [hpc₁, Function.update_self]
  have hlock : step s₁ (.go t 0) = .ok { s₁.goto t (.setData x a) with tailMutex := some t } := by
    change s₁.go t 0 = _
    rw [ThreadsafeQueue.go, hpct]
    refine congrArg Except.ok (if_neg ?_)
    rw [← hs₁]
    change ¬s.tailMutex.isSome = true
    rw [htail]
    exact Bool.false_ne_true
  have h₂ : Rep { s₁.goto t (.setData x a) with tailMutex := some t } nodes := by
    rcases h₁.go t 0 with ⟨hnone, -⟩ | ⟨s₂, hgo, h₂⟩
    · cases hpct.symm.trans hnone
    · rw [hpct] at h₂
      cases hlock.symm.trans hgo
      exact h₂
  have hpc₂ : ({ s₁.goto t (.setData x a) with tailMutex := some t } : ThreadsafeQueue τ T).pc =
      Function.update s.pc t (.setData x a) := by
    change Function.update s₁.pc t _ = _
    rw [hpc₁, Function.update_idem]
  obtain ⟨s₃, _, hgo₃, h₃, hfollows, hpc₃⟩ := h₂.follows hpc₂ rfl
  cases hfollows
  obtain ⟨s₄, _, hgo₄, h₄, hfollows, hpc₄⟩ := h₃.follows hpc₃ rfl
  cases hfollows
  obtain ⟨s₅, _, hgo₅, h₅, hfollows, hpc₅⟩ := h₄.follows hpc₄ rfl
  cases hfollows
  obtain ⟨s₆, _, hgo₆, h₆, hfollows, hpc₆⟩ := h₅.follows hpc₅ rfl
  cases hfollows
  have hpct₆ : s₆.pc t = .notify x := by rw [hpc₆, Function.update_self]
  have hnobody : s₆.dataCond = [] := by
    refine List.eq_nil_iff_forall_not_mem.mpr ?_
    intro v hv
    rw [h₆.cond, hpc₆] at hv
    by_cases hvt : v = t
    · rw [hvt, Function.update_self] at hv
      cases hv
    · rw [Function.update_of_ne hvt, ← h.cond, hcond] at hv
      cases hv
  have hnotify : step s₆ (.go t 0) = .ok (s₆.leave t (.push x, .returned)) := by
    change s₆.go t 0 = _
    rw [ThreadsafeQueue.go, hpct₆]
    change Except.ok ((s₆.notifyOne 0).leave t _) = _
    rw [notifyOne, hnobody]
    rfl
  have h₇ := h₆.notify hpct₆ 0
  rw [notifyOne, hnobody] at h₇
  have hfirst : step s (.call t (.push x) a) = .ok s₁ := congrArg Except.ok hcall
  refine ⟨s₆.leave t (.push x, .returned), s₄.tail, ?_, h₇, ?_⟩
  · rw [soloPush, run_cons_ok hfirst, run_cons_ok hlock, run_cons_ok hgo₃, run_cons_ok hgo₄, run_cons_ok hgo₅,
      run_cons_ok hgo₆, run_cons_ok hnotify, run_nil]
  · change Function.update s₆.pc t .idle = s.pc
    rw [hpc₆, Function.update_idem, ← hpc, Function.update_eq_self]

/-- A notification between a check and the sleep is lost: the thread sleeps, the element stays, and
nobody has anything to do that was not to be done before. -/
theorem run_lostWakeup {is : List (ThreadsafeQueueAction τ T)} {x : T} {a : ℕ} {into : Bool}
    (hok : run step (init dummy) is = .ok s) (hu : s.pc u = .sleep into) (hpc : s.pc t = .idle)
    (ha : s.heap a = none) (htail : s.tailMutex = none) (hcond : s.dataCond = []) :
    ∃ s' xs, run step (init dummy) (is ++ soloPush t x a ++ [.go u 0]) = .ok s' ∧
      s'.pc = Function.update s.pc u (.asleep into) ∧
      Replays QueueEffect [] s'.calls (xs ++ [x]) := by
  obtain ⟨nodes, h⟩ : ∃ nodes, Rep s nodes := by
    rcases run_cases is with ⟨s', nodes, hs', h⟩ | ⟨-, -, -, -, -, -, -, he⟩
    · cases hok.symm.trans hs'
      exact ⟨nodes, h⟩
    · cases hok.symm.trans he
  obtain ⟨s₇, b, hrun, h₇, hpc₇⟩ := h.pushAlone (x := x) hpc ha htail hcond
  have hpcs : s₇.pc = Function.update s.pc u (.sleep into) := by
    rw [hpc₇, ← hu, Function.update_eq_self]
  obtain ⟨s', _, hsleep, h', hfollows, hpc'⟩ := h₇.follows hpcs rfl
  cases hfollows
  refine ⟨s', nodes.map Prod.snd, ?_, hpc', ?_⟩
  · rw [run_append_ok (run_append_ok hok ▸ hrun), run_cons_ok hsleep, run_nil]
  · have hreplays : Replays QueueEffect [] s'.calls ((nodes ++ [(b, x)]).map Prod.snd) := h'.replays
    rwa [List.map_append] at hreplays

/-- Thread 0 has found the queue empty. -/
def checkedRun : List (ThreadsafeQueueAction (Fin 2) ℕ) :=
  [.call 0 (.check (.pop (.waitAndPop false))) 0, .go 0 0, .go 0 0, .go 0 0, .go 0 0]

/-- Thread 1 pushes before thread 0 sleeps. -/
theorem checkedRun_lostWakeup : ∃ s s' xs, run step (init 0) checkedRun = .ok s ∧
    run step (init 0) (checkedRun ++ soloPush 1 7 1 ++ [.go 0 0]) = .ok s' ∧
      s'.pc = Function.update s.pc 0 (.asleep false) ∧
      Replays QueueEffect [] s'.calls (xs ++ [7]) := by
  obtain ⟨s, hok, hu, hpc, ha, htail, hcond⟩ : ∃ s, run step (init 0) checkedRun = .ok s ∧
      s.pc 0 = .sleep false ∧ s.pc 1 = .idle ∧ s.heap 1 = none ∧ s.tailMutex = none ∧
        s.dataCond = [] := ⟨_, rfl, rfl, rfl, rfl, rfl, rfl⟩
  obtain ⟨s', xs, h⟩ := run_lostWakeup hok hu hpc ha htail hcond
  exact ⟨s, s', xs, hok, h⟩

end HighPerformance.ThreadsafeQueue
