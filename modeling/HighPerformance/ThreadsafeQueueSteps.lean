import HighPerformance.ThreadsafeQueue
import Mathlib.Data.List.Nodup

/-!
# The steps of the queue with a lock at each end

Each step of a thread finds the nodes that it needs, and leaves a queue behind the heap on which the
calls that have taken effect have had their effect in this order.
-/

namespace HighPerformance.ThreadsafeQueue
open FallibleRun CallHistory

variable {τ T : Type} [DecidableEq τ]

/-- A step of thread `t` leaves to the others their nodes and, if they have locked the head, the head
and the elements at the front. -/
structure Frame (t : τ) (s s' : ThreadsafeQueue τ T) (nodes nodes' : List (ℕ × T)) : Prop where
  pc : ∀ u ≠ t, s'.pc u = s.pc u
  returned : ∀ u ≠ t, s'.returned u = s.returned u
  calls : ∀ u ≠ t, callsOf u s'.calls = callsOf u s.calls
  own : ∀ u ≠ t, ∀ a, (s.pc u).own = some a → s'.heap a = s.heap a
  head : ∀ u ≠ t, (s.pc u).holdsHead = true → s'.head = s.head ∧ ∃ ys, nodes' = nodes ++ ys

section Frames
variable {s s' : ThreadsafeQueue τ T} {nodes nodes' : List (ℕ × T)} {t u : τ}

theorem Frame.pcOk (h : Rep s nodes) (f : Frame t s s' nodes nodes') (hu : u ≠ t) :
    PcOk s'.heap s'.head nodes' (s'.pc u) := by
  have hok := h.pcOk u
  have hown := f.own u hu
  have hhead := f.head u hu
  rw [f.pc u hu]
  cases hpc : s.pc u with
  | lockTail newValue p | setData newValue p | setNext newValue p | setTail newValue p =>
    rw [hpc] at hok hown
    exact (hown p rfl).trans hok
  | unlockSeen c isEmpty =>
    rw [hpc] at hok hhead
    obtain ⟨-, ys, rfl⟩ := hhead rfl
    cases c with
    | empty => trivial
    | pop k =>
      cases isEmpty with
      | true => trivial
      | false => exact List.append_ne_nil_of_left_ne_nil hok ys
  | readValue k =>
    rw [hpc] at hok hhead
    obtain ⟨-, ys, rfl⟩ := hhead rfl
    exact List.append_ne_nil_of_left_ne_nil hok ys
  | takeHead k value =>
    rw [hpc] at hok hhead
    obtain ⟨-, ys, rfl⟩ := hhead rfl
    obtain ⟨e, rest, rfl, hvalue⟩ := hok
    exact ⟨e, rest ++ ys, rfl, hvalue⟩
  | moveNext k value oldHead =>
    rw [hpc] at hok hhead
    obtain ⟨hsame, ys, rfl⟩ := hhead rfl
    obtain ⟨hnone, x, rest, rfl, hvalue⟩ := hok
    exact ⟨hsame.trans hnone, x, rest ++ ys, rfl, hvalue⟩
  | _ => trivial

theorem Frame.told (f : Frame t s s' nodes nodes') (hu : u ≠ t) : s'.told u = s.told u := by
  have hown := f.own u hu
  rw [← f.pc u hu] at hown
  rw [ThreadsafeQueue.told, ThreadsafeQueue.told, f.returned u hu,
    ThreadsafeQueuePc.pending_congr hown, f.pc u hu]

/-- What is left to show of a step is what thread `t` and the queue see. -/
theorem Rep.of_frame (h : Rep s nodes) (f : Frame t s s' nodes nodes')
    (hfront : s'.front = some (firstOf nodes' s'.tail)) (hlinks : Links s'.heap s'.tail nodes')
    (hlast : s'.heap s'.tail = some s'.lastNode) (hnodup : (nodes'.map Prod.fst ++ [s'.tail]).Nodup)
    (hheads : ∀ u ≠ t, s'.headMutex = some u ↔ s.headMutex = some u)
    (hhead : s'.headMutex = some t ↔ (s'.pc t).holdsHead = true)
    (htails : ∀ u ≠ t, s'.tailMutex = some u ↔ s.tailMutex = some u)
    (htail : s'.tailMutex = some t ↔ (s'.pc t).holdsTail = true)
    (hconds : ∀ u ≠ t, u ∈ s'.dataCond ↔ u ∈ s.dataCond)
    (hcond : t ∈ s'.dataCond ↔ (s'.pc t).isAsleep = true) (hcondNodup : s'.dataCond.Nodup)
    (hinUse : ∀ a, (s'.heap a).isSome ↔
      a ∈ nodes'.map Prod.fst ++ [s'.tail] ∨ ∃ u, (s'.pc u).own = some a)
    (hapart : ∀ u a, (s'.pc u).own = some a → a ∉ nodes'.map Prod.fst ++ [s'.tail])
    (halone : ∀ u a, u ≠ t → (s'.pc t).own = some a → (s.pc u).own ≠ some a)
    (hok : PcOk s'.heap s'.head nodes' (s'.pc t))
    (hreplays : Replays QueueEffect [] s'.calls (nodes'.map Prod.snd))
    (hanswers : callsOf t s'.calls = s'.told t) : Rep s' nodes' := by
  refine ⟨hfront, hlinks, hlast, hnodup, ?_, ?_, ?_, hcondNodup, hinUse, hapart, ?_, ?_, hreplays, ?_⟩
  · intro u
    by_cases hu : u = t
    · rw [hu]
      exact hhead
    · rw [hheads u hu, f.pc u hu]
      exact h.headLock u
  · intro u
    by_cases hu : u = t
    · rw [hu]
      exact htail
    · rw [htails u hu, f.pc u hu]
      exact h.tailLock u
  · intro u
    by_cases hu : u = t
    · rw [hu]
      exact hcond
    · rw [hconds u hu, f.pc u hu]
      exact h.cond u
  · intro u v a hu hv
    by_cases hut : u = t
    · by_contra hne
      have hvt : v ≠ t := fun hvt => hne (hut.trans hvt.symm)
      rw [f.pc v hvt] at hv
      exact halone v a hvt (hut ▸ hu) hv
    · rw [f.pc u hut] at hu
      by_cases hvt : v = t
      · exact (halone u a hut (hvt ▸ hv) hu).elim
      · rw [f.pc v hvt] at hv
        exact h.alone u v a hu hv
  · intro u
    by_cases hu : u = t
    · rw [hu]
      exact hok
    · exact f.pcOk h hu
  · intro u
    by_cases hu : u = t
    · rw [hu]
      exact hanswers
    · rw [f.calls u hu, f.told hu]
      exact h.answers u

omit [DecidableEq τ] in
/-- Nobody else has a mutex that `t` has, or that is free. -/
theorem others_of_free {mutex mutex' : Option τ} (hold : mutex = none ∨ mutex = some t)
    (hnew : mutex' = none ∨ mutex' = some t) : ∀ u ≠ t, mutex' = some u ↔ mutex = some u := by
  intro u hu
  rcases hold with rfl | rfl
  · rcases hnew with rfl | rfl
    · exact Iff.rfl
    · simp [Ne.symm hu]
  · rcases hnew with rfl | rfl
    · simp [Ne.symm hu]
    · exact Iff.rfl

omit [DecidableEq τ] in
/-- What the owner of a mutex has to say, if `t` has nothing to say. -/
theorem owner_congr {β : Type} {mutex mutex' : Option τ} {f f' : τ → β} {d : β}
    (hmutex : ∀ u ≠ t, mutex' = some u ↔ mutex = some u) (hf : ∀ u ≠ t, f' u = f u) (ht : f t = d)
    (ht' : f' t = d) : (mutex'.map f').getD d = (mutex.map f).getD d := by
  have hnobody : ∀ {mutex : Option τ} {f : τ → β}, f t = d → (∀ u ≠ t, mutex ≠ some u) →
      (mutex.map f).getD d = d := by
    intro mutex f hft hnot
    cases mutex with
    | none => rfl
    | some u =>
      by_cases hu : u = t
      · rw [hu]
        exact hft
      · exact (hnot u hu rfl).elim
  by_cases hother : ∃ u, u ≠ t ∧ mutex = some u
  · obtain ⟨u, hu, rfl⟩ := hother
    rw [(hmutex u hu).mpr rfl]
    exact hf u hu
  · have hnot : ∀ u ≠ t, mutex ≠ some u := fun u hu he => hother ⟨u, hu, he⟩
    rw [hnobody ht hnot, hnobody ht' fun u hu he => hnot u hu ((hmutex u hu).mp he)]

omit [DecidableEq τ] in
theorem front_congr (hhead : s'.head = s.head)
    (hmutex : ∀ u ≠ t, s'.headMutex = some u ↔ s.headMutex = some u)
    (hother : ∀ u ≠ t, s'.pc u = s.pc u) (ht : (s.pc t).taken = none)
    (ht' : (s'.pc t).taken = none) : s'.front = s.front := by
  rw [ThreadsafeQueue.front, ThreadsafeQueue.front, hhead,
    owner_congr hmutex (fun u hu => by rw [hother u hu]) ht ht']

omit [DecidableEq τ] in
theorem lastNode_congr (hmutex : ∀ u ≠ t, s'.tailMutex = some u ↔ s.tailMutex = some u)
    (hother : ∀ u ≠ t, s'.pc u = s.pc u) (ht : (s.pc t).written = {})
    (ht' : (s'.pc t).written = {}) : s'.lastNode = s.lastNode :=
  owner_congr hmutex (fun u hu => by rw [hother u hu]) ht ht'

theorem Rep.moves (h : Rep s nodes) {pc : ThreadsafeQueuePc T}
    (hpc : s'.pc = Function.update s.pc t pc) (hheap : s'.heap = s.heap) (hheadSame : s'.head = s.head)
    (htailSame : s'.tail = s.tail) (hreturned : ∀ u ≠ t, s'.returned u = s.returned u)
    (hheads : ∀ u ≠ t, s'.headMutex = some u ↔ s.headMutex = some u)
    (hhead : s'.headMutex = some t ↔ pc.holdsHead = true)
    (htails : ∀ u ≠ t, s'.tailMutex = some u ↔ s.tailMutex = some u)
    (htail : s'.tailMutex = some t ↔ pc.holdsTail = true)
    (hconds : ∀ u ≠ t, u ∈ s'.dataCond ↔ u ∈ s.dataCond)
    (hcond : t ∈ s'.dataCond ↔ pc.isAsleep = true) (hcondNodup : s'.dataCond.Nodup)
    (htaken : (s.pc t).taken = none ∧ pc.taken = none)
    (hwritten : (s.pc t).written = {} ∧ pc.written = {}) (hown : pc.own = (s.pc t).own)
    (hok : PcOk s.heap s.head nodes pc) (hcalls : ∀ u ≠ t, callsOf u s'.calls = callsOf u s.calls)
    (hreplays : Replays QueueEffect [] s'.calls (nodes.map Prod.snd))
    (hanswers : callsOf t s'.calls = s'.told t) : Rep s' nodes := by
  have hself : s'.pc t = pc := by rw [hpc, Function.update_self]
  have hother : ∀ u ≠ t, s'.pc u = s.pc u := fun u hu => by rw [hpc, Function.update_of_ne hu]
  have howns : ∀ u, (s'.pc u).own = (s.pc u).own := by
    intro u
    by_cases hu : u = t
    · rw [hu, hself, hown]
    · rw [hother u hu]
  have hframe : Frame t s s' nodes nodes :=
    ⟨hother, hreturned, hcalls, fun _ _ _ _ => by rw [hheap],
      fun _ _ _ => ⟨hheadSame, [], (List.append_nil nodes).symm⟩⟩
  refine h.of_frame hframe ?_ ?_ ?_ ?_ hheads (hself ▸ hhead) htails (hself ▸ htail) hconds
    (hself ▸ hcond) hcondNodup ?_ ?_ ?_ ?_ hreplays hanswers
  · rw [front_congr hheadSame hheads hother htaken.1 (by rw [hself, htaken.2]), htailSame]
    exact h.front
  · rw [hheap, htailSame]
    exact h.links
  · rw [lastNode_congr htails hother hwritten.1 (by rw [hself, hwritten.2]), hheap, htailSame]
    exact h.last
  · rw [htailSame]
    exact h.nodup
  · intro a
    rw [hheap, htailSame, h.inUse]
    simp only [howns]
  · intro u a hu
    rw [howns] at hu
    rw [htailSame]
    exact h.apart u a hu
  · intro u a hu ha hua
    rw [howns] at ha
    exact hu (h.alone u t a hua ha)
  · rw [hself, hheap, hheadSame]
    exact hok

end Frames

/-! ### The steps -/

section Steps
variable {s s' : ThreadsafeQueue τ T} {nodes : List (ℕ × T)} {t u : τ} {pc : ThreadsafeQueuePc T}
  {c : QueueCheck} {k : QueuePop} {x : T} {p a choice : ℕ} {value : Option T} {isEmpty into : Bool}
  {headMutex tailMutex : Option τ} {result : QueueRequest T × QueueAnswer T}

/-- The thread is in the same nodes and calls before and after a step. -/
structure Quiet (heap : ℕ → Option (TailedNode T)) (old new : ThreadsafeQueuePc T) : Prop where
  asleep : old.isAsleep = false ∧ new.isAsleep = false
  taken : old.taken = none ∧ new.taken = none
  written : old.written = {} ∧ new.written = {}
  own : new.own = old.own
  pending : new.pending heap = old.pending heap

theorem Rep.awake (h : Rep s nodes) (hawake : (s.pc t).isAsleep = false)
    (hpc : pc.isAsleep = false) : t ∈ s.dataCond ↔ pc.isAsleep = true := by
  rw [h.cond, hawake, hpc]

theorem Rep.head_same (h : Rep s nodes) (hpc : pc.holdsHead = (s.pc t).holdsHead) :
    s.headMutex = some t ↔ pc.holdsHead = true := by
  rw [h.headLock, hpc]

theorem Rep.tail_same (h : Rep s nodes) (hpc : pc.holdsTail = (s.pc t).holdsTail) :
    s.tailMutex = some t ↔ pc.holdsTail = true := by
  rw [h.tailLock, hpc]

theorem Rep.keeps (h : Rep s nodes)
    (hheads : ∀ u ≠ t, headMutex = some u ↔ s.headMutex = some u)
    (hhead : headMutex = some t ↔ pc.holdsHead = true)
    (htails : ∀ u ≠ t, tailMutex = some u ↔ s.tailMutex = some u)
    (htail : tailMutex = some t ↔ pc.holdsTail = true) (hquiet : Quiet s.heap (s.pc t) pc)
    (hok : PcOk s.heap s.head nodes pc) :
    Rep { s.goto t pc with headMutex := headMutex, tailMutex := tailMutex } nodes := by
  refine h.moves (t := t) rfl rfl rfl rfl (fun _ _ => rfl) hheads hhead htails htail
    (fun _ _ => Iff.rfl) (h.awake hquiet.asleep.1 hquiet.asleep.2) h.condNodup hquiet.taken
    hquiet.written hquiet.own hok (fun _ _ => rfl) h.replays ?_
  change callsOf t s.calls = s.returned t ++ (Function.update s.pc t pc t).pending s.heap
  rw [Function.update_self, hquiet.pending]
  exact h.answers t

theorem Rep.leaves (h : Rep s nodes) (hheads : ∀ u ≠ t, headMutex = some u ↔ s.headMutex = some u)
    (hhead : headMutex ≠ some t) (htail : (s.pc t).holdsTail = false)
    (hasleep : (s.pc t).isAsleep = false) (htaken : (s.pc t).taken = none)
    (hwritten : (s.pc t).written = {}) (hown : (s.pc t).own = none)
    (hpending : (s.pc t).pending s.heap = [result]) :
    Rep { s.leave t result with headMutex := headMutex } nodes := by
  have htailMutex : s.tailMutex ≠ some t := by
    rw [Ne, h.tailLock, htail]
    exact Bool.false_ne_true
  refine h.moves (t := t) rfl rfl rfl rfl (fun u hu => Function.update_of_ne hu ..)
    hheads (iff_of_false hhead Bool.false_ne_true) (fun _ _ => Iff.rfl)
    (iff_of_false htailMutex Bool.false_ne_true) (fun _ _ => Iff.rfl) (h.awake hasleep rfl)
    h.condNodup ⟨htaken, rfl⟩ ⟨hwritten, rfl⟩ hown.symm trivial (fun _ _ => rfl) h.replays ?_
  change callsOf t s.calls = Function.update s.returned t (s.returned t ++ [result]) t ++
    (Function.update s.pc t .idle t).pending s.heap
  rw [Function.update_self, Function.update_self, h.answers t, told, hpending]
  exact (List.append_nil _).symm

theorem Rep.lockTail (h : Rep s nodes) (hpc : s.pc t = .lockTail x p) :
    Rep (s.lockTail t (.setData x p)) nodes := by
  unfold ThreadsafeQueue.lockTail
  by_cases hlocked : s.tailMutex.isSome
  · rw [if_pos hlocked]
    exact h
  · rw [if_neg hlocked]
    have hfree : s.tailMutex = none := by simpa using hlocked
    have hok : PcOk s.heap s.head nodes (.lockTail x p) := hpc ▸ h.pcOk t
    refine h.keeps (fun _ _ => Iff.rfl) (h.head_same ?_) (others_of_free (.inl hfree) (.inr rfl))
      (iff_of_true rfl rfl) ?_ hok
    · rw [hpc]
      rfl
    · rw [hpc]
      exact ⟨⟨rfl, rfl⟩, ⟨rfl, rfl⟩, ⟨rfl, rfl⟩, rfl, rfl⟩

theorem Rep.unlockTail (h : Rep s nodes) (hpc : s.pc t = .unlockTail x) :
    Rep { s.goto t (.notify x) with tailMutex := none } nodes := by
  have hmine : s.tailMutex = some t := by
    rw [h.tailLock, hpc]
    rfl
  refine h.keeps (fun _ _ => Iff.rfl) (h.head_same ?_) (others_of_free (.inr hmine) (.inl rfl))
    (iff_of_false nofun Bool.false_ne_true) ?_ trivial
  · rw [hpc]
    rfl
  · rw [hpc]
    exact ⟨⟨rfl, rfl⟩, ⟨rfl, rfl⟩, ⟨rfl, rfl⟩, rfl, rfl⟩

theorem Rep.lockHead (h : Rep s nodes) (hpc : s.pc t = .lockHead c) :
    Rep (s.lockHead t (.lockSeen c)) nodes := by
  unfold ThreadsafeQueue.lockHead
  by_cases hlocked : s.headMutex.isSome
  · rw [if_pos hlocked]
    exact h
  · rw [if_neg hlocked]
    have hfree : s.headMutex = none := by simpa using hlocked
    refine h.keeps (others_of_free (.inl hfree) (.inr rfl)) (iff_of_true rfl rfl)
      (fun _ _ => Iff.rfl) (h.tail_same ?_) ?_ trivial
    · rw [hpc]
      rfl
    · rw [hpc]
      exact ⟨⟨rfl, rfl⟩, ⟨rfl, rfl⟩, ⟨rfl, rfl⟩, rfl, rfl⟩

theorem Rep.lockSeen (h : Rep s nodes) (hpc : s.pc t = .lockSeen c) :
    Rep (s.lockTail t (.readTail c)) nodes := by
  unfold ThreadsafeQueue.lockTail
  by_cases hlocked : s.tailMutex.isSome
  · rw [if_pos hlocked]
    exact h
  · rw [if_neg hlocked]
    have hfree : s.tailMutex = none := by simpa using hlocked
    refine h.keeps (fun _ _ => Iff.rfl) (h.head_same ?_) (others_of_free (.inl hfree) (.inr rfl))
      (iff_of_true rfl rfl) ?_ trivial
    · rw [hpc]
      rfl
    · rw [hpc]
      exact ⟨⟨rfl, rfl⟩, ⟨rfl, rfl⟩, ⟨rfl, rfl⟩, rfl, rfl⟩

/-- The owner of the head finds it at the first node, unless it has taken it out. -/
theorem Rep.head_eq (h : Rep s nodes) (hholds : (s.pc t).holdsHead = true)
    (htaken : (s.pc t).taken = none) : s.head = some (firstOf nodes s.tail) := by
  have hfront := h.front
  rw [ThreadsafeQueue.front, (h.headLock t).mpr hholds, Option.map_some, Option.getD_some, htaken,
    Option.none_or] at hfront
  exact hfront

theorem Rep.first_eq_tail (h : Rep s nodes) : firstOf nodes s.tail = s.tail ↔ nodes = [] := by
  have hnodup := h.nodup
  cases nodes with
  | nil => exact iff_of_true rfl rfl
  | cons e rest =>
    refine iff_of_false ?_ (List.cons_ne_nil e rest)
    intro he
    rw [List.map_cons, List.cons_append, List.nodup_cons] at hnodup
    exact hnodup.1 (by simp [← show e.1 = s.tail from he])

theorem Rep.observes (h : Rep s nodes) (hhead : pc.holdsHead = (s.pc t).holdsHead)
    (htail : pc.holdsTail = (s.pc t).holdsTail)
    (hasleep : (s.pc t).isAsleep = false ∧ pc.isAsleep = false)
    (htaken : (s.pc t).taken = none ∧ pc.taken = none)
    (hwritten : (s.pc t).written = {} ∧ pc.written = {}) (hown : pc.own = (s.pc t).own)
    (hbefore : (s.pc t).pending s.heap = []) (hafter : pc.pending s.heap = [result])
    (hok : PcOk s.heap s.head nodes pc)
    (heffect : QueueEffect (nodes.map Prod.snd) result (nodes.map Prod.snd)) :
    Rep ((s.goto t pc).enter t result) nodes := by
  refine h.moves (t := t) rfl rfl rfl rfl (fun _ _ => rfl) (fun _ _ => Iff.rfl) (h.head_same hhead)
    (fun _ _ => Iff.rfl) (h.tail_same htail) (fun _ _ => Iff.rfl) (h.awake hasleep.1 hasleep.2)
    h.condNodup htaken hwritten hown hok ?_ (h.replays.concat t heffect) ?_
  · intro u hu
    exact callsOf_concat_other (Ne.symm hu)
  · change callsOf t (s.calls ++ [(t, result)]) =
      s.returned t ++ (Function.update s.pc t pc t).pending s.heap
    rw [callsOf_concat_own, h.answers t, told, hbefore, Function.update_self, hafter,
      List.append_nil]

/-- Nobody can change the head while the tail is read. -/
theorem Rep.readTail (h : Rep s nodes) (hpc : s.pc t = .readTail c) : Rep (s.readTail t c) nodes := by
  have hhead : s.head = some (firstOf nodes s.tail) := by
    refine h.head_eq (t := t) ?_ ?_
    · rw [hpc]
      rfl
    · rw [hpc]
      rfl
  have hempty : decide (s.head = some s.tail) = (nodes.map Prod.snd).isEmpty := by
    rw [Bool.eq_iff_iff, decide_eq_true_iff, hhead, Option.some.injEq, h.first_eq_tail]
    simp
  unfold ThreadsafeQueue.readTail
  dsimp only
  rw [hempty]
  have hkeeps : ∀ {isEmpty : Bool}, (ThreadsafeQueuePc.unlockSeen c isEmpty).pending s.heap = [] →
      PcOk s.heap s.head nodes (.unlockSeen c isEmpty) →
      Rep (s.goto t (.unlockSeen c isEmpty)) nodes := by
    intro isEmpty hpending hok
    refine h.keeps (fun _ _ => Iff.rfl) (h.head_same ?_) (fun _ _ => Iff.rfl) (h.tail_same ?_) ?_ hok
    · rw [hpc]
      rfl
    · rw [hpc]
      rfl
    · rw [hpc]
      exact ⟨⟨rfl, rfl⟩, ⟨rfl, rfl⟩, ⟨rfl, rfl⟩, rfl, hpending⟩
  have hobserves : ∀ {isEmpty : Bool} {result : QueueRequest T × QueueAnswer T},
      (ThreadsafeQueuePc.unlockSeen c isEmpty).pending s.heap = [result] →
      PcOk s.heap s.head nodes (.unlockSeen c isEmpty) →
      QueueEffect (nodes.map Prod.snd) result (nodes.map Prod.snd) →
      Rep ((s.goto t (.unlockSeen c isEmpty)).enter t result) nodes := by
    intro isEmpty result hpending hok heffect
    refine h.observes ?_ ?_ ⟨?_, rfl⟩ ⟨?_, rfl⟩ ⟨?_, rfl⟩ ?_ ?_ hpending hok heffect
    · rw [hpc]
      rfl
    · rw [hpc]
      rfl
    · rw [hpc]
      rfl
    · rw [hpc]
      rfl
    · rw [hpc]
      rfl
    · rw [hpc]
      rfl
    · rw [hpc]
      rfl
  cases c with
  | empty => exact hobserves rfl trivial ⟨rfl, rfl⟩
  | pop k =>
    cases nodes with
    | nil =>
      cases k with
      | tryPop into => exact hobserves rfl trivial ⟨rfl, rfl⟩
      | waitAndPop into => exact hkeeps rfl trivial
    | cons e rest =>
      cases k with
      | tryPop into => exact hkeeps rfl (List.cons_ne_nil e rest)
      | waitAndPop into => exact hkeeps rfl (List.cons_ne_nil e rest)

omit [DecidableEq τ] in
theorem afterCheck_cases (c : QueueCheck) (isEmpty : Bool) (P : ThreadsafeQueuePc T → Prop)
    (hnone : ∀ into, c = .pop (.tryPop into) → isEmpty = true → P (.unlockNone into))
    (hsleep : ∀ into, c = .pop (.waitAndPop into) → isEmpty = true → P (.sleep into))
    (hvalue : ∀ k, c = .pop k → isEmpty = false → P (.readValue k))
    (htake : ∀ k, c = .pop k → isEmpty = false → P (.takeHead k none))
    (hempty : c = .empty → P (.unlockEmpty isEmpty)) : P (afterCheck c isEmpty) := by
  cases c with
  | empty => exact hempty rfl
  | pop k =>
    cases k with
    | tryPop into =>
      cases isEmpty with
      | true => exact hnone into rfl rfl
      | false =>
        cases into with
        | true => exact hvalue _ rfl rfl
        | false => exact htake _ rfl rfl
    | waitAndPop into =>
      cases isEmpty with
      | true => exact hsleep into rfl rfl
      | false =>
        cases into with
        | true => exact hvalue _ rfl rfl
        | false => exact htake _ rfl rfl

theorem Rep.unlockSeen (h : Rep s nodes) (hpc : s.pc t = .unlockSeen c isEmpty) :
    Rep { s.goto t (afterCheck c isEmpty) with tailMutex := none } nodes := by
  have hmine : s.tailMutex = some t := by
    rw [h.tailLock, hpc]
    rfl
  have hok := h.pcOk t
  rw [hpc] at hok
  have hkeeps : ∀ pc : ThreadsafeQueuePc T, pc.holdsHead = true → pc.holdsTail = false →
      Quiet s.heap (.unlockSeen c isEmpty) pc → PcOk s.heap s.head nodes pc →
      Rep { s.goto t pc with tailMutex := none } nodes := by
    intro pc hhead htail hquiet hok
    refine h.keeps (fun _ _ => Iff.rfl) (h.head_same ?_) (others_of_free (.inr hmine) (.inl rfl))
      (iff_of_false nofun (by rw [htail]; exact Bool.false_ne_true)) (hpc ▸ hquiet) hok
    rw [hpc, hhead]
    rfl
  refine afterCheck_cases c isEmpty
    (fun pc => Rep { s.goto t pc with tailMutex := none } nodes) ?_ ?_ ?_ ?_ ?_
  · rintro into rfl rfl
    exact hkeeps _ rfl rfl ⟨⟨rfl, rfl⟩, ⟨rfl, rfl⟩, ⟨rfl, rfl⟩, rfl, rfl⟩ trivial
  · rintro into rfl rfl
    exact hkeeps _ rfl rfl ⟨⟨rfl, rfl⟩, ⟨rfl, rfl⟩, ⟨rfl, rfl⟩, rfl, rfl⟩ trivial
  · rintro k rfl rfl
    refine hkeeps _ rfl rfl ⟨⟨rfl, rfl⟩, ⟨rfl, rfl⟩, ⟨rfl, rfl⟩, rfl, ?_⟩ hok
    cases k with
    | tryPop into => rfl
    | waitAndPop into => rfl
  · rintro k rfl rfl
    obtain ⟨e, rest, hnodes⟩ := List.exists_cons_of_ne_nil hok
    refine hkeeps _ rfl rfl ⟨⟨rfl, rfl⟩, ⟨rfl, rfl⟩, ⟨rfl, rfl⟩, rfl, ?_⟩ ⟨e, rest, hnodes, nofun⟩
    cases k with
    | tryPop into => rfl
    | waitAndPop into => rfl
  · rintro rfl
    exact hkeeps _ rfl rfl ⟨⟨rfl, rfl⟩, ⟨rfl, rfl⟩, ⟨rfl, rfl⟩, rfl, rfl⟩ trivial

omit [DecidableEq τ] in
theorem node_eq_ok {n : TailedNode T} (hn : s.heap a = some n) : s.node a = .ok n := by
  rw [node, hn]

/-- The element is read while the node is still the first. -/
theorem Rep.readValue (h : Rep s nodes) (hpc : s.pc t = .readValue k) :
    ∃ s', s.readValue t k = .ok s' ∧ Rep s' nodes := by
  have hok : PcOk s.heap s.head nodes (.readValue k) := hpc ▸ h.pcOk t
  obtain ⟨e, rest, rfl⟩ := List.exists_cons_of_ne_nil hok
  have hhead : s.head = some e.1 := h.head_eq (t := t) (by rw [hpc]; rfl) (by rw [hpc]; rfl)
  refine ⟨s.goto t (.takeHead k (some e.2)), ?_, ?_⟩
  · rw [ThreadsafeQueue.readValue, hhead]
    change (s.node e.1).bind _ = _
    rw [node_eq_ok h.links.1]
    rfl
  · refine h.keeps (fun _ _ => Iff.rfl) (h.head_same ?_) (fun _ _ => Iff.rfl) (h.tail_same ?_) ?_ ?_
    · rw [hpc]
      rfl
    · rw [hpc]
      rfl
    · rw [hpc]
      exact ⟨⟨rfl, rfl⟩, ⟨rfl, rfl⟩, ⟨rfl, rfl⟩, rfl, rfl⟩
    · exact ⟨e, rest, rfl, fun v hv => (Option.some.inj hv).symm⟩

theorem Rep.unlockHead (h : Rep s nodes) (hpc : s.pc t = .unlockHead k value a) :
    Rep { s.goto t (.destroy k value a) with headMutex := none } nodes := by
  have hmine : s.headMutex = some t := by
    rw [h.headLock, hpc]
    rfl
  refine h.keeps (others_of_free (.inr hmine) (.inl rfl)) (iff_of_false nofun Bool.false_ne_true)
    (fun _ _ => Iff.rfl) (h.tail_same ?_) ?_ trivial
  · rw [hpc]
    rfl
  · rw [hpc]
    exact ⟨⟨rfl, rfl⟩, ⟨rfl, rfl⟩, ⟨rfl, rfl⟩, rfl, rfl⟩

theorem Rep.unlockNone (h : Rep s nodes) (hpc : s.pc t = .unlockNone into) :
    Rep { s.goto t (.returnNone into) with headMutex := none } nodes := by
  have hmine : s.headMutex = some t := by
    rw [h.headLock, hpc]
    rfl
  refine h.keeps (others_of_free (.inr hmine) (.inl rfl)) (iff_of_false nofun Bool.false_ne_true)
    (fun _ _ => Iff.rfl) (h.tail_same ?_) ?_ trivial
  · rw [hpc]
    rfl
  · rw [hpc]
    exact ⟨⟨rfl, rfl⟩, ⟨rfl, rfl⟩, ⟨rfl, rfl⟩, rfl, rfl⟩

theorem Rep.returnNone (h : Rep s nodes) (hpc : s.pc t = .returnNone into) :
    Rep (s.leave t (.check (.pop (.tryPop into)), .popped none)) nodes := by
  have hnot : s.headMutex ≠ some t := by
    rw [Ne, h.headLock, hpc]
    exact Bool.false_ne_true
  refine h.leaves (fun _ _ => Iff.rfl) hnot ?_ ?_ ?_ ?_ ?_ ?_
  · rw [hpc]
    rfl
  · rw [hpc]
    rfl
  · rw [hpc]
    rfl
  · rw [hpc]
    rfl
  · rw [hpc]
    rfl
  · rw [hpc]
    rfl

theorem Rep.unlockEmpty (h : Rep s nodes) (hpc : s.pc t = .unlockEmpty isEmpty) :
    Rep { s.leave t (.check .empty, .isEmpty isEmpty) with headMutex := none } nodes := by
  have hmine : s.headMutex = some t := by
    rw [h.headLock, hpc]
    rfl
  refine h.leaves (others_of_free (.inr hmine) (.inl rfl)) nofun ?_ ?_ ?_ ?_ ?_ ?_
  · rw [hpc]
    rfl
  · rw [hpc]
    rfl
  · rw [hpc]
    rfl
  · rw [hpc]
    rfl
  · rw [hpc]
    rfl
  · rw [hpc]
    rfl

/-- The thread unlocks the head and sleeps, in one step. -/
theorem Rep.sleep (h : Rep s nodes) (hpc : s.pc t = .sleep into) :
    Rep { s.goto t (.asleep into) with headMutex := none, dataCond := s.dataCond ++ [t] } nodes := by
  have hmine : s.headMutex = some t := by
    rw [h.headLock, hpc]
    rfl
  have hnot : t ∉ s.dataCond := by
    rw [h.cond, hpc]
    exact Bool.false_ne_true
  have htail : s.tailMutex ≠ some t := by
    rw [Ne, h.tailLock, hpc]
    exact Bool.false_ne_true
  refine h.moves (t := t) rfl rfl rfl rfl (fun _ _ => rfl) (others_of_free (.inr hmine) (.inl rfl))
    (iff_of_false nofun Bool.false_ne_true) (fun _ _ => Iff.rfl)
    (iff_of_false htail Bool.false_ne_true) ?_ (iff_of_true (by simp) rfl) ?_ ⟨?_, rfl⟩ ⟨?_, rfl⟩ ?_
    trivial (fun _ _ => rfl) h.replays ?_
  · intro u hu
    simp [hu]
  · exact List.Nodup.append h.condNodup (List.nodup_singleton t) (by simpa using hnot)
  · rw [hpc]
    rfl
  · rw [hpc]
    rfl
  · rw [hpc]
    rfl
  · change callsOf t s.calls = s.returned t ++ (Function.update s.pc t (.asleep into) t).pending s.heap
    rw [Function.update_self, h.answers t, told, hpc]
    rfl

theorem Rep.wake (h : Rep s nodes) (t : τ) : Rep (s.wake t) nodes := by
  unfold ThreadsafeQueue.wake
  cases hpc : s.pc t with
  | asleep into =>
    have hhead : s.headMutex ≠ some t := by
      rw [Ne, h.headLock, hpc]
      exact Bool.false_ne_true
    have htail : s.tailMutex ≠ some t := by
      rw [Ne, h.tailLock, hpc]
      exact Bool.false_ne_true
    refine h.moves (t := t) rfl rfl rfl rfl (fun _ _ => rfl) (fun _ _ => Iff.rfl)
      (iff_of_false hhead Bool.false_ne_true) (fun _ _ => Iff.rfl)
      (iff_of_false htail Bool.false_ne_true) ?_ (iff_of_false ?_ Bool.false_ne_true)
      (h.condNodup.erase t) ⟨?_, rfl⟩ ⟨?_, rfl⟩ ?_ trivial (fun _ _ => rfl) h.replays ?_
    · intro u hu
      exact List.mem_erase_of_ne hu
    · exact h.condNodup.not_mem_erase
    · rw [hpc]
      rfl
    · rw [hpc]
      rfl
    · rw [hpc]
      rfl
    · change callsOf t s.calls = s.returned t ++
        (Function.update s.pc t (.lockHead (.pop (.waitAndPop into))) t).pending s.heap
      rw [Function.update_self, h.answers t, told, hpc]
      rfl
  | _ => exact h

theorem pc_wake_other (hu : u ≠ t) : (s.wake t).pc u = s.pc u := by
  unfold ThreadsafeQueue.wake
  cases hpc : s.pc t with
  | asleep into => exact Function.update_of_ne hu ..
  | _ => rfl

theorem Rep.notify (h : Rep s nodes) (hpc : s.pc t = .notify x) (choice : ℕ) :
    Rep ((s.notifyOne choice).leave t (.push x, .returned)) nodes := by
  have hleave : ∀ {s : ThreadsafeQueue τ T}, Rep s nodes → s.pc t = .notify x →
      Rep (s.leave t (.push x, .returned)) nodes := by
    intro s h hpc
    have hnot : s.headMutex ≠ some t := by
      rw [Ne, h.headLock, hpc]
      exact Bool.false_ne_true
    refine h.leaves (fun _ _ => Iff.rfl) hnot ?_ ?_ ?_ ?_ ?_ ?_
    · rw [hpc]
      rfl
    · rw [hpc]
      rfl
    · rw [hpc]
      rfl
    · rw [hpc]
      rfl
    · rw [hpc]
      rfl
    · rw [hpc]
      rfl
  unfold notifyOne
  cases hchoice : s.dataCond[choice % s.dataCond.length]? with
  | none => exact hleave h hpc
  | some u =>
    have hne : t ≠ u := by
      rintro rfl
      have hasleep := (h.cond t).mp (List.mem_of_getElem? hchoice)
      rw [hpc] at hasleep
      cases hasleep
    exact hleave (h.wake u) ((pc_wake_other hne).trans hpc)

/-- Another thread's node is neither in the queue nor the node of a thread that has it. -/
theorem Rep.own_ne (h : Rep s nodes) (hu : (s.pc u).own = some a) :
    a ≠ s.tail ∧ ∀ e ∈ nodes, e.1 ≠ a := by
  have hapart := h.apart u a hu
  rw [List.mem_append, not_or] at hapart
  refine ⟨fun ha => hapart.2 (by simp [ha]), ?_⟩
  rintro e he rfl
  exact hapart.1 (List.mem_map_of_mem he)

/-- A thread in `push` writes to the last node. -/
theorem Rep.writes (h : Rep s nodes) (hheap : s'.heap = Function.update s.heap s.tail (some pc.written))
    (hpcs : s'.pc = Function.update s.pc t pc)
    (hrest : s'.head = s.head ∧ s'.tail = s.tail ∧ s'.headMutex = s.headMutex ∧
      s'.tailMutex = s.tailMutex ∧ s'.dataCond = s.dataCond ∧ s'.calls = s.calls ∧
      s'.returned = s.returned)
    (hheads : pc.holdsHead = (s.pc t).holdsHead) (htails : (s.pc t).holdsTail = true)
    (htails' : pc.holdsTail = true) (hasleep : (s.pc t).isAsleep = false ∧ pc.isAsleep = false)
    (htaken : (s.pc t).taken = none ∧ pc.taken = none) (hown : pc.own = (s.pc t).own)
    (hpending : pc.pending s'.heap = (s.pc t).pending s.heap)
    (hok : PcOk s'.heap s'.head nodes pc) : Rep s' nodes := by
  obtain ⟨hhead, htail, hheadMutex, htailMutex, hdataCond, hcalls, hreturned⟩ := hrest
  have hself : s'.pc t = pc := by rw [hpcs, Function.update_self]
  have hother : ∀ u ≠ t, s'.pc u = s.pc u := fun u hu => by rw [hpcs, Function.update_of_ne hu]
  have howns : ∀ u, (s'.pc u).own = (s.pc u).own := by
    intro u
    by_cases hu : u = t
    · rw [hu, hself, hown]
    · rw [hother u hu]
  have hframe : Frame t s s' nodes nodes := by
    refine ⟨hother, fun _ _ => by rw [hreturned], fun _ _ => by rw [hcalls], ?_,
      fun _ _ _ => ⟨hhead, [], (List.append_nil nodes).symm⟩⟩
    intro u _ a ha
    rw [hheap, Function.update_of_ne (h.own_ne ha).1]
  have hmine : s.tailMutex = some t := (h.tailLock t).mpr htails
  refine h.of_frame hframe ?_ ?_ ?_ ?_ (fun _ _ => by rw [hheadMutex]) ?_
    (fun _ _ => by rw [htailMutex]) ?_ (fun _ _ => by rw [hdataCond]) ?_ ?_ ?_ ?_ ?_ ?_ ?_ ?_
  · have hmutex : ∀ u ≠ t, s'.headMutex = some u ↔ s.headMutex = some u :=
      fun _ _ => by rw [hheadMutex]
    rw [front_congr hhead hmutex hother htaken.1 (by rw [hself, htaken.2]), htail]
    exact h.front
  · rw [htail]
    refine h.links.congr ?_
    intro e he
    have hne : e.1 ≠ s.tail := by
      intro he'
      have hnodup := (List.nodup_append.mp h.nodup).2.2 e.1 (List.mem_map_of_mem he)
      exact hnodup s.tail (List.mem_singleton_self _) he'
    rw [hheap, Function.update_of_ne hne]
  · rw [htail, hheap, Function.update_self, ThreadsafeQueue.lastNode, htailMutex, hmine,
      Option.map_some, Option.getD_some, hself]
  · rw [htail]
    exact h.nodup
  · rw [hheadMutex, hself]
    exact h.head_same hheads
  · rw [htailMutex, hself]
    exact iff_of_true hmine htails'
  · rw [hdataCond, hself]
    exact h.awake hasleep.1 hasleep.2
  · rw [hdataCond]
    exact h.condNodup
  · intro a
    rw [htail]
    by_cases ha : a = s.tail
    · rw [hheap, ha, Function.update_self]
      exact iff_of_true rfl (.inl (by simp))
    · rw [hheap, Function.update_of_ne ha, h.inUse]
      simp only [howns]
  · intro u a hu
    rw [howns] at hu
    rw [htail]
    exact h.apart u a hu
  · intro u a hu ha hua
    rw [howns] at ha
    exact hu (h.alone u t a hua ha)
  · rw [hself]
    exact hok
  · rw [hcalls]
    exact h.replays
  · rw [hcalls, told, hreturned, hself, hpending]
    exact h.answers t

/-- The last node, as the thread that has locked the tail has left it. -/
theorem Rep.last_eq (h : Rep s nodes) (hholds : (s.pc t).holdsTail = true) :
    s.heap s.tail = some (s.pc t).written := by
  have hlast := h.last
  rw [ThreadsafeQueue.lastNode, (h.tailLock t).mpr hholds] at hlast
  exact hlast

theorem Rep.setData (h : Rep s nodes) (hpc : s.pc t = .setData x p) :
    ∃ s', s.setData t x p = .ok s' ∧ Rep s' nodes := by
  have hok : PcOk s.heap s.head nodes (.setData x p) := hpc ▸ h.pcOk t
  have hlast := h.last_eq (t := t) (by rw [hpc]; rfl)
  have hown : (s.pc t).own = some p := by
    rw [hpc]
    rfl
  rw [hpc] at hlast
  refine ⟨_, by rw [ThreadsafeQueue.setData, node_eq_ok hlast]; rfl, ?_⟩
  refine h.writes (t := t) rfl rfl ⟨rfl, rfl, rfl, rfl, rfl, rfl, rfl⟩ ?_ ?_ rfl ⟨?_, rfl⟩ ⟨?_, rfl⟩
    ?_ ?_ ?_
  · rw [hpc]
    rfl
  · rw [hpc]
    rfl
  · rw [hpc]
    rfl
  · rw [hpc]
    rfl
  · rw [hpc]
    rfl
  · rw [hpc]
    rfl
  · exact (Function.update_of_ne (h.own_ne hown).1 ..).trans hok

theorem Rep.setNext (h : Rep s nodes) (hpc : s.pc t = .setNext x p) :
    ∃ s', s.setNext t x p = .ok s' ∧ Rep s' nodes := by
  have hok : PcOk s.heap s.head nodes (.setNext x p) := hpc ▸ h.pcOk t
  have hlast := h.last_eq (t := t) (by rw [hpc]; rfl)
  have hown : (s.pc t).own = some p := by
    rw [hpc]
    rfl
  rw [hpc] at hlast
  refine ⟨_, by rw [ThreadsafeQueue.setNext, node_eq_ok hlast]; rfl, ?_⟩
  refine h.writes (t := t) rfl rfl ⟨rfl, rfl, rfl, rfl, rfl, rfl, rfl⟩ ?_ ?_ rfl ⟨?_, rfl⟩ ⟨?_, rfl⟩
    ?_ ?_ ?_
  · rw [hpc]
    rfl
  · rw [hpc]
    rfl
  · rw [hpc]
    rfl
  · rw [hpc]
    rfl
  · rw [hpc]
    rfl
  · rw [hpc]
    rfl
  · exact (Function.update_of_ne (h.own_ne hown).1 ..).trans hok

/-- The element is in the queue as soon as the tail points to the new node. -/
theorem Rep.setTail (h : Rep s nodes) (hpc : s.pc t = .setTail x p) :
    Rep (s.setTail t x p) (nodes ++ [(s.tail, x)]) := by
  have hok : PcOk s.heap s.head nodes (.setTail x p) := hpc ▸ h.pcOk t
  have hlast := h.last_eq (t := t) (by rw [hpc]; rfl)
  rw [hpc] at hlast
  have hmine : s.tailMutex = some t := by
    rw [h.tailLock, hpc]
    rfl
  have hown : (s.pc t).own = some p := by
    rw [hpc]
    rfl
  have hself : (s.setTail t x p).pc t = .unlockTail x := Function.update_self ..
  have hother : ∀ u ≠ t, (s.setTail t x p).pc u = s.pc u := fun u hu => Function.update_of_ne hu ..
  have hfst : (nodes ++ [(s.tail, x)]).map Prod.fst ++ [p] = nodes.map Prod.fst ++ [s.tail] ++ [p] := by
    simp
  have hframe : Frame t s (s.setTail t x p) nodes (nodes ++ [(s.tail, x)]) :=
    ⟨hother, fun _ _ => rfl, fun u hu => callsOf_concat_other (Ne.symm hu), fun _ _ _ _ => rfl,
      fun _ _ _ => ⟨rfl, [(s.tail, x)], rfl⟩⟩
  refine h.of_frame hframe ?_ (h.links.push hlast) ?_ ?_ (fun _ _ => Iff.rfl) ?_ (fun _ _ => Iff.rfl)
    ?_ (fun _ _ => Iff.rfl) ?_ h.condNodup ?_ ?_ ?_ ?_ ?_ ?_
  · have hsame : (s.setTail t x p).front = s.front :=
      front_congr rfl (fun _ _ => Iff.rfl) hother (by rw [hpc]; rfl) (by rw [hself]; rfl)
    rw [hsame, h.front]
    exact congrArg some firstOf_push.symm
  · refine hok.trans (congrArg some ?_)
    change _ = (Option.map (fun u => ((s.setTail t x p).pc u).written) s.tailMutex).getD {}
    rw [hmine, Option.map_some, Option.getD_some, hself]
    rfl
  · change ((nodes ++ [(s.tail, x)]).map Prod.fst ++ [p]).Nodup
    rw [hfst]
    exact List.Nodup.append h.nodup (List.nodup_singleton p) (by simpa using h.apart t p hown)
  · rw [hself]
    refine h.head_same ?_
    rw [hpc]
    rfl
  · rw [hself]
    refine h.tail_same ?_
    rw [hpc]
    rfl
  · rw [hself]
    exact h.awake (by rw [hpc]; rfl) rfl
  · intro a
    change (s.heap a).isSome ↔ a ∈ (nodes ++ [(s.tail, x)]).map Prod.fst ++ [p] ∨ _
    rw [h.inUse, hfst, List.mem_append (t := [p]), List.mem_singleton, or_assoc]
    refine or_congr_right ⟨?_, ?_⟩
    · rintro ⟨u, hu⟩
      by_cases hut : u = t
      · rw [hut, hown] at hu
        exact .inl (Option.some.inj hu).symm
      · exact .inr ⟨u, by rwa [hother u hut]⟩
    · rintro (rfl | ⟨u, hu⟩)
      · exact ⟨t, hown⟩
      · by_cases hut : u = t
        · rw [hut, hself] at hu
          cases hu
        · exact ⟨u, by rwa [hother u hut] at hu⟩
  · intro u a hu
    change a ∉ (nodes ++ [(s.tail, x)]).map Prod.fst ++ [p]
    by_cases hut : u = t
    · rw [hut, hself] at hu
      cases hu
    · rw [hother u hut] at hu
      rw [hfst, List.mem_append, List.mem_singleton, not_or]
      refine ⟨h.apart u a hu, ?_⟩
      rintro rfl
      exact hut (h.alone u t a hu hown)
  · intro u a _ ha
    rw [hself] at ha
    cases ha
  · rw [hself]
    trivial
  · rw [List.map_append]
    exact h.replays.concat t rfl
  · change callsOf t (s.calls ++ [(t, _)]) =
      s.returned t ++ ((s.setTail t x p).pc t).pending (s.setTail t x p).heap
    rw [callsOf_concat_own, h.answers t, told, hself, hpc]
    exact congrArg (· ++ _) (List.append_nil _)

theorem Rep.allocates (h : Rep s nodes) {m : Option (TailedNode T)}
    (hheap : s'.heap = Function.update s.heap a m) (hpcs : s'.pc = Function.update s.pc t pc)
    (hrest : s'.head = s.head ∧ s'.tail = s.tail ∧ s'.headMutex = s.headMutex ∧
      s'.tailMutex = s.tailMutex ∧ s'.dataCond = s.dataCond ∧ s'.calls = s.calls)
    (hreturned : ∀ u ≠ t, s'.returned u = s.returned u)
    (ha : a ∉ nodes.map Prod.fst ++ [s.tail]) (hothers : ∀ u ≠ t, (s.pc u).own ≠ some a)
    (hholds : (s.pc t).holdsHead = false ∧ pc.holdsHead = false ∧ (s.pc t).holdsTail = false ∧
      pc.holdsTail = false)
    (hasleep : (s.pc t).isAsleep = false ∧ pc.isAsleep = false)
    (hmine : ∀ b, pc.own = some b ↔ if b = a then m.isSome = true else (s.pc t).own = some b)
    (hok : PcOk s'.heap s'.head nodes pc) (htold : s'.told t = s.told t) : Rep s' nodes := by
  obtain ⟨hhead, htail, hheadMutex, htailMutex, hdataCond, hcalls⟩ := hrest
  obtain ⟨hholdsHead, hholdsHead', hholdsTail, hholdsTail'⟩ := hholds
  have hself : s'.pc t = pc := by rw [hpcs, Function.update_self]
  have hother : ∀ u ≠ t, s'.pc u = s.pc u := fun u hu => by rw [hpcs, Function.update_of_ne hu]
  have hsame : ∀ b, b ≠ a → s'.heap b = s.heap b := fun b hb => by
    rw [hheap, Function.update_of_ne hb]
  have hframe : Frame t s s' nodes nodes := by
    refine ⟨hother, hreturned, fun _ _ => by rw [hcalls], ?_,
      fun _ _ _ => ⟨hhead, [], (List.append_nil nodes).symm⟩⟩
    intro u hu b hb
    refine hsame b ?_
    rintro rfl
    exact hothers u hu hb
  have hmutexes : (∀ u ≠ t, s'.headMutex = some u ↔ s.headMutex = some u) ∧
      ∀ u ≠ t, s'.tailMutex = some u ↔ s.tailMutex = some u :=
    ⟨fun _ _ => by rw [hheadMutex], fun _ _ => by rw [htailMutex]⟩
  have howns : ∀ u b, b ≠ a → ((s'.pc u).own = some b ↔ (s.pc u).own = some b) := by
    intro u b hb
    by_cases hut : u = t
    · rw [hut, hself, hmine, if_neg hb]
    · rw [hother u hut]
  have htailNe : s.tail ≠ a := by
    rintro rfl
    exact ha (by simp)
  refine h.of_frame hframe ?_ ?_ ?_ ?_ hmutexes.1 ?_ hmutexes.2 ?_ (fun _ _ => by rw [hdataCond]) ?_
    ?_ ?_ ?_ ?_ ?_ ?_ ?_
  · have hfront : s'.front = s.front :=
      front_congr hhead hmutexes.1 hother (ThreadsafeQueuePc.taken_eq_none hholdsHead)
        (hself ▸ ThreadsafeQueuePc.taken_eq_none hholdsHead')
    rw [hfront, htail]
    exact h.front
  · rw [htail]
    refine h.links.congr ?_
    intro e he
    refine hsame e.1 ?_
    rintro rfl
    exact ha (List.mem_append_left _ (List.mem_map_of_mem he))
  · have hlast : s'.lastNode = s.lastNode :=
      lastNode_congr hmutexes.2 hother (ThreadsafeQueuePc.written_eq_empty hholdsTail)
        (hself ▸ ThreadsafeQueuePc.written_eq_empty hholdsTail')
    rw [hlast, htail, hsame _ htailNe]
    exact h.last
  · rw [htail]
    exact h.nodup
  · rw [hheadMutex, hself]
    exact h.head_same (hholdsHead'.trans hholdsHead.symm)
  · rw [htailMutex, hself]
    exact h.tail_same (hholdsTail'.trans hholdsTail.symm)
  · rw [hdataCond, hself]
    exact h.awake hasleep.1 hasleep.2
  · rw [hdataCond]
    exact h.condNodup
  · intro b
    rw [htail]
    by_cases hb : b = a
    · subst hb
      rw [hheap, Function.update_self]
      constructor
      · intro hm
        refine .inr ⟨t, ?_⟩
        rw [hself, hmine, if_pos rfl]
        exact hm
      · rintro (hb | ⟨u, hu⟩)
        · exact (ha hb).elim
        · by_cases hut : u = t
          · rw [hut, hself, hmine, if_pos rfl] at hu
            exact hu
          · rw [hother u hut] at hu
            exact (hothers u hut hu).elim
    · rw [hsame b hb, h.inUse]
      simp only [howns _ b hb]
  · intro u b hu
    rw [htail]
    by_cases hb : b = a
    · rw [hb]
      exact ha
    · exact h.apart u b ((howns u b hb).mp hu)
  · intro u b hu hb hub
    by_cases hba : b = a
    · exact hothers u hu (hba ▸ hub)
    · exact hu (h.alone u t b hub ((howns t b hba).mp hb))
  · rw [hself]
    exact hok
  · rw [hcalls]
    exact h.replays
  · rw [hcalls, htold]
    exact h.answers t

theorem Rep.push (h : Rep s nodes) (hpc : s.pc t = .idle) (hfree : (s.heap a).isSome = false) :
    Rep ((s.set a (some {})).goto t (.lockTail x a)) nodes := by
  have hnot : ¬(a ∈ nodes.map Prod.fst ++ [s.tail] ∨ ∃ u, (s.pc u).own = some a) := by
    rw [← h.inUse, hfree]
    exact Bool.false_ne_true
  rw [not_or, not_exists] at hnot
  refine h.allocates (t := t) rfl rfl ⟨rfl, rfl, rfl, rfl, rfl, rfl⟩ (fun _ _ => rfl) hnot.1
    (fun u _ => hnot.2 u) ⟨?_, rfl, ?_, rfl⟩ ⟨?_, rfl⟩ ?_ (Function.update_self ..) ?_
  · rw [hpc]
    rfl
  · rw [hpc]
    rfl
  · rw [hpc]
    rfl
  · intro b
    rw [hpc]
    by_cases hb : b = a
    · simp [ThreadsafeQueuePc.own, hb]
    · simp [ThreadsafeQueuePc.own, hb, Ne.symm hb]
  · rw [told, told, hpc]
    change _ ++ (Function.update s.pc t (.lockTail x a) t).pending _ = _
    rw [Function.update_self]
    rfl

/-- The old node is destroyed, and its element returned. -/
theorem Rep.destroy (h : Rep s nodes) (hpc : s.pc t = .destroy k value a) :
    ∃ s', s.destroy t k value a = .ok s' ∧ Rep s' nodes := by
  have hown : (s.pc t).own = some a := by
    rw [hpc]
    rfl
  obtain ⟨n, hn⟩ := Option.isSome_iff_exists.mp ((h.inUse a).mpr (.inr ⟨t, hown⟩))
  refine ⟨(s.set a none).leave t (.check (.pop k), .popped (value.or n.data)), ?_, ?_⟩
  · rw [ThreadsafeQueue.destroy, node_eq_ok hn]
    rfl
  refine h.allocates (t := t) rfl rfl ⟨rfl, rfl, rfl, rfl, rfl, rfl⟩
    (fun u hu => Function.update_of_ne hu ..) (h.apart t a hown)
    (fun u hu hua => hu (h.alone u t a hua hown)) ⟨?_, rfl, ?_, rfl⟩ ⟨?_, rfl⟩ ?_ trivial ?_
  · rw [hpc]
    rfl
  · rw [hpc]
    rfl
  · rw [hpc]
    rfl
  · intro b
    rw [hpc]
    by_cases hb : b = a
    · simp [ThreadsafeQueuePc.own, hb]
    · simp [ThreadsafeQueuePc.own, hb, Ne.symm hb]
  · rw [told, told, hpc]
    change Function.update s.returned t _ t ++ (Function.update s.pc t .idle t).pending _ = _
    rw [Function.update_self, Function.update_self]
    simp [ThreadsafeQueuePc.pending, hn, ThreadsafeQueue.set]

theorem Rep.atHead {nodes' : List (ℕ × T)} (h : Rep s nodes)
    (hpcs : s'.pc = Function.update s.pc t pc)
    (hrest : s'.tail = s.tail ∧ s'.headMutex = s.headMutex ∧ s'.tailMutex = s.tailMutex ∧
      s'.dataCond = s.dataCond ∧ s'.returned = s.returned)
    (hcalls : ∀ u ≠ t, callsOf u s'.calls = callsOf u s.calls)
    (hholds : (s.pc t).holdsHead = true ∧ pc.holdsHead = true ∧ (s.pc t).holdsTail = false ∧
      pc.holdsTail = false)
    (hasleep : (s.pc t).isAsleep = false ∧ pc.isAsleep = false)
    (hheap : ∀ b ∉ nodes.map Prod.fst, s'.heap b = s.heap b)
    (hfront : pc.taken.or s'.head = some (firstOf nodes' s.tail)) (hlinks : Links s'.heap s.tail nodes')
    (hsub : List.Sublist (nodes'.map Prod.fst ++ [s.tail]) (nodes.map Prod.fst ++ [s.tail]))
    (hinUse : ∀ b, (s'.heap b).isSome ↔
      b ∈ nodes'.map Prod.fst ++ [s.tail] ∨ ∃ u, (s'.pc u).own = some b)
    (hapart : ∀ b, pc.own = some b →
      b ∉ nodes'.map Prod.fst ++ [s.tail] ∧ b ∈ nodes.map Prod.fst)
    (hok : PcOk s'.heap s'.head nodes' pc)
    (hreplays : Replays QueueEffect [] s'.calls (nodes'.map Prod.snd))
    (hanswers : callsOf t s'.calls = s'.told t) : Rep s' nodes' := by
  obtain ⟨htail, hheadMutex, htailMutex, hdataCond, hreturned⟩ := hrest
  obtain ⟨hholdsHead, hholdsHead', hholdsTail, hholdsTail'⟩ := hholds
  have hself : s'.pc t = pc := by rw [hpcs, Function.update_self]
  have hother : ∀ u ≠ t, s'.pc u = s.pc u := fun u hu => by rw [hpcs, Function.update_of_ne hu]
  have hmine : s.headMutex = some t := (h.headLock t).mpr hholdsHead
  have hframe : Frame t s s' nodes nodes' := by
    refine ⟨hother, fun _ _ => by rw [hreturned], hcalls, ?_, ?_⟩
    · intro u _ b hb
      exact hheap b fun hmem => h.apart u b hb (List.mem_append_left _ hmem)
    · intro u hu hhead
      exact (hu (Option.some.inj (((h.headLock u).mpr hhead).symm.trans hmine))).elim
  have hmutex : ∀ u ≠ t, s'.tailMutex = some u ↔ s.tailMutex = some u :=
    fun _ _ => by rw [htailMutex]
  refine h.of_frame hframe ?_ (htail ▸ hlinks) ?_ (htail ▸ hsub.nodup h.nodup)
    (fun _ _ => by rw [hheadMutex]) ?_ hmutex ?_ (fun _ _ => by rw [hdataCond]) ?_ ?_
    (htail ▸ hinUse) ?_ ?_ ?_ hreplays hanswers
  · rw [ThreadsafeQueue.front, hheadMutex, hmine, Option.map_some, Option.getD_some, hself, htail]
    exact hfront
  · have hlast : s'.lastNode = s.lastNode :=
      lastNode_congr hmutex hother (ThreadsafeQueuePc.written_eq_empty hholdsTail)
        (hself ▸ ThreadsafeQueuePc.written_eq_empty hholdsTail')
    have hnot : s.tail ∉ nodes.map Prod.fst := by
      intro hmem
      exact (List.nodup_append.mp h.nodup).2.2 _ hmem s.tail (List.mem_singleton_self _) rfl
    rw [hlast, htail, hheap _ hnot]
    exact h.last
  · rw [hheadMutex, hself]
    exact iff_of_true hmine hholdsHead'
  · rw [htailMutex, hself]
    exact h.tail_same (hholdsTail'.trans hholdsTail.symm)
  · rw [hdataCond, hself]
    exact h.awake hasleep.1 hasleep.2
  · rw [hdataCond]
    exact h.condNodup
  · intro u b hu
    rw [htail]
    by_cases hut : u = t
    · rw [hut, hself] at hu
      exact (hapart b hu).1
    · rw [hother u hut] at hu
      exact fun hmem => h.apart u b hu (hsub.subset hmem)
  · intro u b _ hb hub
    rw [hself] at hb
    exact h.apart u b hub (List.mem_append_left _ (hapart b hb).2)
  · rw [hself]
    exact hok

/-- The first node is taken out. -/
theorem Rep.takeHead (h : Rep s nodes) (hpc : s.pc t = .takeHead k value) :
    ∃ s', s.takeHead t k value = .ok s' ∧ Rep s' nodes := by
  have hok : PcOk s.heap s.head nodes (.takeHead k value) := hpc ▸ h.pcOk t
  obtain ⟨e, rest, rfl, hvalue⟩ := hok
  have hhead : s.head = some e.1 := h.head_eq (t := t) (by rw [hpc]; rfl) (by rw [hpc]; rfl)
  refine ⟨{ s with head := none }.goto t (.moveNext k value e.1), ?_, ?_⟩
  · rw [ThreadsafeQueue.takeHead, hhead]
    rfl
  have hself : ({ s with head := none }.goto t (.moveNext k value e.1)).pc t =
      .moveNext k value e.1 := Function.update_self ..
  have howns : ∀ u, (({ s with head := none }.goto t (.moveNext k value e.1)).pc u).own =
      (s.pc u).own := by
    intro u
    by_cases hu : u = t
    · rw [hu, hself, hpc]
      rfl
    · exact congrArg _ (Function.update_of_ne hu ..)
  refine h.atHead (t := t) rfl ⟨rfl, rfl, rfl, rfl, rfl⟩ (fun _ _ => rfl) ⟨?_, rfl, ?_, rfl⟩
    ⟨?_, rfl⟩ (fun _ _ => rfl) rfl h.links (List.Sublist.refl _) ?_ nofun
    ⟨rfl, e.2, rest, rfl, hvalue⟩ h.replays ?_
  · rw [hpc]
    rfl
  · rw [hpc]
    rfl
  · rw [hpc]
    rfl
  · intro b
    simp only [howns]
    exact h.inUse b
  · rw [told, hself]
    refine (h.answers t).trans ?_
    rw [told, hpc]
    rfl

/-- The head moves on; the element is out of the queue. -/
theorem Rep.moveNext (h : Rep s nodes) (hpc : s.pc t = .moveNext k value a) :
    ∃ s', s.moveNext t k value a = .ok s' ∧ Rep s' nodes.tail := by
  have hok : PcOk s.heap s.head nodes (.moveNext k value a) := hpc ▸ h.pcOk t
  obtain ⟨-, x, rest, rfl, hvalue⟩ := hok
  obtain ⟨hn, hlinks⟩ := h.links
  have hnodup := h.nodup
  rw [List.map_cons, List.cons_append, List.nodup_cons] at hnodup
  have hres : value.or (some x) = some x := by
    cases value with
    | none => rfl
    | some v => rw [hvalue v rfl, Option.some_or]
  have hgo : s.moveNext t k value a =
      .ok ((({ s with head := some (firstOf rest s.tail) }.set a (some { data := some x })).goto t
        (.unlockHead k value a)).enter t (.check (.pop k), .popped (value.or (some x)))) := by
    rw [ThreadsafeQueue.moveNext, node_eq_ok hn]
    rfl
  rw [hres] at hgo
  refine ⟨_, hgo, ?_⟩
  have hself : ((({ s with head := some (firstOf rest s.tail) }.set a (some { data := some x })).goto t
      (.unlockHead k value a)).enter t (.check (.pop k), .popped (some x))).pc t =
      .unlockHead k value a := Function.update_self ..
  refine h.atHead (t := t) rfl ⟨rfl, rfl, rfl, rfl, rfl⟩ ?_ ⟨?_, rfl, ?_, rfl⟩ ⟨?_, rfl⟩ ?_ rfl ?_ ?_
    ?_ ?_ trivial (h.replays.concat t QueueEffect.pop) ?_
  · intro u hu
    exact callsOf_concat_other (Ne.symm hu)
  · rw [hpc]
    rfl
  · rw [hpc]
    rfl
  · rw [hpc]
    rfl
  · intro b hb
    refine Function.update_of_ne ?_ ..
    rintro rfl
    exact hb List.mem_cons_self
  · refine hlinks.congr ?_
    intro e he
    refine Function.update_of_ne ?_ ..
    intro hea
    exact hnodup.1 (List.mem_append_left _ (List.mem_map.mpr ⟨e, he, hea⟩))
  · exact List.sublist_cons_self _ _
  · intro b
    by_cases hb : b = a
    · subst hb
      refine iff_of_true ?_ (.inr ⟨t, by rw [hself]; rfl⟩)
      change (Function.update s.heap b (some { data := some x }) b).isSome = true
      rw [Function.update_self]
      rfl
    · change (Function.update s.heap a (some { data := some x }) b).isSome = true ↔ _
      rw [Function.update_of_ne hb, h.inUse, List.map_cons, List.cons_append, List.mem_cons]
      simp only [hb, false_or]
      refine or_congr_right ⟨?_, ?_⟩
      · rintro ⟨u, hu⟩
        refine ⟨u, ?_⟩
        by_cases hut : u = t
        · rw [hut, hpc] at hu
          cases hu
        · exact (congrArg _ (Function.update_of_ne hut ..)).trans hu
      · rintro ⟨u, hu⟩
        refine ⟨u, ?_⟩
        by_cases hut : u = t
        · rw [hut, hself] at hu
          exact (hb (Option.some.inj hu).symm).elim
        · exact (congrArg _ (Function.update_of_ne hut ..)).symm.trans hu
  · rintro b hb
    cases hb
    exact ⟨hnodup.1, List.mem_cons_self⟩
  · change callsOf t (s.calls ++ [(t, _)]) = _
    rw [callsOf_concat_own, h.answers t, told, told, hself, hpc]
    change s.returned t ++ [] ++ _ = s.returned t ++ [(_, .popped (value.or
      ((Function.update s.heap a (some { data := some x }) a).bind TailedNode.data)))]
    rw [Function.update_self, List.append_nil, Option.bind_some, hres]

/-- The nodes of the elements after a step of a thread. -/
def nodesAfter (s : ThreadsafeQueue τ T) (nodes : List (ℕ × T)) :
    ThreadsafeQueuePc T → List (ℕ × T)
  | .setTail newValue _ => nodes ++ [(s.tail, newValue)]
  | .moveNext _ _ _ => nodes.tail
  | _ => nodes

/-- Only a `try_pop` into a variable that has found nothing fails. -/
theorem Rep.go (h : Rep s nodes) (t : τ) (choice : ℕ) :
    (s.pc t = .returnNone true ∧ s.go t choice = .error .nullDeref) ∨
      ∃ s', s.go t choice = .ok s' ∧ Rep s' (nodesAfter s nodes (s.pc t)) := by
  unfold ThreadsafeQueue.go
  cases hpc : s.pc t with
  | idle => exact .inr ⟨s, rfl, h⟩
  | asleep into => exact .inr ⟨s, rfl, h⟩
  | lockTail newValue p => exact .inr ⟨_, rfl, h.lockTail hpc⟩
  | setData newValue p => exact .inr (h.setData hpc)
  | setNext newValue p => exact .inr (h.setNext hpc)
  | setTail newValue p => exact .inr ⟨_, rfl, h.setTail hpc⟩
  | unlockTail newValue => exact .inr ⟨_, rfl, h.unlockTail hpc⟩
  | notify newValue => exact .inr ⟨_, rfl, h.notify hpc choice⟩
  | lockHead c => exact .inr ⟨_, rfl, h.lockHead hpc⟩
  | lockSeen c => exact .inr ⟨_, rfl, h.lockSeen hpc⟩
  | readTail c => exact .inr ⟨_, rfl, h.readTail hpc⟩
  | unlockSeen c isEmpty => exact .inr ⟨_, rfl, h.unlockSeen hpc⟩
  | readValue k => exact .inr (h.readValue hpc)
  | takeHead k value => exact .inr (h.takeHead hpc)
  | moveNext k value oldHead => exact .inr (h.moveNext hpc)
  | unlockHead k value oldHead => exact .inr ⟨_, rfl, h.unlockHead hpc⟩
  | destroy k value oldHead => exact .inr (h.destroy hpc)
  | unlockNone into => exact .inr ⟨_, rfl, h.unlockNone hpc⟩
  | returnNone into =>
    cases into with
    | true => exact .inl ⟨rfl, rfl⟩
    | false => exact .inr ⟨_, rfl, h.returnNone hpc⟩
  | sleep into => exact .inr ⟨_, rfl, h.sleep hpc⟩
  | unlockEmpty isEmpty => exact .inr ⟨_, rfl, h.unlockEmpty hpc⟩

theorem Rep.call (h : Rep s nodes) (t : τ) (request : QueueRequest T) (address : ℕ) :
    Rep (s.call t request address) nodes := by
  unfold ThreadsafeQueue.call
  cases hpc : s.pc t with
  | idle =>
    cases request with
    | push newValue =>
      change Rep (if (s.heap address).isSome then s else _) nodes
      by_cases hused : (s.heap address).isSome
      · rw [if_pos hused]
        exact h
      · rw [if_neg hused]
        exact h.push hpc (by simpa using hused)
    | check c =>
      have hhead : s.headMutex ≠ some t := by
        rw [Ne, h.headLock, hpc]
        exact Bool.false_ne_true
      refine h.keeps (fun _ _ => Iff.rfl) (iff_of_false hhead Bool.false_ne_true) (fun _ _ => Iff.rfl)
        (h.tail_same ?_) ?_ trivial
      · rw [hpc]
        rfl
      · rw [hpc]
        exact ⟨⟨rfl, rfl⟩, ⟨rfl, rfl⟩, ⟨rfl, rfl⟩, rfl, rfl⟩
  | _ => exact h

end Steps

end HighPerformance.ThreadsafeQueue
