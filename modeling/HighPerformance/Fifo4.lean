import HighPerformance.Fifo3

/-!
# Cached cursors

`Fifo4` is `Fifo3` with a private copy of the other side's cursor on each side. The
copy is read first, and the cursor itself only when the queue seems full or
empty by the copy. Every access of `Fifo4` is matched by accesses of `Fifo3` with
the same calls and returns: a call that is satisfied with its copy has, in
`Fifo3`, read the cursor itself.
-/

namespace HighPerformance
open FallibleRun

/-- `cachedPopCursor` is exclusive to the push thread, `cachedPushCursor` to the
pop thread. -/
structure Fifo4 (T : Type) extends Fifo3 T where
  cachedPopCursor : ℕ := 0
  cachedPushCursor : ℕ := 0

/-- A slot that the call has found free and not published yet. -/
def FifoProducer.claimed {T : Type} : FifoProducer T → ℕ
  | .construct _ _ | .store _ _ => 1
  | _ => 0

/-- An element that the call has found and not given back yet. -/
def FifoConsumer.claimed {T : Type} : FifoConsumer T → ℕ
  | .read _ | .destroy _ _ | .store _ _ => 1
  | _ => 0

namespace Fifo4
variable {T : Type}

def init (T : Type) (capacity : ℕ) : FifoThreads (Fifo4 T) T := { queue := { capacity := capacity } }

def push (s : FifoThreads (Fifo4 T) T) (x : T) : FifoThreads (Fifo4 T) T :=
  match s.producer with
  | .idle => s.callPush x
  | .called x =>
      if s.queue.full s.queue.pushCursor s.queue.cachedPopCursor then
        { s with producer := .loaded x s.queue.pushCursor }
      else { s with producer := .construct x s.queue.pushCursor }
  | .loaded x pushCursor =>
      let cached := { s with queue := { s.queue with cachedPopCursor := s.queue.popCursor } }
      if s.queue.full pushCursor s.queue.popCursor then cached.pushFails
      else { cached with producer := .construct x pushCursor }
  | .construct x pushCursor =>
      { s with
        queue := { s.queue with toFifo3 := s.queue.construct pushCursor x }
        producer := .store x pushCursor }
  | .store x pushCursor =>
      s.pushReturns { s.queue with toFifo3 := s.queue.storePushCursor (pushCursor + 1) } x

def pop (s : FifoThreads (Fifo4 T) T) : FifoThreads (Fifo4 T) T :=
  match s.consumer with
  | .idle => s.callPop
  | .called =>
      if Fifo3.empty s.queue.cachedPushCursor s.queue.popCursor then
        { s with consumer := .loaded s.queue.popCursor }
      else { s with consumer := .read s.queue.popCursor }
  | .loaded popCursor =>
      let cached := { s with queue := { s.queue with cachedPushCursor := s.queue.pushCursor } }
      if Fifo3.empty s.queue.pushCursor popCursor then cached.popFails
      else { cached with consumer := .read popCursor }
  | .read popCursor =>
      { s with consumer := .destroy popCursor (s.queue.ring (s.queue.element popCursor)) }
  | .destroy popCursor value =>
      { s with
        queue := { s.queue with toFifo3 := s.queue.destroy popCursor }
        consumer := .store popCursor value }
  | .store popCursor value =>
      s.popReturns { s.queue with toFifo3 := s.queue.storePopCursor (popCursor + 1) } value

def step (s : FifoThreads (Fifo4 T) T) : FifoThread T → FifoThreads (Fifo4 T) T
  | .producer x => push s x
  | .consumer => pop s

/-- Where `Fifo3::pop` is meanwhile: it has not read anything before `Fifo4::pop` is
satisfied with a value of `_pushCursor`. -/
def uncachedConsumer : FifoConsumer T → FifoConsumer T
  | .loaded _ => .called
  | c => c

def uncached (s : FifoThreads (Fifo4 T) T) : FifoThreads (Fifo3 T) T :=
  { s with queue := s.queue.toFifo3, consumer := uncachedConsumer s.consumer }

/-- The accesses of `Fifo3` that match one of `Fifo4`. -/
def matching (s : FifoThreads (Fifo4 T) T) : FifoThread T → List (FifoThread T)
  | .producer x =>
      match s.producer with
      | .called _ =>
          if s.queue.full s.queue.pushCursor s.queue.cachedPopCursor then [.producer x]
          else [.producer x, .producer x]
      | _ => [.producer x]
  | .consumer =>
      match s.consumer with
      | .called =>
          if Fifo3.empty s.queue.cachedPushCursor s.queue.popCursor then []
          else [.consumer, .consumer]
      | .loaded _ => [.consumer, .consumer]
      | _ => [.consumer]

/-- How old the copies can be. -/
structure Cached (s : FifoThreads (Fifo4 T) T) : Prop where
  popCursor : s.queue.cachedPopCursor ≤ s.popped.length
  pushCursor : s.queue.cachedPushCursor ≤ s.pushed.length
  room : s.pushed.length + s.producer.claimed ≤ s.queue.cachedPopCursor + s.queue.capacity
  loaded : ∀ c, s.consumer = .loaded c → c = s.popped.length
  taken : s.popped.length + s.consumer.claimed ≤ s.queue.cachedPushCursor

structure Rep (n : ℕ) (s : FifoThreads (Fifo4 T) T) : Prop where
  matched : ∃ done : List (FifoThread T), done.foldl Fifo3.step (Fifo3.init T n) = uncached s
  uncached : Fifo3.Rep n (uncached s)
  cached : Cached s

section Steps
variable {n : ℕ} {s : FifoThreads (Fifo4 T) T}

theorem rep_init (n : ℕ) : Rep n (init T n) := by
  constructor
  · exact ⟨[], rfl⟩
  · exact Fifo3.rep_init n
  · constructor
    · exact Nat.le_refl _
    · exact Nat.le_refl _
    · exact Nat.zero_le _
    · intro c hc
      cases hc
    · exact Nat.le_refl _

theorem Rep.pushCursor (h : Rep n s) : s.queue.pushCursor = s.pushed.length :=
  h.uncached.pushCursor

theorem Rep.popCursor (h : Rep n s) : s.queue.popCursor = s.popped.length :=
  h.uncached.popCursor

theorem Rep.fewer (h : Rep n s) : s.pushed.length < 2 ^ 64 := h.uncached.fewer

theorem Rep.le (h : Rep n s) : s.popped.length ≤ s.pushed.length := h.uncached.le

theorem Rep.room_of_not_full (h : Rep n s)
    (hcached : ¬s.queue.full s.queue.pushCursor s.queue.cachedPopCursor = true) :
    s.pushed.length + 1 ≤ s.queue.cachedPopCursor + s.queue.capacity := by
  have hcache := h.cached.popCursor
  have hroom := h.cached.room
  rw [h.pushCursor, Fifo3.full_iff (Nat.le_trans hcache h.le) h.fewer] at hcached
  omega

theorem Rep.taken_of_not_empty (h : Rep n s)
    (hcached : ¬Fifo3.empty s.queue.cachedPushCursor s.queue.popCursor = true) :
    s.popped.length + 1 ≤ s.queue.cachedPushCursor := by
  have htaken := h.cached.taken
  rw [Fifo3.empty, h.popCursor, beq_iff_eq] at hcached
  omega

theorem Rep.not_full (h : Rep n s)
    (hcached : ¬s.queue.full s.queue.pushCursor s.queue.cachedPopCursor = true) :
    ¬s.queue.full s.queue.pushCursor s.queue.popCursor = true := by
  have hlt := h.room_of_not_full hcached
  have hcache := h.cached.popCursor
  rw [h.pushCursor, h.popCursor, Fifo3.full_iff h.le h.fewer]
  omega

theorem Rep.not_empty (h : Rep n s)
    (hcached : ¬Fifo3.empty s.queue.cachedPushCursor s.queue.popCursor = true) :
    ¬Fifo3.empty s.queue.pushCursor s.queue.popCursor = true := by
  have hlt := h.taken_of_not_empty hcached
  have hcache := h.cached.pushCursor
  rw [Fifo3.empty, h.pushCursor, h.popCursor, beq_iff_eq]
  omega

theorem Rep.uncached_push (h : Rep n s) (x : T) :
    Fifo4.uncached (push s x) =
      (matching s (.producer x)).foldl Fifo3.step (Fifo4.uncached s) := by
  unfold push matching
  cases hs : s.producer with
  | idle => simp [Fifo4.uncached, Fifo3.step, Fifo3.push, hs, FifoThreads.callPush]
  | called y =>
    by_cases hfull : s.queue.full s.queue.pushCursor s.queue.cachedPopCursor = true
    · simp [Fifo4.uncached, Fifo3.step, Fifo3.push, hs, hfull]
    · have hreal := h.not_full hfull
      simp [Fifo4.uncached, Fifo3.step, Fifo3.push, hs, hfull, hreal]
  | loaded y c =>
    by_cases hfull : s.queue.full c s.queue.popCursor = true
    · simp [Fifo4.uncached, Fifo3.step, Fifo3.push, hs, hfull, FifoThreads.pushFails]
    · simp [Fifo4.uncached, Fifo3.step, Fifo3.push, hs, hfull]
  | construct y c => simp [Fifo4.uncached, Fifo3.step, Fifo3.push, hs]
  | store y c => simp [Fifo4.uncached, Fifo3.step, Fifo3.push, hs, FifoThreads.pushReturns]

theorem Rep.uncached_pop (h : Rep n s) :
    Fifo4.uncached (pop s) = (matching s .consumer).foldl Fifo3.step (Fifo4.uncached s) := by
  unfold pop matching
  cases hs : s.consumer with
  | idle => simp [Fifo4.uncached, Fifo3.step, Fifo3.pop, hs, FifoThreads.callPop, uncachedConsumer]
  | called =>
    by_cases hempty : Fifo3.empty s.queue.cachedPushCursor s.queue.popCursor = true
    · simp [Fifo4.uncached, hs, hempty, uncachedConsumer]
    · have hreal := h.not_empty hempty
      simp [Fifo4.uncached, Fifo3.step, Fifo3.pop, hs, hempty, hreal, uncachedConsumer]
  | loaded c =>
    have hc : c = s.queue.popCursor := (h.cached.loaded c hs).trans h.popCursor.symm
    subst hc
    by_cases hempty : Fifo3.empty s.queue.pushCursor s.queue.popCursor = true
    · simp [Fifo4.uncached, Fifo3.step, Fifo3.pop, hs, hempty, uncachedConsumer,
        FifoThreads.popFails]
    · simp [Fifo4.uncached, Fifo3.step, Fifo3.pop, hs, hempty, uncachedConsumer]
  | read c => simp [Fifo4.uncached, Fifo3.step, Fifo3.pop, hs, uncachedConsumer]
  | destroy c v => simp [Fifo4.uncached, Fifo3.step, Fifo3.pop, hs, uncachedConsumer]
  | store c v =>
    simp [Fifo4.uncached, Fifo3.step, Fifo3.pop, hs, uncachedConsumer, FifoThreads.popReturns]

theorem Cached.of_push {t : FifoThreads (Fifo4 T) T} (h : Cached s)
    (hqueue : t.queue.cachedPushCursor = s.queue.cachedPushCursor)
    (hconsumer : t.consumer = s.consumer) (hpopped : t.popped = s.popped)
    (hle : s.pushed.length ≤ t.pushed.length)
    (hpop : t.queue.cachedPopCursor ≤ t.popped.length)
    (hroom : t.pushed.length + t.producer.claimed ≤
      t.queue.cachedPopCursor + t.queue.capacity) : Cached t := by
  constructor
  · exact hpop
  · rw [hqueue]
    exact Nat.le_trans h.pushCursor hle
  · exact hroom
  · rw [hconsumer, hpopped]
    exact h.loaded
  · rw [hconsumer, hpopped, hqueue]
    exact h.taken

theorem Rep.cached_push (h : Rep n s) (x : T) : Cached (push s x) := by
  have hroom := h.cached.room
  have hcache := h.cached.popCursor
  unfold push
  cases hs : s.producer with
  | idle =>
    rw [hs] at hroom
    exact h.cached.of_push rfl rfl rfl (Nat.le_refl _) hcache hroom
  | called y =>
    rw [hs] at hroom
    simp only
    split
    · exact h.cached.of_push rfl rfl rfl (Nat.le_refl _) hcache hroom
    · next hfull =>
      exact h.cached.of_push rfl rfl rfl (Nat.le_refl _) hcache (h.room_of_not_full hfull)
  | loaded y c =>
    have hp := h.uncached.producer
    have hreal : s.pushed.length ≤ s.popped.length + s.queue.capacity := by
      rw [show s.queue.capacity = n from h.uncached.capacity]
      exact h.uncached.room
    have hpop : s.queue.popCursor ≤ s.popped.length := Nat.le_of_eq h.popCursor
    simp only [Fifo3.ProducerOk, Fifo4.uncached, hs] at hp
    simp only
    split
    · refine h.cached.of_push rfl rfl rfl (Nat.le_refl _) hpop ?_
      change s.pushed.length ≤ s.queue.popCursor + s.queue.capacity
      rw [h.popCursor]
      exact hreal
    · next hfull =>
      rw [hp, h.popCursor, Fifo3.full_iff h.le h.fewer] at hfull
      refine h.cached.of_push rfl rfl rfl (Nat.le_refl _) hpop ?_
      change s.pushed.length + 1 ≤ s.queue.popCursor + s.queue.capacity
      rw [h.popCursor]
      omega
  | construct y c =>
    rw [hs] at hroom
    exact h.cached.of_push rfl rfl rfl (Nat.le_refl _) hcache hroom
  | store y c =>
    rw [hs] at hroom
    have hlen : (s.pushed ++ [y]).length = s.pushed.length + 1 := by
      rw [List.length_append, List.length_singleton]
    refine h.cached.of_push rfl rfl rfl (List.prefix_append _ _).length_le hcache ?_
    change (s.pushed ++ [y]).length ≤ _
    rw [hlen]
    exact hroom

theorem Cached.of_pop {t : FifoThreads (Fifo4 T) T} (h : Cached s)
    (hqueue : t.queue.cachedPopCursor = s.queue.cachedPopCursor)
    (hcapacity : t.queue.capacity = s.queue.capacity)
    (hproducer : t.producer = s.producer) (hpushed : t.pushed = s.pushed)
    (hle : s.popped.length ≤ t.popped.length)
    (hpush : t.queue.cachedPushCursor ≤ t.pushed.length)
    (hloaded : ∀ c, t.consumer = .loaded c → c = t.popped.length)
    (htaken : t.popped.length + t.consumer.claimed ≤ t.queue.cachedPushCursor) : Cached t := by
  constructor
  · rw [hqueue]
    exact Nat.le_trans h.popCursor hle
  · exact hpush
  · rw [hproducer, hpushed, hqueue, hcapacity]
    exact h.room
  · exact hloaded
  · exact htaken

theorem Rep.cached_pop (h : Rep n s) : Cached (pop s) := by
  have htaken := h.cached.taken
  have hcache := h.cached.pushCursor
  unfold pop
  cases hs : s.consumer with
  | idle =>
    rw [hs] at htaken
    exact h.cached.of_pop rfl rfl rfl rfl (Nat.le_refl _) hcache (fun _ hc => by cases hc) htaken
  | called =>
    rw [hs] at htaken
    simp only
    split
    · refine h.cached.of_pop rfl rfl rfl rfl (Nat.le_refl _) hcache ?_ htaken
      intro c hc
      cases hc
      exact h.popCursor
    · next hempty =>
      exact h.cached.of_pop rfl rfl rfl rfl (Nat.le_refl _) hcache (fun _ hc => by cases hc)
        (h.taken_of_not_empty hempty)
  | loaded c =>
    have hc := h.cached.loaded c hs
    have hpush : s.queue.pushCursor ≤ s.pushed.length := Nat.le_of_eq h.pushCursor
    have hle := h.le
    simp only
    split
    · refine h.cached.of_pop rfl rfl rfl rfl (Nat.le_refl _) hpush (fun _ hc => by cases hc) ?_
      change s.popped.length ≤ s.queue.pushCursor
      rw [h.pushCursor]
      exact hle
    · next hempty =>
      rw [Fifo3.empty, h.pushCursor, hc, beq_iff_eq] at hempty
      refine h.cached.of_pop rfl rfl rfl rfl (Nat.le_refl _) hpush (fun _ hc => by cases hc) ?_
      change s.popped.length + 1 ≤ s.queue.pushCursor
      rw [h.pushCursor]
      omega
  | read c =>
    rw [hs] at htaken
    exact h.cached.of_pop rfl rfl rfl rfl (Nat.le_refl _) hcache (fun _ hc => by cases hc) htaken
  | destroy c v =>
    rw [hs] at htaken
    exact h.cached.of_pop rfl rfl rfl rfl (Nat.le_refl _) hcache (fun _ hc => by cases hc) htaken
  | store c v =>
    rw [hs] at htaken
    have hlen : (s.popped ++ [v]).length = s.popped.length + 1 := by
      rw [List.length_append, List.length_singleton]
    refine h.cached.of_pop rfl rfl rfl rfl (List.prefix_append _ _).length_le hcache
      (fun _ hc => by cases hc) ?_
    change (s.popped ++ [v]).length ≤ _
    rw [hlen]
    exact htaken

theorem length_pushed_le (s : FifoThreads (Fifo4 T) T) (a : FifoThread T) :
    s.pushed.length ≤ (step s a).pushed.length := by
  cases a with
  | producer x =>
    unfold step push
    cases hs : s.producer with
    | called y =>
      simp only
      split
      · exact Nat.le_refl _
      · exact Nat.le_refl _
    | loaded y c =>
      simp only
      split
      · exact Nat.le_refl _
      · exact Nat.le_refl _
    | store y c => exact (List.prefix_append _ _).length_le
    | _ => exact Nat.le_refl _
  | consumer =>
    unfold step pop
    cases hs : s.consumer with
    | called =>
      simp only
      split
      · exact Nat.le_refl _
      · exact Nat.le_refl _
    | loaded c =>
      simp only
      split
      · exact Nat.le_refl _
      · exact Nat.le_refl _
    | _ => exact Nat.le_refl _

theorem Rep.step (h : Rep n s) (a : FifoThread T) (hfewer : (step s a).pushed.length < 2 ^ 64) :
    Rep n (step s a) := by
  have hstep : Fifo4.uncached (Fifo4.step s a) =
      (matching s a).foldl Fifo3.step (Fifo4.uncached s) := by
    cases a with
    | producer x => exact h.uncached_push x
    | consumer => exact h.uncached_pop
  constructor
  · obtain ⟨done, hdone⟩ := h.matched
    exact ⟨done ++ matching s a, by rw [List.foldl_append, hdone, hstep]⟩
  · have hlt : (Fifo4.uncached (Fifo4.step s a)).pushed.length < 2 ^ 64 := hfewer
    rw [hstep] at hlt ⊢
    exact foldl_invariant_of_lt Fifo3.length_pushed_le hlt h.uncached fun _ b hb => hb.step b
  · cases a with
    | producer x => exact h.cached_push x
    | consumer => exact h.cached_pop

theorem push_fails {x : T} (h : (push s x).history = s.history ++ [.pushReturned false]) :
    ∃ y c, s.producer = .loaded y c ∧ s.queue.full c s.queue.popCursor = true := by
  unfold push at h
  cases hs : s.producer with
  | called y =>
    by_cases hfull : s.queue.full s.queue.pushCursor s.queue.cachedPopCursor = true
    · simp [hs, hfull] at h
    · simp [hs, hfull] at h
  | loaded y c =>
    refine ⟨y, c, rfl, ?_⟩
    by_contra hfull
    simp [hs, hfull] at h
  | _ => simp [hs, FifoThreads.callPush, FifoThreads.pushReturns] at h

theorem pop_fails (h : (pop s).history = s.history ++ [.popFailed]) :
    ∃ c, s.consumer = .loaded c ∧ Fifo3.empty s.queue.pushCursor c = true := by
  unfold pop at h
  cases hs : s.consumer with
  | called =>
    by_cases hempty : Fifo3.empty s.queue.cachedPushCursor s.queue.popCursor = true
    · simp [hs, hempty] at h
    · simp [hs, hempty] at h
  | loaded c =>
    refine ⟨c, rfl, ?_⟩
    by_contra hempty
    simp [hs, hempty] at h
  | _ => simp [hs, FifoThreads.callPop, FifoThreads.popReturns] at h

theorem Rep.size (h : Rep n s) : s.queue.size = s.pushed.length - s.popped.length :=
  h.uncached.size

theorem Rep.safe (h : Rep n s) : s.Safe s.queue.toFifo3 := by
  have hsafe := h.uncached.safe
  constructor
  · exact hsafe.inOrder
  · exact hsafe.bounded
  · exact hsafe.size
  · exact hsafe.construct
  · intro c hc
    apply hsafe.read c
    simp only [Fifo4.uncached, hc, uncachedConsumer]

theorem Rep.full_of_push_fails (h : Rep n s) {x : T}
    (hx : (push s x).history = s.history ++ [.pushReturned false]) :
    (∃ y c, s.producer = .loaded y c) ∧ s.queue.size = s.queue.capacity := by
  obtain ⟨y, c, hs, hfull⟩ := push_fails hx
  have hp := h.uncached.producer
  simp only [Fifo3.ProducerOk, Fifo4.uncached, hs] at hp
  rw [hp, h.popCursor, Fifo3.full_iff h.le h.fewer] at hfull
  exact ⟨⟨y, c, hs⟩, by rw [h.size]; omega⟩

theorem Rep.empty_of_pop_fails (h : Rep n s) (hx : (pop s).history = s.history ++ [.popFailed]) :
    (∃ c, s.consumer = .loaded c) ∧ s.queue.size = 0 := by
  obtain ⟨c, hs, hempty⟩ := pop_fails hx
  rw [Fifo3.empty, h.pushCursor, h.cached.loaded c hs, beq_iff_eq] at hempty
  exact ⟨⟨c, hs⟩, by rw [h.size]; omega⟩

end Steps

/-- After every schedule with fewer than `2 ^ 64` pushes the values have arrived once each and in
order, and the slots are free when they are written and filled when they are read. A call returns
false only when the cursor that it has just read shows the queue full, or empty. The calls and
returns are those of some schedule of `Fifo3`. -/
theorem run_refines (n : ℕ) (schedule : List (FifoThread T))
    (hfewer : (schedule.foldl step (init T n)).pushed.length < 2 ^ 64) :
    let s := schedule.foldl step (init T n)
    s.Safe s.queue.toFifo3 ∧
      (∀ x, (push s x).history = s.history ++ [.pushReturned false] →
        (∃ y c, s.producer = .loaded y c) ∧ s.queue.size = s.queue.capacity) ∧
      ((pop s).history = s.history ++ [.popFailed] →
        (∃ c, s.consumer = .loaded c) ∧ s.queue.size = 0) ∧
      ∃ done : List (FifoThread T),
        (done.foldl Fifo3.step (Fifo3.init T n)).history = s.history := by
  intro s
  have hrep : Rep n s :=
    foldl_invariant_of_lt length_pushed_le hfewer (rep_init n) fun _ a h => h.step a
  refine ⟨hrep.safe, fun _ => hrep.full_of_push_fails, hrep.empty_of_pop_fails, ?_⟩
  obtain ⟨done, hdone⟩ := hrep.matched
  exact ⟨done, congrArg FifoThreads.history hdone⟩

/-- One slot: the second push is refused, and both copies are renewed. -/
theorem one_slot_refines : ∃ done : List (FifoThread ℕ),
    (done.foldl Fifo3.step (Fifo3.init ℕ 1)).history =
      [.pushCalled 7, .pushReturned true, .pushCalled 8, .pushReturned false, .popCalled,
        .popReturned (some 7)] := by
  have hrun := run_refines 1 [.producer 7, .producer 7, .producer 7, .producer 7, .producer 8,
    .producer 8, .producer 8, .consumer, .consumer, .consumer, .consumer, .consumer, .consumer]
    (by decide)
  obtain ⟨done, hdone⟩ := hrun.2.2.2
  exact ⟨done, hdone.trans rfl⟩

end Fifo4

end HighPerformance
