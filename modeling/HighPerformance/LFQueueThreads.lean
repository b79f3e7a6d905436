import HighPerformance.LFQueue

/-!
# The queue while both threads use it

One thread writes, one reads. An action is one access to a member of the class
that the other thread can see, or the access to an element. The producer leaves
a slot free: it begins a write only while fewer than `capacity - 1` elements are
unread. The reader does not ask for `size()` before it reads, as in
`MatchingEngine::run`, `OrderGateway::run` and `TradeEngine::run`.
-/

namespace HighPerformance
open FallibleRun RingStore

/-- Before the element is written, before the store of the index, before the
increment. -/
inductive LFQueueProducer (T : Type) where
  | assign
  | storeIndex (x : T)
  | count

/-- Before the test for an element, before the access to it, before the store of
the index, before the assertion, before the decrement. -/
inductive LFQueueConsumer where
  | poll
  | use (index : ℕ)
  | storeIndex
  | test
  | decrement

/-- Elements whose write is not counted yet. -/
def LFQueueProducer.uncounted {T : Type} : LFQueueProducer T → ℕ
  | .count => 1
  | _ => 0

/-- Elements that have been taken and are still counted. -/
def LFQueueConsumer.uncounted : LFQueueConsumer → ℕ
  | .poll | .use _ => 0
  | _ => 1

structure LFQueueThreads (T : Type) where
  queue : LFQueue T
  producer : LFQueueProducer T := .assign
  consumer : LFQueueConsumer := .poll
  written : List T := []
  taken : List T := []

/-- The thread that acts; `x` is the value that the producer has next. -/
inductive LFQueueThread (T : Type) where
  | producer (x : T)
  | consumer

namespace LFQueueThreads
variable {T : Type}

def init [Inhabited T] (numElems : ℕ) : LFQueueThreads T := { queue := .init numElems }

def produce (s : LFQueueThreads T) (x : T) : LFQueueThreads T :=
  match s.producer with
  | .assign =>
      if s.written.length - s.taken.length + 1 < s.queue.capacity then
        { s with queue := s.queue.writeNext x, producer := .storeIndex x }
      else s
  | .storeIndex x =>
      { s with
        queue := { s.queue with
          nextWriteIndex := (s.queue.nextWriteIndex + 1) % s.queue.capacity }
        producer := .count
        written := s.written ++ [x] }
  | .count =>
      { s with
        queue := { s.queue with numElements := s.queue.numElements + 1 }
        producer := .assign }

def consume (thread : ℕ) (s : LFQueueThreads T) : Except Fault (LFQueueThreads T) :=
  match s.consumer with
  | .poll =>
      if s.queue.nextReadIndex = s.queue.nextWriteIndex then .ok s
      else .ok { s with consumer := .use s.queue.nextReadIndex }
  | .use index => .ok { s with consumer := .storeIndex, taken := s.taken ++ [s.queue.store index] }
  | .storeIndex =>
      .ok { s with
        queue := { s.queue with nextReadIndex := (s.queue.nextReadIndex + 1) % s.queue.capacity }
        consumer := .test }
  | .test => do
      assert (s.queue.numElements ≠ 0) (LFQueue.invalidRead thread)
      return { s with consumer := .decrement }
  | .decrement =>
      .ok { s with
        queue := { s.queue with numElements := s.queue.numElements - 1 }
        consumer := .poll }

def step (thread : ℕ) (s : LFQueueThreads T) : LFQueueThread T → Except Fault (LFQueueThreads T)
  | .producer x => .ok (s.produce x)
  | .consumer => s.consume thread

/-- The reader does not come to its assertion while the writer stands between
its two updates with nothing else unread. -/
def TestsCounted (s : LFQueueThreads T) : LFQueueThread T → Prop
  | .producer _ => True
  | .consumer => s.consumer = .test → s.producer = .count →
      s.queue.nextReadIndex ≠ s.queue.nextWriteIndex

/-- What the writer knows of its next slot. -/
def ProducerOk (n : ℕ) (s : LFQueueThreads T) : Prop :=
  match s.producer with
  | .assign => s.written.length < s.taken.length + n
  | .storeIndex x => s.written.length + 1 < s.taken.length + n ∧
      s.queue.store (s.written.length % n) = x
  | .count => s.written.length < s.taken.length + n

/-- Where the index of the reader stands. -/
def ConsumerOk (n : ℕ) (s : LFQueueThreads T) : Prop :=
  match s.consumer with
  | .poll => s.queue.nextReadIndex = s.taken.length % n
  | .use index => s.queue.nextReadIndex = s.taken.length % n ∧
      index = s.taken.length % n ∧ s.taken.length < s.written.length
  | .storeIndex => (s.queue.nextReadIndex + 1) % n = s.taken.length % n
  | .test => s.queue.nextReadIndex = s.taken.length % n
  | .decrement => s.queue.nextReadIndex = s.taken.length % n ∧ 0 < s.queue.numElements

structure Rep (n : ℕ) (s : LFQueueThreads T) : Prop where
  capacity : s.queue.capacity = n
  taken : s.taken <+: s.written
  write : s.queue.nextWriteIndex = s.written.length % n
  count : s.queue.numElements + s.taken.length + s.producer.uncounted =
    s.written.length + s.consumer.uncounted
  keeps : Keeps n s.queue.store s.written s.taken.length
  producer : ProducerOk n s
  consumer : ConsumerOk n s

section Steps
variable {n thread : ℕ} {s t : LFQueueThreads T} {a : LFQueueThread T}

theorem rep_init [Inhabited T] (hn : 1 ≤ n) : Rep n (init n : LFQueueThreads T) := by
  constructor
  · rfl
  · exact List.nil_prefix
  · exact (Nat.zero_mod n).symm
  · rfl
  · exact keeps_nil n _
  · exact Nat.lt_add_left 0 hn
  · exact (Nat.zero_mod n).symm

theorem Rep.room (h : Rep n s) : s.written.length < s.taken.length + n := by
  have hp := h.producer
  unfold ProducerOk at hp
  split at hp
  · exact hp
  · omega
  · exact hp

theorem ConsumerOk.of_produce {t : LFQueueThreads T} (h : ConsumerOk n s)
    (hc : t.consumer = s.consumer) (hr : t.queue.nextReadIndex = s.queue.nextReadIndex)
    (ht : t.taken = s.taken) (hw : s.written.length ≤ t.written.length)
    (hcount : s.queue.numElements ≤ t.queue.numElements) : ConsumerOk n t := by
  unfold ConsumerOk at h ⊢
  rw [hc, hr, ht]
  split at h
  · exact h
  · exact ⟨h.1, h.2.1, Nat.lt_of_lt_of_le h.2.2 hw⟩
  · exact h
  · exact h
  · exact ⟨h.1, Nat.lt_of_lt_of_le h.2 hcount⟩

theorem Rep.produce (h : Rep n s) (x : T) : Rep n (s.produce x) := by
  have hle := h.taken.length_le
  have hp := h.producer
  have hcount := h.count
  unfold ProducerOk at hp
  unfold LFQueueThreads.produce
  cases hs : s.producer with
  | assign =>
    rw [hs] at hcount hp
    simp only
    split
    · next hfree =>
      rw [h.capacity] at hfree
      constructor
      · exact h.capacity
      · exact h.taken
      · exact h.write
      · exact hcount
      · change Keeps n (Function.update s.queue.store s.queue.nextWriteIndex x) _ _
        rw [h.write]
        exact h.keeps.assign h.room x
      · refine ⟨by change s.written.length + 1 < s.taken.length + n; omega, ?_⟩
        change Function.update s.queue.store s.queue.nextWriteIndex x (s.written.length % n) = x
        rw [h.write, Function.update_self]
      · exact h.consumer
    · exact h
  | storeIndex y =>
    rw [hs] at hcount hp
    have hlen : (s.written ++ [y]).length = s.written.length + 1 := by
      rw [List.length_append, List.length_singleton]
    constructor
    · exact h.capacity
    · exact h.taken.trans (List.prefix_append _ _)
    · change (s.queue.nextWriteIndex + 1) % s.queue.capacity = _
      rw [h.capacity, h.write, next_slot, hlen]
    · change s.queue.numElements + s.taken.length + 1 =
        (s.written ++ [y]).length + s.consumer.uncounted
      rw [hlen]
      simp only [LFQueueProducer.uncounted] at hcount
      omega
    · exact h.keeps.publish hp.2
    · change (s.written ++ [y]).length < _
      rw [hlen]
      exact hp.1
    · exact h.consumer.of_produce rfl rfl rfl (by rw [hlen]; omega) (Nat.le_refl _)
  | count =>
    rw [hs] at hcount hp
    constructor
    · exact h.capacity
    · exact h.taken
    · exact h.write
    · change s.queue.numElements + 1 + s.taken.length + 0 = s.written.length + s.consumer.uncounted
      simp only [LFQueueProducer.uncounted] at hcount
      omega
    · exact h.keeps
    · exact hp
    · exact h.consumer.of_produce rfl rfl rfl (Nat.le_refl _) (Nat.le_succ _)

/-- The assertion of the reader fails exactly in the window of the writer. -/
theorem Rep.test_iff (h : Rep n s) (hs : s.consumer = .test) :
    s.queue.numElements ≠ 0 ↔
      (s.producer = .count → s.queue.nextReadIndex ≠ s.queue.nextWriteIndex) := by
  have hle := h.taken.length_le
  have hroom := h.room
  have hcount := h.count
  have hc := h.consumer
  simp only [ConsumerOk, hs] at hc
  simp only [hs, LFQueueConsumer.uncounted] at hcount
  have hindices : s.queue.nextReadIndex = s.queue.nextWriteIndex ↔
      s.taken.length = s.written.length := by
    rw [hc, h.write]
    constructor
    · exact fun hslot => slot_injective hslot hle hroom
    · exact fun hlen => by rw [hlen]
  rw [Ne, Ne, hindices]
  cases hp : s.producer with
  | count =>
    simp only [hp, LFQueueProducer.uncounted] at hcount
    simp only [forall_const]
    omega
  | assign =>
    simp only [hp, LFQueueProducer.uncounted] at hcount
    simp only [reduceCtorEq, false_implies, iff_true]
    omega
  | storeIndex y =>
    simp only [hp, LFQueueProducer.uncounted] at hcount
    simp only [reduceCtorEq, false_implies, iff_true]
    omega

theorem ProducerOk.of_consume {t : LFQueueThreads T} (h : ProducerOk n s)
    (hp : t.producer = s.producer) (hw : t.written = s.written)
    (hstore : t.queue.store = s.queue.store) (hle : s.taken.length ≤ t.taken.length) :
    ProducerOk n t := by
  unfold ProducerOk at h ⊢
  rw [hp, hw, hstore]
  split at h
  · omega
  · exact ⟨by omega, h.2⟩
  · omega

theorem Rep.consume (h : Rep n s)
    (htest : s.consumer = .test → s.producer = .count →
      s.queue.nextReadIndex ≠ s.queue.nextWriteIndex) :
    ∃ t, s.consume thread = .ok t ∧ Rep n t := by
  have hle := h.taken.length_le
  have hcount := h.count
  have hc := h.consumer
  unfold ConsumerOk at hc
  unfold LFQueueThreads.consume
  cases hs : s.consumer with
  | poll =>
    simp only [hs, LFQueueConsumer.uncounted] at hcount hc
    by_cases hempty : s.queue.nextReadIndex = s.queue.nextWriteIndex
    · exact ⟨s, if_pos hempty, h⟩
    · refine ⟨_, if_neg hempty, h.capacity, h.taken, h.write, hcount, h.keeps, h.producer, ?_⟩
      refine ⟨hc, hc, ?_⟩
      have hne : s.taken.length ≠ s.written.length := by
        intro hlen
        exact hempty (by rw [hc, h.write, hlen])
      change s.taken.length < s.written.length
      omega
  | use index =>
    simp only [hs, LFQueueConsumer.uncounted] at hcount hc
    obtain ⟨hread, rfl, hlt⟩ := hc
    have hlen : (s.taken ++ [s.queue.store (s.taken.length % n)]).length = s.taken.length + 1 := by
      rw [List.length_append, List.length_singleton]
    refine ⟨_, rfl, h.capacity, h.keeps.take_prefix h.taken hlt, h.write, ?_, ?_, ?_, ?_⟩
    · change s.queue.numElements + (s.taken ++ [s.queue.store (s.taken.length % n)]).length +
        s.producer.uncounted = s.written.length + 1
      rw [hlen]
      omega
    · exact h.keeps.mono (by rw [hlen]; omega)
    · exact h.producer.of_consume rfl rfl rfl (by rw [hlen]; omega)
    · change (s.queue.nextReadIndex + 1) % n = _ % n
      rw [hread, next_slot, hlen]
  | storeIndex =>
    simp only [hs, LFQueueConsumer.uncounted] at hcount hc
    refine ⟨_, rfl, h.capacity, h.taken, h.write, hcount, h.keeps,
      h.producer.of_consume rfl rfl rfl (Nat.le_refl _), ?_⟩
    change (s.queue.nextReadIndex + 1) % s.queue.capacity = _
    rw [h.capacity]
    exact hc
  | test =>
    have hne := (h.test_iff hs).mpr (htest hs)
    simp only [hs, LFQueueConsumer.uncounted] at hcount hc
    refine ⟨{ s with consumer := .decrement }, ?_, h.capacity, h.taken, h.write, hcount, h.keeps,
      h.producer, hc, Nat.pos_of_ne_zero hne⟩
    simp [hne, bind, Except.bind, pure, Except.pure]
  | decrement =>
    simp only [hs, LFQueueConsumer.uncounted] at hcount hc
    refine ⟨_, rfl, h.capacity, h.taken, h.write, ?_, h.keeps, h.producer, hc.1⟩
    change s.queue.numElements - 1 + s.taken.length + s.producer.uncounted = s.written.length + 0
    omega

end Steps

/-- Under every schedule of the two threads the assertion of the reader succeeds, and the
elements are read once each in the order of their writes, exactly when the reader never comes
to its assertion while the writer has stored the index of the only unread element and has not
counted it yet. -/
theorem run_asserts_iff [Inhabited T] (n : ℕ) (hn : 1 ≤ n) (thread : ℕ)
    (schedule : List (LFQueueThread T)) :
    (∀ done, done <+: schedule →
      ∃ s, run (step thread) (init n) done = .ok s ∧ s.taken <+: s.written) ↔
      Meets (step thread) TestsCounted (init n) schedule := by
  apply forall_run_ok_iff_meets (rep_init hn) (fun _ h => h.taken)
  · intro s a h hcounted
    cases a with
    | producer x => exact ⟨s.produce x, rfl, h.produce x⟩
    | consumer => exact h.consume hcounted
  · intro s a t h hok _
    cases a with
    | producer x => trivial
    | consumer =>
      intro hs
      apply (h.test_iff hs).mp
      intro hzero
      simp [step, LFQueueThreads.consume, hs, hzero, bind, Except.bind] at hok

/-- Both threads take their turns one after the other. -/
theorem run_asserts_in_turns : 1 ≤ 2 ∧
    ∀ done, done <+: [.producer 5, .producer 5, .producer 5, .consumer, .consumer, .consumer,
        .consumer, .consumer] →
      ∃ s, run (step 0) (init 2 : LFQueueThreads ℕ) done = .ok s ∧ s.taken <+: s.written := by
  refine ⟨by decide, (run_asserts_iff 2 (by decide) 0 _).mpr ?_⟩
  simp [Meets, TestsCounted, step, LFQueueThreads.produce, LFQueueThreads.consume, init,
    LFQueue.init, LFQueue.writeNext, bind, Except.bind, pure, Except.pure]

/-- The reader is faster than the increment. -/
theorem reader_overtakes_count :
    run (step 0) (init 2 : LFQueueThreads ℕ)
      [.producer 5, .producer 5, .consumer, .consumer, .consumer, .consumer] =
        .error (.assertion (LFQueue.invalidRead 0)) ∧
    ¬∀ done, done <+: [.producer 5, .producer 5, .consumer, .consumer, .consumer, .consumer] →
      ∃ s, run (step 0) (init 2 : LFQueueThreads ℕ) done = .ok s ∧ s.taken <+: s.written := by
  have hfails : run (step 0) (init 2 : LFQueueThreads ℕ)
      [.producer 5, .producer 5, .consumer, .consumer, .consumer, .consumer] =
        .error (.assertion (LFQueue.invalidRead 0)) := rfl
  refine ⟨hfails, fun hall => ?_⟩
  obtain ⟨s, hs, -⟩ := hall _ (List.prefix_refl _)
  rw [hfails] at hs
  cases hs

end LFQueueThreads

end HighPerformance
