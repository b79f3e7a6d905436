import HighPerformance.FallibleRun
import HighPerformance.RingStore
import Mathlib.Data.Nat.Notation

/-!
# The queue with two free-running cursors

`Fifo3` under one thread that calls `push` and one that calls `pop`. An action is
a call, or one access to what the other thread can see: a load or a store of a
cursor, or the access to an element. What a thread decides from its own
variables belongs to the access before. All accesses are sequentially
consistent.
-/

namespace HighPerformance
open FallibleRun RingStore

/-- The ring holds `none` where nothing is constructed. -/
structure Fifo3 (T : Type) where
  capacity : ℕ
  ring : ℕ → Option T := fun _ => none
  pushCursor : ℕ := 0
  popCursor : ℕ := 0

/-- Where `push` is, with its local variables: not called, before the load of
`_pushCursor`, of `_popCursor`, before the construction of the element, and
before the store of `_pushCursor`. -/
inductive FifoProducer (T : Type) where
  | idle
  | called (x : T)
  | loaded (x : T) (pushCursor : ℕ)
  | construct (x : T) (pushCursor : ℕ)
  | store (x : T) (pushCursor : ℕ)

/-- Where `pop` is: not called, before its first load and its second, before the
copy of the element, before its destruction, and before the store of
`_popCursor`. -/
inductive FifoConsumer (T : Type) where
  | idle
  | called
  | loaded (cursor : ℕ)
  | read (popCursor : ℕ)
  | destroy (popCursor : ℕ) (value : Option T)
  | store (popCursor : ℕ) (value : Option T)

/-- What the callers see. `popReturned` is the return of true. -/
inductive FifoEvent (T : Type) where
  | pushCalled (x : T)
  | pushReturned (result : Bool)
  | popCalled
  | popFailed
  | popReturned (value : Option T)

/-- A queue of type `Q` and its two threads; the values in the order of the
stores of `_pushCursor`, and what was read in the order of the stores of
`_popCursor`. -/
structure FifoThreads (Q T : Type) where
  queue : Q
  producer : FifoProducer T := .idle
  consumer : FifoConsumer T := .idle
  pushed : List T := []
  popped : List (Option T) := []
  history : List (FifoEvent T) := []

/-- The thread that acts; `x` is the value that the producer has next. -/
inductive FifoThread (T : Type) where
  | producer (x : T)
  | consumer

namespace Fifo3
variable {T : Type}

/-- `pushCursor - popCursor` in `size_t`. -/
def difference (pushCursor popCursor : ℕ) : ℕ := (2 ^ 64 + pushCursor - popCursor) % 2 ^ 64

def full (q : Fifo3 T) (pushCursor popCursor : ℕ) : Bool :=
  difference pushCursor popCursor == q.capacity

def empty (pushCursor popCursor : ℕ) : Bool := pushCursor == popCursor

def element (q : Fifo3 T) (cursor : ℕ) : ℕ := cursor % q.capacity

def size (q : Fifo3 T) : ℕ := difference q.pushCursor q.popCursor

def construct (q : Fifo3 T) (cursor : ℕ) (x : T) : Fifo3 T :=
  { q with ring := Function.update q.ring (q.element cursor) (some x) }

def destroy (q : Fifo3 T) (cursor : ℕ) : Fifo3 T :=
  { q with ring := Function.update q.ring (q.element cursor) none }

def storePushCursor (q : Fifo3 T) (cursor : ℕ) : Fifo3 T :=
  { q with pushCursor := cursor % 2 ^ 64 }

def storePopCursor (q : Fifo3 T) (cursor : ℕ) : Fifo3 T :=
  { q with popCursor := cursor % 2 ^ 64 }

end Fifo3

namespace FifoProducer
variable {T : Type}

/-- The element that is constructed and not published yet. -/
def constructed : FifoProducer T → List T
  | .store x _ => [x]
  | _ => []

end FifoProducer

namespace FifoConsumer
variable {T : Type}

/-- The elements destroyed whose slot is not given back yet. -/
def destroyed : FifoConsumer T → ℕ
  | .store _ _ => 1
  | _ => 0

end FifoConsumer

namespace FifoThreads
variable {Q T : Type}

def callPush (s : FifoThreads Q T) (x : T) : FifoThreads Q T :=
  { s with producer := .called x, history := s.history ++ [.pushCalled x] }

def pushFails (s : FifoThreads Q T) : FifoThreads Q T :=
  { s with producer := .idle, history := s.history ++ [.pushReturned false] }

def pushReturns (s : FifoThreads Q T) (queue : Q) (x : T) : FifoThreads Q T :=
  { s with
    queue := queue
    producer := .idle
    pushed := s.pushed ++ [x]
    history := s.history ++ [.pushReturned true] }

def callPop (s : FifoThreads Q T) : FifoThreads Q T :=
  { s with consumer := .called, history := s.history ++ [.popCalled] }

def popFails (s : FifoThreads Q T) : FifoThreads Q T :=
  { s with consumer := .idle, history := s.history ++ [.popFailed] }

def popReturns (s : FifoThreads Q T) (queue : Q) (value : Option T) : FifoThreads Q T :=
  { s with
    queue := queue
    consumer := .idle
    popped := s.popped ++ [value]
    history := s.history ++ [.popReturned value] }

/-- What the two threads may rely on; `queue` is the part of the queue that both
of them use. -/
structure Safe (s : FifoThreads Q T) (queue : Fifo3 T) : Prop where
  inOrder : s.popped <+: s.pushed.map some
  bounded : s.pushed.length ≤ s.popped.length + queue.capacity
  size : queue.size = s.pushed.length - s.popped.length
  construct : ∀ x c, s.producer = .construct x c → queue.ring (queue.element c) = none
  read : ∀ c, s.consumer = .read c → ∃ v, queue.ring (queue.element c) = some v

end FifoThreads

namespace Fifo3
variable {T : Type}

def init (T : Type) (capacity : ℕ) : FifoThreads (Fifo3 T) T := { queue := { capacity := capacity } }

def push (s : FifoThreads (Fifo3 T) T) (x : T) : FifoThreads (Fifo3 T) T :=
  match s.producer with
  | .idle => s.callPush x
  | .called x => { s with producer := .loaded x s.queue.pushCursor }
  | .loaded x pushCursor =>
      if s.queue.full pushCursor s.queue.popCursor then s.pushFails
      else { s with producer := .construct x pushCursor }
  | .construct x pushCursor =>
      { s with queue := s.queue.construct pushCursor x, producer := .store x pushCursor }
  | .store x pushCursor => s.pushReturns (s.queue.storePushCursor (pushCursor + 1)) x

def pop (s : FifoThreads (Fifo3 T) T) : FifoThreads (Fifo3 T) T :=
  match s.consumer with
  | .idle => s.callPop
  | .called => { s with consumer := .loaded s.queue.pushCursor }
  | .loaded pushCursor =>
      if empty pushCursor s.queue.popCursor then s.popFails
      else { s with consumer := .read s.queue.popCursor }
  | .read popCursor =>
      { s with consumer := .destroy popCursor (s.queue.ring (s.queue.element popCursor)) }
  | .destroy popCursor value =>
      { s with queue := s.queue.destroy popCursor, consumer := .store popCursor value }
  | .store popCursor value => s.popReturns (s.queue.storePopCursor (popCursor + 1)) value

def step (s : FifoThreads (Fifo3 T) T) : FifoThread T → FifoThreads (Fifo3 T) T
  | .producer x => push s x
  | .consumer => pop s

/-- What `push` knows of the cursors and of the slot that it has to itself. -/
def ProducerOk (n : ℕ) (s : FifoThreads (Fifo3 T) T) : Prop :=
  match s.producer with
  | .idle | .called _ => True
  | .loaded _ c => c = s.pushed.length
  | .construct _ c | .store _ c => c = s.pushed.length ∧ s.pushed.length < s.popped.length + n

/-- What `pop` knows of the cursors and of the value that it has copied. -/
def ConsumerOk (s : FifoThreads (Fifo3 T) T) : Prop :=
  match s.consumer with
  | .idle | .called => True
  | .loaded c => s.popped.length ≤ c ∧ c ≤ s.pushed.length
  | .read c => c = s.popped.length ∧ c < s.pushed.length
  | .destroy c v | .store c v => c = s.popped.length ∧ (s.pushed.map some)[c]? = some v

structure Rep (n : ℕ) (s : FifoThreads (Fifo3 T) T) : Prop where
  capacity : s.queue.capacity = n
  fewer : s.pushed.length < 2 ^ 64
  pushCursor : s.queue.pushCursor = s.pushed.length
  popCursor : s.queue.popCursor = s.popped.length
  inOrder : s.popped <+: s.pushed.map some
  room : s.pushed.length ≤ s.popped.length + n
  keeps : Keeps n s.queue.ring ((s.pushed ++ s.producer.constructed).map some)
    (s.popped.length + s.consumer.destroyed)
  vacant : Vacant n s.queue.ring (s.popped.length + s.consumer.destroyed)
    (s.pushed.length + s.producer.constructed.length)
  producer : ProducerOk n s
  consumer : ConsumerOk s

section Steps
variable {n : ℕ} {s : FifoThreads (Fifo3 T) T}

theorem rep_init (n : ℕ) : Rep n (init T n) := by
  constructor
  · rfl
  · exact Nat.two_pow_pos 64
  · rfl
  · rfl
  · exact List.nil_prefix
  · exact Nat.zero_le _
  · exact keeps_nil n _
  · intro i _ _
    rfl
  · trivial
  · trivial

theorem difference_eq {pushed popped : ℕ} (hle : popped ≤ pushed) (hlt : pushed < 2 ^ 64) :
    difference pushed popped = pushed - popped := by
  unfold difference
  omega

theorem full_iff {q : Fifo3 T} {pushed popped : ℕ} (hle : popped ≤ pushed)
    (hlt : pushed < 2 ^ 64) : q.full pushed popped = true ↔ pushed = popped + q.capacity := by
  rw [full, difference_eq hle hlt, beq_iff_eq]
  omega

theorem Rep.le (h : Rep n s) : s.popped.length ≤ s.pushed.length := by
  have hle := h.inOrder.length_le
  rwa [List.length_map] at hle

theorem ConsumerOk.of_push {t : FifoThreads (Fifo3 T) T} (h : ConsumerOk s)
    (hc : t.consumer = s.consumer) (hpop : t.popped = s.popped) (hpush : s.pushed <+: t.pushed) :
    ConsumerOk t := by
  have hle := hpush.length_le
  have hget : ∀ (c : ℕ) (v : Option T), (s.pushed.map some)[c]? = some v →
      (t.pushed.map some)[c]? = some v := by
    intro c v hv
    obtain ⟨rest, hrest⟩ := hpush.map some
    rw [← hrest, List.getElem?_append_left (List.getElem?_eq_some_iff.mp hv).1]
    exact hv
  unfold ConsumerOk at h ⊢
  rw [hc, hpop]
  split at h
  · trivial
  · trivial
  · exact ⟨h.1, Nat.le_trans h.2 hle⟩
  · exact ⟨h.1, Nat.lt_of_lt_of_le h.2 hle⟩
  · exact ⟨h.1, hget _ _ h.2⟩
  · exact ⟨h.1, hget _ _ h.2⟩

/-- The consumer has no more than one element that it still counts as unread. -/
theorem ConsumerOk.le (h : ConsumerOk s) (hle : s.popped.length ≤ s.pushed.length) :
    s.popped.length + s.consumer.destroyed ≤ s.pushed.length := by
  unfold ConsumerOk at h
  unfold FifoConsumer.destroyed
  split
  · next c v hs =>
    simp only [hs] at h
    have hlt := (List.getElem?_eq_some_iff.mp h.2).1
    rw [List.length_map] at hlt
    omega
  · exact hle

/-- The producer moves on without a write that the consumer can see. -/
theorem Rep.withProducer (h : Rep n s) {producer : FifoProducer T}
    {history : List (FifoEvent T)} (hc : s.producer.constructed = [])
    (hc' : producer.constructed = [])
    (hok : ProducerOk n { s with producer := producer, history := history }) :
    Rep n { s with producer := producer, history := history } := by
  have hkeeps := h.keeps
  have hvacant := h.vacant
  rw [hc] at hkeeps hvacant
  constructor
  · exact h.capacity
  · exact h.fewer
  · exact h.pushCursor
  · exact h.popCursor
  · exact h.inOrder
  · exact h.room
  · simpa only [hc'] using hkeeps
  · simpa only [hc'] using hvacant
  · exact hok
  · exact h.consumer

theorem Rep.push (h : Rep n s) (x : T) (hfewer : (push s x).pushed.length < 2 ^ 64) :
    Rep n (push s x) := by
  have hle := h.le
  have hp := h.producer
  have hkeeps := h.keeps
  have hvacant := h.vacant
  unfold ProducerOk at hp
  unfold Fifo3.push at hfewer ⊢
  cases hs : s.producer with
  | idle => exact h.withProducer (by rw [hs]; rfl) rfl trivial
  | called y => exact h.withProducer (by rw [hs]; rfl) rfl h.pushCursor
  | loaded y c =>
    simp only [hs] at hp ⊢
    by_cases hfull : s.queue.full c s.queue.popCursor = true
    · rw [if_pos hfull]
      exact h.withProducer (by rw [hs]; rfl) rfl trivial
    · rw [if_neg hfull]
      rw [hp, h.popCursor, full_iff hle h.fewer, h.capacity] at hfull
      exact h.withProducer (by rw [hs]; rfl) rfl ⟨hp, Nat.lt_of_le_of_ne h.room hfull⟩
  | construct y c =>
    simp only [hs, FifoProducer.constructed, List.append_nil, List.length_nil, Nat.add_zero]
      at hp hkeeps hvacant ⊢
    obtain ⟨rfl, hlt⟩ := hp
    have helement : s.queue.element s.pushed.length = (s.pushed.map some).length % n := by
      rw [element, h.capacity, List.length_map]
    constructor
    · exact h.capacity
    · exact h.fewer
    · exact h.pushCursor
    · exact h.popCursor
    · exact h.inOrder
    · exact h.room
    · change Keeps n (Function.update s.queue.ring (s.queue.element _) _) _ _
      rw [helement]
      simp only [FifoProducer.constructed, List.map_append, List.map_cons, List.map_nil]
      apply hkeeps.write
      rw [List.length_map]
      omega
    · change Vacant n (Function.update s.queue.ring (s.queue.element _) _) _ _
      rw [helement, List.length_map]
      exact hvacant.fill (h.consumer.le hle) _
    · exact ⟨rfl, hlt⟩
    · exact h.consumer
  | store y c =>
    simp only [hs, FifoProducer.constructed, List.length_singleton] at hp hkeeps hvacant hfewer ⊢
    obtain ⟨rfl, hlt⟩ := hp
    have hlen : (s.pushed ++ [y]).length = s.pushed.length + 1 := by
      rw [List.length_append, List.length_singleton]
    constructor
    · exact h.capacity
    · exact hfewer
    · change (s.pushed.length + 1) % 2 ^ 64 = (s.pushed ++ [y]).length
      rw [hlen]
      apply Nat.mod_eq_of_lt
      rw [← hlen]
      exact hfewer
    · exact h.popCursor
    · exact h.inOrder.trans ((List.prefix_append _ _).map some)
    · change (s.pushed ++ [y]).length ≤ _
      rw [hlen]
      exact hlt
    · change Keeps n s.queue.ring (((s.pushed ++ [y]) ++ []).map some) _
      rw [List.append_nil]
      exact hkeeps
    · change Vacant n s.queue.ring _ ((s.pushed ++ [y]).length + 0)
      rw [hlen]
      exact hvacant
    · trivial
    · exact h.consumer.of_push rfl rfl (List.prefix_append _ _)

theorem ProducerOk.of_pop {t : FifoThreads (Fifo3 T) T} (h : ProducerOk n s)
    (hp : t.producer = s.producer) (hpush : t.pushed = s.pushed)
    (hle : s.popped.length ≤ t.popped.length) : ProducerOk n t := by
  unfold ProducerOk at h ⊢
  rw [hp, hpush]
  split at h
  · trivial
  · trivial
  · exact h
  · exact ⟨h.1, by omega⟩
  · exact ⟨h.1, by omega⟩

theorem ProducerOk.le (h : ProducerOk n s) (hroom : s.pushed.length ≤ s.popped.length + n) :
    s.pushed.length + s.producer.constructed.length ≤ s.popped.length + n := by
  unfold ProducerOk at h
  unfold FifoProducer.constructed
  split
  · next x c hs =>
    simp only [hs] at h
    exact h.2
  · exact hroom

/-- The consumer moves on without a write that the producer can see. -/
theorem Rep.withConsumer (h : Rep n s) {consumer : FifoConsumer T} {history : List (FifoEvent T)}
    (hd : s.consumer.destroyed = 0) (hd' : consumer.destroyed = 0)
    (hok : ConsumerOk { s with consumer := consumer, history := history }) :
    Rep n { s with consumer := consumer, history := history } := by
  have hkeeps := h.keeps
  have hvacant := h.vacant
  rw [hd] at hkeeps hvacant
  constructor
  · exact h.capacity
  · exact h.fewer
  · exact h.pushCursor
  · exact h.popCursor
  · exact h.inOrder
  · exact h.room
  · simpa only [hd'] using hkeeps
  · simpa only [hd'] using hvacant
  · exact h.producer
  · exact hok

theorem Rep.read (h : Rep n s) (hd : s.consumer.destroyed = 0)
    (hlt : s.popped.length < s.pushed.length) :
    (s.pushed.map some)[s.popped.length]? =
      some (s.queue.ring (s.queue.element s.popped.length)) := by
  have hkeeps := h.keeps
  rw [hd] at hkeeps
  have hget := hkeeps.get (by simp only [List.length_map, List.length_append]; omega)
  rw [List.map_append, List.getElem?_append_left (by rw [List.length_map]; exact hlt)] at hget
  rw [element, h.capacity]
  exact hget

theorem Rep.pop (h : Rep n s) : Rep n (pop s) := by
  have hle := h.le
  have hc := h.consumer
  have hkeeps := h.keeps
  have hvacant := h.vacant
  unfold ConsumerOk at hc
  unfold Fifo3.pop
  cases hs : s.consumer with
  | idle => exact h.withConsumer (by rw [hs]; rfl) rfl trivial
  | called =>
    refine h.withConsumer (by rw [hs]; rfl) rfl ?_
    rw [h.pushCursor]
    exact ⟨hle, Nat.le_refl _⟩
  | loaded c =>
    simp only [hs] at hc ⊢
    by_cases hempty : empty c s.queue.popCursor = true
    · rw [if_pos hempty]
      exact h.withConsumer (by rw [hs]; rfl) rfl trivial
    · rw [if_neg hempty]
      rw [empty, h.popCursor, beq_iff_eq] at hempty
      refine h.withConsumer (by rw [hs]; rfl) rfl ⟨h.popCursor, ?_⟩
      rw [h.popCursor]
      change s.popped.length < s.pushed.length
      omega
  | read c =>
    simp only [hs] at hc ⊢
    obtain ⟨rfl, hlt⟩ := hc
    exact h.withConsumer (by rw [hs]; rfl) rfl ⟨rfl, h.read (by rw [hs]; rfl) hlt⟩
  | destroy c v =>
    simp only [hs, FifoConsumer.destroyed, Nat.add_zero] at hc hkeeps hvacant ⊢
    obtain ⟨rfl, hget⟩ := hc
    constructor
    · exact h.capacity
    · exact h.fewer
    · exact h.pushCursor
    · exact h.popCursor
    · exact h.inOrder
    · exact h.room
    · change Keeps n (Function.update s.queue.ring (s.queue.element _) _) _ _
      rw [element, h.capacity]
      apply hkeeps.clear
      rw [List.length_map, List.length_append]
      exact h.producer.le h.room
    · change Vacant n (Function.update s.queue.ring (s.queue.element _) _) _ _
      rw [element, h.capacity]
      exact hvacant.clear
    · exact h.producer
    · exact ⟨rfl, hget⟩
  | store c v =>
    have hroom := h.room
    simp only [hs, FifoConsumer.destroyed] at hc hkeeps hvacant ⊢
    obtain ⟨rfl, hget⟩ := hc
    have hlen : (s.popped ++ [v]).length = s.popped.length + 1 := by
      rw [List.length_append, List.length_singleton]
    have hlt := (List.getElem?_eq_some_iff.mp hget).1
    rw [List.length_map] at hlt
    constructor
    · exact h.capacity
    · exact h.fewer
    · exact h.pushCursor
    · change (s.popped.length + 1) % 2 ^ 64 = (s.popped ++ [v]).length
      rw [hlen]
      exact Nat.mod_eq_of_lt (Nat.lt_of_le_of_lt hlt h.fewer)
    · exact concat_prefix h.inOrder hget
    · change s.pushed.length ≤ (s.popped ++ [v]).length + n
      omega
    · change Keeps n s.queue.ring _ ((s.popped ++ [v]).length + 0)
      rw [hlen]
      exact hkeeps
    · change Vacant n s.queue.ring ((s.popped ++ [v]).length + 0) _
      rw [hlen]
      exact hvacant
    · exact h.producer.of_pop rfl rfl (by change _ ≤ (s.popped ++ [v]).length; omega)
    · trivial

theorem Rep.step (h : Rep n s) (a : FifoThread T) (hfewer : (step s a).pushed.length < 2 ^ 64) :
    Rep n (step s a) := by
  cases a with
  | producer x => exact h.push x hfewer
  | consumer => exact h.pop

theorem length_pushed_le (s : FifoThreads (Fifo3 T) T) (a : FifoThread T) :
    s.pushed.length ≤ (step s a).pushed.length := by
  cases a with
  | producer x =>
    unfold step push
    cases hs : s.producer with
    | loaded y c =>
      simp only
      split
      · exact Nat.le_refl _
      · exact Nat.le_refl _
    | store y c => exact (List.prefix_append _ _).length_le
    | _ => exact Nat.le_refl _
  | consumer =>
    unfold step pop
    cases hs : s.consumer with
    | loaded c =>
      simp only
      split
      · exact Nat.le_refl _
      · exact Nat.le_refl _
    | _ => exact Nat.le_refl _

theorem Rep.size (h : Rep n s) : s.queue.size = s.pushed.length - s.popped.length := by
  rw [Fifo3.size, h.pushCursor, h.popCursor, difference_eq h.le h.fewer]

theorem Rep.construct (h : Rep n s) {x : T} {c : ℕ} (hs : s.producer = .construct x c) :
    s.queue.ring (s.queue.element c) = none := by
  have hp := h.producer
  have hvacant := h.vacant
  simp only [ProducerOk, hs] at hp
  simp only [hs, FifoProducer.constructed, List.length_nil, Nat.add_zero] at hvacant
  rw [element, h.capacity, hp.1]
  exact hvacant.empty (Nat.lt_of_lt_of_le hp.2 (by omega))

theorem Rep.safe (h : Rep n s) : s.Safe s.queue := by
  have hc := h.consumer
  constructor
  · exact h.inOrder
  · rw [h.capacity]
    exact h.room
  · exact h.size
  · exact fun _ _ hs => h.construct hs
  · intro c hs
    simp only [ConsumerOk, hs] at hc
    obtain ⟨rfl, hlt⟩ := hc
    have hget := h.read (by rw [hs]; rfl) hlt
    rw [List.getElem?_map, List.getElem?_eq_getElem hlt] at hget
    exact ⟨_, (Option.some.inj hget).symm⟩

end Steps

end Fifo3

end HighPerformance
