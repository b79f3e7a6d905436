import HighPerformance.FallibleRun
import HighPerformance.RingStore
import Mathlib.Data.List.Pairwise
import Mathlib.Data.Nat.Notation
import Mathlib.Tactic.IntervalCases

/-!
# The ring buffer that drops its oldest frame

`FreshnessRingBuffer` under one thread that calls `push_latest` and one that calls
`try_pop`. An action is one load or store of an index or one access to a slot;
what a thread decides from its own variables belongs to the access before. All
accesses are sequentially consistent.

Both threads store `head_`. Each computes the new value from its own load, and
whichever stores last decides. The positions of frames count all pushes, so that
the frame at position `i` belongs into slot `i % capacity`.
-/

namespace HighPerformance
open FallibleRun RingStore

structure FreshnessRingBuffer (T : Type) where
  mask : ℕ
  buffer : ℕ → T
  head : ℕ := 0
  tail : ℕ := 0

/-- Where `push_latest` is: not called, before the load of `head_`, before the
store of `head_`, before the write of the slot, before the store of `tail_`. -/
inductive FreshnessProducer (T : Type) where
  | idle
  | loadHead (item : T) (t : ℕ)
  | dropOldest (item : T) (t h : ℕ)
  | write (item : T) (t : ℕ)
  | storeTail (item : T) (t : ℕ)

/-- Where `try_pop` is: not called, before the load of `tail_`, before the copy of
the slot, before the store of `head_`. -/
inductive FreshnessConsumer (T : Type) where
  | idle
  | loadTail (h : ℕ)
  | read (h : ℕ)
  | storeHead (h : ℕ) (item : T)

/-- The buffer with its two threads. `headPosition` is the position that the last
store has given to `head_`, `pushSeen` and `popSeen` are the positions at which the
calls have loaded it. `dropped` has the position of each frame dropped, and the
position of the tail when it was. -/
structure FreshnessThreads (T : Type) where
  ring : FreshnessRingBuffer T
  producer : FreshnessProducer T := .idle
  consumer : FreshnessConsumer T := .idle
  pushed : List T := []
  returned : List T := []
  dropped : List (ℕ × ℕ) := []
  headPosition : ℕ := 0
  pushSeen : ℕ := 0
  popSeen : ℕ := 0
  positions : List ℕ := []

/-- The thread that acts; `item` is the frame that the producer has next. -/
inductive FreshnessThread (T : Type) where
  | producer (item : T)
  | consumer

namespace FreshnessProducer
variable {T : Type}

/-- A frame for which there is room and which is not counted yet. -/
def pending : FreshnessProducer T → ℕ
  | .write _ _ | .storeTail _ _ => 1
  | _ => 0

def written : FreshnessProducer T → List T
  | .storeTail item _ => [item]
  | _ => []

theorem length_written_le (p : FreshnessProducer T) : p.written.length ≤ p.pending := by
  cases p with
  | storeTail item t => exact Nat.le_refl _
  | _ => exact Nat.zero_le _

end FreshnessProducer

namespace FreshnessThreads
variable {T : Type}

def init [Inhabited T] (k : ℕ) : FreshnessThreads T :=
  { ring := { mask := 2 ^ k - 1, buffer := fun _ => default } }

def pushLatest (s : FreshnessThreads T) (item : T) : FreshnessThreads T :=
  match s.producer with
  | .idle => { s with producer := .loadHead item s.ring.tail }
  | .loadHead item t =>
      { s with
        pushSeen := s.headPosition
        producer :=
          if (t + 1) &&& s.ring.mask = s.ring.head then .dropOldest item t s.ring.head
          else .write item t }
  | .dropOldest item t h =>
      { s with
        ring := { s.ring with head := (h + 1) &&& s.ring.mask }
        headPosition := s.pushSeen + 1
        dropped := s.dropped ++ [(s.pushSeen, s.pushed.length)]
        producer := .write item t }
  | .write item t =>
      { s with
        ring := { s.ring with buffer := Function.update s.ring.buffer t item }
        producer := .storeTail item t }
  | .storeTail item t =>
      { s with
        ring := { s.ring with tail := (t + 1) &&& s.ring.mask }
        pushed := s.pushed ++ [item]
        producer := .idle }

def tryPop (s : FreshnessThreads T) : FreshnessThreads T :=
  match s.consumer with
  | .idle => { s with popSeen := s.headPosition, consumer := .loadTail s.ring.head }
  | .loadTail h => { s with consumer := if h = s.ring.tail then .idle else .read h }
  | .read h => { s with consumer := .storeHead h (s.ring.buffer h) }
  | .storeHead h item =>
      { s with
        ring := { s.ring with head := (h + 1) &&& s.ring.mask }
        headPosition := s.popSeen + 1
        returned := s.returned ++ [item]
        positions := s.positions ++ [s.popSeen]
        consumer := .idle }

def step (s : FreshnessThreads T) : FreshnessThread T → FreshnessThreads T
  | .producer item => s.pushLatest item
  | .consumer => s.tryPop

/-- A call stores `head_` only while `head_` is at most one position past the one
that the call has loaded. -/
def AtMostOneAhead (s : FreshnessThreads T) : FreshnessThread T → Prop
  | .producer _ => ∀ item t h, s.producer = .dropOldest item t h → s.headPosition ≤ s.pushSeen + 1
  | .consumer => ∀ h item, s.consumer = .storeHead h item → s.headPosition ≤ s.popSeen + 1

/-- The frames returned are those pushed at `positions`. Before a frame that is
returned only frames are missing that were the oldest of a full buffer. The newest
frame can be had by calls of `try_pop` alone. -/
structure Delivers (capacity : ℕ) (s : FreshnessThreads T) (positions : List ℕ) : Prop where
  ascending : positions.Pairwise (· < ·)
  frames : positions.map (s.pushed[·]?) = s.returned.map some
  skipped : ∀ p ∈ positions, ∀ i < p, i ∈ positions ∨ (i, i + (capacity - 1)) ∈ s.dropped
  available : s.producer = .idle → s.consumer = .idle → ∀ i, i + 1 = s.pushed.length →
    i ∉ positions → ∃ actions,
      ((List.replicate actions .consumer).foldl step s).returned.getLast? = s.pushed[i]?

def HeadLoaded (n : ℕ) (s : FreshnessThreads T) (h : ℕ) : Prop :=
  h = s.popSeen % n ∧ s.popSeen ≤ s.headPosition ∧ ∀ p ∈ s.positions, p < s.popSeen

def ProducerOk (n : ℕ) (s : FreshnessThreads T) : Prop :=
  match s.producer with
  | .idle => True
  | .loadHead _ t | .write _ t => t = s.pushed.length % n
  | .dropOldest _ t h => t = s.pushed.length % n ∧ h = s.pushSeen % n ∧
      s.pushSeen ≤ s.headPosition ∧ s.pushed.length + 1 = s.pushSeen + n
  | .storeTail item t => t = s.pushed.length % n ∧ s.ring.buffer t = item

/-- The frame copied is the one at the position loaded, unless it was overwritten
before; `head_` has then moved on by two positions at least. -/
def ConsumerOk (n : ℕ) (s : FreshnessThreads T) : Prop :=
  match s.consumer with
  | .idle => True
  | .loadTail h => HeadLoaded n s h
  | .read h => HeadLoaded n s h ∧ s.popSeen < s.pushed.length
  | .storeHead h item => HeadLoaded n s h ∧ s.popSeen < s.pushed.length ∧
      (s.headPosition ≤ s.popSeen + 1 → s.pushed[s.popSeen]? = some item)

structure Rep (k : ℕ) (s : FreshnessThreads T) : Prop where
  mask : s.ring.mask = 2 ^ k - 1
  head : s.ring.head = s.headPosition % 2 ^ k
  tail : s.ring.tail = s.pushed.length % 2 ^ k
  le : s.headPosition ≤ s.pushed.length
  room : s.pushed.length + 1 + s.producer.pending ≤ s.headPosition + 2 ^ k
  keeps : Keeps (2 ^ k) s.ring.buffer (s.pushed ++ s.producer.written)
    (s.pushed.length + s.producer.written.length - 2 ^ k)
  ascending : s.positions.Pairwise (· < ·)
  frames : s.positions.map (s.pushed[·]?) = s.returned.map some
  below : ∀ p ∈ s.positions, p < s.headPosition
  skipped : ∀ i < s.headPosition, i ∈ s.positions ∨ (i, i + (2 ^ k - 1)) ∈ s.dropped
  replaced : ∀ d ∈ s.dropped, d.2 < s.pushed.length + s.producer.pending
  producer : ProducerOk (2 ^ k) s
  consumer : ConsumerOk (2 ^ k) s

section Steps
variable {k : ℕ} {s : FreshnessThreads T}

theorem rep_init [Inhabited T] (hk : 1 ≤ k) : Rep k (init k : FreshnessThreads T) := by
  have hcapacity : 2 ^ 1 ≤ 2 ^ k := Nat.pow_le_pow_right (by decide) hk
  constructor
  · rfl
  · exact (Nat.zero_mod _).symm
  · exact (Nat.zero_mod _).symm
  · exact Nat.le_refl _
  · change 0 + 1 + 0 ≤ 0 + 2 ^ k
    omega
  · exact keeps_nil _ _
  · exact List.Pairwise.nil
  · rfl
  · simp [init]
  · intro i hi
    exact (Nat.not_lt_zero i hi).elim
  · simp [init]
  · trivial
  · trivial

theorem Rep.and_mask (h : Rep k s) (i : ℕ) : i &&& s.ring.mask = i % 2 ^ k := by
  rw [h.mask, Nat.and_two_pow_sub_one_eq_mod]

theorem Rep.next_slot (h : Rep k s) (i : ℕ) :
    (i % 2 ^ k + 1) &&& s.ring.mask = (i + 1) % 2 ^ k := by
  rw [h.and_mask, RingStore.next_slot]

theorem Rep.full_iff (h : Rep k s) :
    (s.pushed.length + 1) % 2 ^ k = s.headPosition % 2 ^ k ↔
      s.pushed.length + 1 = s.headPosition + 2 ^ k := by
  have hle := h.le
  have hroom := h.room
  constructor
  · intro hslot
    rw [← Nat.add_mod_right s.headPosition (2 ^ k)] at hslot
    exact slot_injective hslot (by omega) (by omega)
  · intro hfull
    rw [hfull, Nat.add_mod_right]

theorem ConsumerOk.of_push {n : ℕ} {t : FreshnessThreads T} (h : ConsumerOk n s)
    (hc : t.consumer = s.consumer) (hseen : t.popSeen = s.popSeen)
    (hpositions : t.positions = s.positions) (hhead : s.headPosition ≤ t.headPosition)
    (hpushed : s.pushed <+: t.pushed) : ConsumerOk n t := by
  have hle := hpushed.length_le
  have hloaded : ∀ i, HeadLoaded n s i → HeadLoaded n t i := by
    intro i hi
    unfold HeadLoaded
    rw [hseen, hpositions]
    exact ⟨hi.1, Nat.le_trans hi.2.1 hhead, hi.2.2⟩
  unfold ConsumerOk at h ⊢
  rw [hc, hseen]
  split at h
  · trivial
  · exact hloaded _ h
  · exact ⟨hloaded _ h.1, Nat.lt_of_lt_of_le h.2 hle⟩
  · refine ⟨hloaded _ h.1, Nat.lt_of_lt_of_le h.2.1 hle, fun hahead => ?_⟩
    obtain ⟨rest, hrest⟩ := hpushed
    rw [← hrest, List.getElem?_append_left h.2.1]
    exact h.2.2 (Nat.le_trans hhead hahead)

/-- The producer only moves on. -/
theorem Rep.withProducer (h : Rep k s) {producer : FreshnessProducer T} {seen : ℕ}
    (hw : s.producer.written = []) (hw' : producer.written = [])
    (hpending : s.producer.pending ≤ producer.pending)
    (hroom : s.pushed.length + 1 + producer.pending ≤ s.headPosition + 2 ^ k)
    (hok : ProducerOk (2 ^ k) { s with pushSeen := seen, producer := producer }) :
    Rep k { s with pushSeen := seen, producer := producer } := by
  have hkeeps := h.keeps
  rw [hw] at hkeeps
  constructor
  · exact h.mask
  · exact h.head
  · exact h.tail
  · exact h.le
  · exact hroom
  · simpa only [hw'] using hkeeps
  · exact h.ascending
  · exact h.frames
  · exact h.below
  · exact h.skipped
  · intro d hd
    exact Nat.lt_of_lt_of_le (h.replaced d hd) (Nat.add_le_add_left hpending _)
  · exact hok
  · exact h.consumer

theorem Rep.dropOldest (h : Rep k s) (hk : 1 ≤ k) {item next : T} {t i : ℕ}
    (hs : s.producer = .dropOldest item t i) (hahead : s.headPosition ≤ s.pushSeen + 1) :
    Rep k (s.pushLatest next) := by
  have hcapacity : 2 ^ 1 ≤ 2 ^ k := Nat.pow_le_pow_right (by decide) hk
  have hp := h.producer
  have hkeeps := h.keeps
  have hreplaced := h.replaced
  simp only [ProducerOk, hs] at hp
  simp only [hs, FreshnessProducer.written, FreshnessProducer.pending] at hkeeps hreplaced
  obtain ⟨ht, rfl, hseen, hfull⟩ := hp
  unfold pushLatest
  simp only [hs]
  constructor
  · exact h.mask
  · exact h.next_slot _
  · exact h.tail
  · change s.pushSeen + 1 ≤ s.pushed.length
    omega
  · change s.pushed.length + 1 + 1 ≤ s.pushSeen + 1 + 2 ^ k
    omega
  · exact hkeeps
  · exact h.ascending
  · exact h.frames
  · intro p hpos
    change p < s.pushSeen + 1
    exact Nat.lt_of_lt_of_le (h.below p hpos) hahead
  · intro j hj
    change j < s.pushSeen + 1 at hj
    change j ∈ s.positions ∨ _ ∈ s.dropped ++ [(s.pushSeen, s.pushed.length)]
    by_cases hold : j < s.headPosition
    · rcases h.skipped j hold with hmem | hmem
      · exact .inl hmem
      · exact .inr (List.mem_append_left _ hmem)
    · have hj' : j = s.pushSeen := by omega
      have htail : s.pushSeen + (2 ^ k - 1) = s.pushed.length := by omega
      rw [hj', htail]
      exact .inr List.mem_concat_self
  · intro d hd
    change d ∈ s.dropped ++ [(s.pushSeen, s.pushed.length)] at hd
    rcases List.mem_append.mp hd with hold | hnew
    · exact Nat.lt_succ_of_lt (hreplaced d hold)
    · rw [List.mem_singleton.mp hnew]
      exact Nat.lt_succ_self _
  · exact ht
  · exact h.consumer.of_push rfl rfl rfl (by change _ ≤ s.pushSeen + 1; omega)
      (List.prefix_refl _)

theorem Rep.write (h : Rep k s) {item next : T} {t : ℕ} (hs : s.producer = .write item t) :
    Rep k (s.pushLatest next) := by
  have hp := h.producer
  have hkeeps := h.keeps
  have hroom := h.room
  have hreplaced := h.replaced
  simp only [ProducerOk, hs] at hp
  simp only [hs, FreshnessProducer.written, FreshnessProducer.pending, List.append_nil,
    List.length_nil, Nat.add_zero] at hkeeps hroom hreplaced
  subst hp
  have hpos := Nat.two_pow_pos k
  unfold pushLatest
  simp only [hs]
  constructor
  · exact h.mask
  · exact h.head
  · exact h.tail
  · exact h.le
  · exact hroom
  · change Keeps _ (Function.update _ _ _) (s.pushed ++ [item]) (s.pushed.length + 1 - 2 ^ k)
    exact (hkeeps.mono (by omega)).write (by omega)
  · exact h.ascending
  · exact h.frames
  · exact h.below
  · exact h.skipped
  · exact hreplaced
  · exact ⟨rfl, Function.update_self _ _ _⟩
  · exact h.consumer.of_push rfl rfl rfl (Nat.le_refl _) (List.prefix_refl _)

theorem Rep.storeTail (h : Rep k s) {item next : T} {t : ℕ}
    (hs : s.producer = .storeTail item t) : Rep k (s.pushLatest next) := by
  have hp := h.producer
  have hkeeps := h.keeps
  have hroom := h.room
  have hreplaced := h.replaced
  have hle := h.le
  simp only [ProducerOk, hs] at hp
  simp only [hs, FreshnessProducer.written, FreshnessProducer.pending, List.length_singleton]
    at hkeeps hroom hreplaced
  obtain ⟨rfl, -⟩ := hp
  have hlen : (s.pushed ++ [item]).length = s.pushed.length + 1 := by
    rw [List.length_append, List.length_singleton]
  unfold pushLatest
  simp only [hs]
  constructor
  · exact h.mask
  · exact h.head
  · change _ = (s.pushed ++ [item]).length % 2 ^ k
    rw [hlen]
    exact h.next_slot _
  · change s.headPosition ≤ (s.pushed ++ [item]).length
    omega
  · change (s.pushed ++ [item]).length + 1 + 0 ≤ _
    rw [hlen]
    exact hroom
  · change Keeps _ _ ((s.pushed ++ [item]) ++ []) ((s.pushed ++ [item]).length + 0 - 2 ^ k)
    rw [List.append_nil, hlen]
    exact hkeeps
  · exact h.ascending
  · rw [← h.frames]
    apply List.map_congr_left
    intro p hpos
    exact List.getElem?_append_left (Nat.lt_of_lt_of_le (h.below p hpos) hle)
  · exact h.below
  · exact h.skipped
  · change ∀ d ∈ s.dropped, d.2 < (s.pushed ++ [item]).length + 0
    rw [hlen]
    exact hreplaced
  · trivial
  · exact h.consumer.of_push rfl rfl rfl (Nat.le_refl _) (List.prefix_append _ _)

theorem Rep.pushLatest (h : Rep k s) (hk : 1 ≤ k) (item : T)
    (hahead : AtMostOneAhead s (.producer item)) : Rep k (s.pushLatest item) := by
  have hp := h.producer
  have hroom := h.room
  cases hs : s.producer with
  | idle =>
    rw [hs] at hroom
    unfold FreshnessThreads.pushLatest
    simp only [hs]
    exact h.withProducer (by rw [hs]; rfl) rfl (by rw [hs]; exact Nat.le_refl _) hroom h.tail
  | loadHead x t =>
    simp only [ProducerOk, hs] at hp
    rw [hs] at hroom
    change s.pushed.length + 1 ≤ _ at hroom
    unfold FreshnessThreads.pushLatest
    simp only [hs]
    split
    · next hfull =>
      rw [hp, h.next_slot, h.head, h.full_iff] at hfull
      exact h.withProducer (by rw [hs]; rfl) rfl (by rw [hs]; exact Nat.le_refl _) hroom
        ⟨hp, h.head, Nat.le_refl _, hfull⟩
    · next hfull =>
      rw [hp, h.next_slot, h.head, h.full_iff] at hfull
      refine h.withProducer (by rw [hs]; rfl) rfl (by rw [hs]; exact Nat.zero_le _) ?_ hp
      change s.pushed.length + 1 + 1 ≤ _
      omega
  | dropOldest x t i => exact h.dropOldest hk hs (hahead x t i hs)
  | write x t => exact h.write hs
  | storeTail x t => exact h.storeTail hs

theorem Rep.withConsumer (h : Rep k s) {consumer : FreshnessConsumer T} {seen : ℕ}
    (hok : ConsumerOk (2 ^ k) { s with popSeen := seen, consumer := consumer }) :
    Rep k { s with popSeen := seen, consumer := consumer } := by
  constructor
  · exact h.mask
  · exact h.head
  · exact h.tail
  · exact h.le
  · exact h.room
  · exact h.keeps
  · exact h.ascending
  · exact h.frames
  · exact h.below
  · exact h.skipped
  · exact h.replaced
  · exact h.producer
  · exact hok

theorem Rep.get (h : Rep k s) {p : ℕ} (hp : s.headPosition ≤ p + 1) (hlt : p < s.pushed.length) :
    s.pushed[p]? = some (s.ring.buffer (p % 2 ^ k)) := by
  have hroom := h.room
  have hwritten := s.producer.length_written_le
  have hkeeps := h.keeps.mono (show _ ≤ p by omega)
  have hget := hkeeps.get (by rw [List.length_append]; omega)
  rwa [List.getElem?_append_left hlt] at hget

theorem ProducerOk.of_pop {n : ℕ} {t : FreshnessThreads T} (h : ProducerOk n s)
    (hp : t.producer = s.producer) (hseen : t.pushSeen = s.pushSeen)
    (hpushed : t.pushed = s.pushed) (hbuffer : t.ring.buffer = s.ring.buffer)
    (hhead : s.headPosition ≤ t.headPosition) : ProducerOk n t := by
  unfold ProducerOk at h ⊢
  rw [hp, hseen, hpushed, hbuffer]
  split at h
  · trivial
  · exact h
  · exact h
  · exact ⟨h.1, h.2.1, Nat.le_trans h.2.2.1 hhead, h.2.2.2⟩
  · exact h

theorem Rep.storeHead (h : Rep k s) {item : T} {i : ℕ} (hs : s.consumer = .storeHead i item)
    (hahead : s.headPosition ≤ s.popSeen + 1) : Rep k s.tryPop := by
  have hc := h.consumer
  have hroom := h.room
  simp only [ConsumerOk, hs] at hc
  obtain ⟨⟨rfl, hseen, hbelow⟩, hlt, hitem⟩ := hc
  unfold tryPop
  simp only [hs]
  constructor
  · exact h.mask
  · exact h.next_slot _
  · exact h.tail
  · exact hlt
  · change s.pushed.length + 1 + s.producer.pending ≤ s.popSeen + 1 + 2 ^ k
    omega
  · exact h.keeps
  · apply List.pairwise_append.mpr
    exact ⟨h.ascending, List.pairwise_singleton _ _,
      fun p hp q hq => List.mem_singleton.mp hq ▸ hbelow p hp⟩
  · change (s.positions ++ [s.popSeen]).map _ = (s.returned ++ [item]).map some
    rw [List.map_append, List.map_append, ← h.frames, List.map_singleton, List.map_singleton,
      hitem hahead]
  · intro p hp
    change p < s.popSeen + 1
    rcases List.mem_append.mp hp with hold | hnew
    · exact Nat.lt_succ_of_lt (hbelow p hold)
    · rw [List.mem_singleton.mp hnew]
      exact Nat.lt_succ_self _
  · intro j hj
    change j < s.popSeen + 1 at hj
    change j ∈ s.positions ++ [s.popSeen] ∨ _
    by_cases hold : j < s.headPosition
    · rcases h.skipped j hold with hmem | hmem
      · exact .inl (List.mem_append_left _ hmem)
      · exact .inr hmem
    · have hj' : j = s.popSeen := by omega
      rw [hj']
      exact .inl List.mem_concat_self
  · exact h.replaced
  · exact h.producer.of_pop rfl rfl rfl rfl (by change _ ≤ s.popSeen + 1; exact hahead)
  · trivial

theorem Rep.tryPop (h : Rep k s) (hahead : AtMostOneAhead s .consumer) : Rep k s.tryPop := by
  have hc := h.consumer
  cases hs : s.consumer with
  | idle =>
    unfold FreshnessThreads.tryPop
    simp only [hs]
    exact h.withConsumer ⟨h.head, Nat.le_refl _, h.below⟩
  | loadTail i =>
    simp only [ConsumerOk, hs] at hc
    unfold FreshnessThreads.tryPop
    simp only [hs]
    split
    · exact h.withConsumer trivial
    · next hne =>
      have hseen : s.popSeen ≠ s.pushed.length := by
        intro he
        exact hne (by rw [hc.1, h.tail, he])
      exact h.withConsumer ⟨hc, Nat.lt_of_le_of_ne (Nat.le_trans hc.2.1 h.le) hseen⟩
  | read i =>
    simp only [ConsumerOk, hs] at hc
    obtain ⟨⟨rfl, hseen⟩, hlt⟩ := hc
    unfold FreshnessThreads.tryPop
    simp only [hs]
    exact h.withConsumer ⟨⟨rfl, hseen⟩, hlt, fun hnear => h.get hnear hlt⟩
  | storeHead i item => exact h.storeHead hs (hahead i item hs)

theorem Rep.step (h : Rep k s) (hk : 1 ≤ k) (a : FreshnessThread T)
    (hahead : AtMostOneAhead s a) : Rep k (s.step a) := by
  cases a with
  | producer item => exact h.pushLatest hk item hahead
  | consumer => exact h.tryPop hahead

theorem Rep.pop_alone (h : Rep k s) (hidle : s.consumer = .idle) {frame : T}
    (hframe : s.pushed[s.headPosition]? = some frame) :
    ∃ t, (List.replicate 4 .consumer).foldl FreshnessThreads.step s = t ∧ Rep k t ∧
      t.consumer = .idle ∧ t.pushed = s.pushed ∧ t.headPosition = s.headPosition + 1 ∧
      t.returned = s.returned ++ [frame] := by
  obtain ⟨hlt, -⟩ := List.getElem?_eq_some_iff.mp hframe
  have hroom := h.room
  have hne : s.ring.head ≠ s.ring.tail := by
    rw [h.head, h.tail]
    intro hslot
    have hsame := slot_injective hslot h.le (by omega)
    omega
  have hread : s.ring.buffer s.ring.head = frame := by
    have hget := h.get (Nat.le_succ _) hlt
    rw [hframe] at hget
    rw [h.head]
    exact (Option.some.inj hget).symm
  let u : FreshnessThreads T :=
    { s with popSeen := s.headPosition, consumer := .storeHead s.ring.head frame }
  have hu : (List.replicate 3 .consumer).foldl FreshnessThreads.step s = u := by
    simp [List.replicate, FreshnessThreads.step, FreshnessThreads.tryPop, hidle, hne, hread, u]
  have hrep : Rep k u := by
    refine h.withConsumer ⟨⟨h.head, Nat.le_refl _, h.below⟩, hlt, fun _ => hframe⟩
  refine ⟨u.tryPop, ?_, hrep.storeHead rfl (Nat.le_succ _), rfl, rfl, rfl, rfl⟩
  rw [List.replicate_succ', List.foldl_append, hu]
  rfl

/-- Calls of `try_pop` alone come to the newest frame. -/
theorem Rep.available (h : Rep k s) (hidle : s.consumer = .idle) {i : ℕ}
    (hi : i + 1 = s.pushed.length) (hhead : s.headPosition ≤ i) :
    ∃ actions, ((List.replicate actions .consumer).foldl FreshnessThreads.step s).returned.getLast? =
      s.pushed[i]? := by
  obtain ⟨d, hd⟩ := Nat.le.dest hhead
  induction d generalizing s with
  | zero =>
    have hframe := List.getElem?_eq_getElem (show s.headPosition < s.pushed.length by omega)
    obtain ⟨t, ht, -, -, -, -, hreturned⟩ := h.pop_alone hidle hframe
    refine ⟨4, ?_⟩
    rw [ht, hreturned, List.getLast?_concat, ← hframe]
    rw [← hd, Nat.add_zero]
  | succ d ih =>
    have hframe := List.getElem?_eq_getElem (show s.headPosition < s.pushed.length by omega)
    obtain ⟨t, ht, hrep, htidle, hpushed, hposition, -⟩ := h.pop_alone hidle hframe
    obtain ⟨actions, hactions⟩ := ih hrep htidle (by rw [hpushed]; exact hi)
      (by rw [hposition]; omega) (by rw [hposition]; omega)
    refine ⟨4 + actions, ?_⟩
    rw [← List.replicate_append_replicate, List.foldl_append, ht, hactions, hpushed]

theorem Rep.delivers (h : Rep k s) (hk : 1 ≤ k) : Delivers (2 ^ k) s s.positions := by
  have hcapacity : 2 ^ 1 ≤ 2 ^ k := Nat.pow_le_pow_right (by decide) hk
  constructor
  · exact h.ascending
  · exact h.frames
  · intro p hp i hi
    exact h.skipped i (Nat.lt_trans hi (h.below p hp))
  · intro hproducer hconsumer i hi hnot
    apply h.available hconsumer hi
    by_contra hpast
    -- A newest frame that was dropped has been replaced by a newer one.
    rcases h.skipped i (Nat.lt_of_not_le hpast) with hmem | hmem
    · exact hnot hmem
    · have hreplaced := h.replaced _ hmem
      rw [hproducer] at hreplaced
      change i + (2 ^ k - 1) < s.pushed.length + 0 at hreplaced
      omega

end Steps

/-- In a run in which each store of `head_` finds it at most one position past the value that the
call has loaded, every state delivers the frames at most once and in order. -/
theorem run_delivers_frames [Inhabited T] (k : ℕ) (hk : 1 ≤ k) (schedule : List (FreshnessThread T))
    (hahead : Along step AtMostOneAhead (init k) schedule) :
    ∀ done, done <+: schedule →
      ∃ positions, Delivers (2 ^ k) (done.foldl step (init k)) positions := by
  intro done hdone
  have hrep : Rep k (done.foldl step (init k)) :=
    (hahead.of_prefix hdone).invariant (rep_init hk) fun _ a h => h.step hk a
  exact ⟨_, hrep.delivers hk⟩

/-- The producer drops the frame that the consumer is about to copy. -/
theorem dropped_frame_delivered : 1 ≤ 1 ∧ ∃ positions, Delivers (2 ^ 1)
    (List.foldl step (init 1 : FreshnessThreads ℕ)
      [.producer 7, .producer 7, .producer 7, .producer 7, .consumer, .consumer, .producer 8,
        .producer 8, .producer 8, .producer 8, .producer 8, .consumer, .consumer]) positions := by
  refine ⟨by decide, run_delivers_frames 1 (by decide) _ ?_ _ (List.prefix_refl _)⟩
  simp [Along, AtMostOneAhead, step, pushLatest, tryPop, init]

/-- Two frames are dropped while the consumer stands between its two loads. It copies the newest
frame from the slot of the oldest, and its store moves `head_` back to where `tail_` is. -/
theorem overtaken_frames_lost : ¬∃ positions, Delivers (2 ^ 2)
    (List.foldl step (init 2 : FreshnessThreads ℕ)
      [.producer 10, .producer 10, .producer 10, .producer 10,
        .producer 11, .producer 11, .producer 11, .producer 11,
        .producer 12, .producer 12, .producer 12, .producer 12, .consumer,
        .producer 13, .producer 13, .producer 13, .producer 13, .producer 13,
        .producer 14, .producer 14, .producer 14, .producer 14, .producer 14,
        .consumer, .consumer, .consumer]) positions := by
  rintro ⟨positions, -, hframes, hskipped, -⟩
  change positions.map (fun i => [10, 11, 12, 13, 14][i]?) = [some 14] at hframes
  change ∀ p ∈ positions, ∀ i < p, i ∈ positions ∨ (i, i + 3) ∈ [(0, 3), (1, 4)] at hskipped
  obtain ⟨p, rfl, hp⟩ := List.map_eq_singleton_iff.mp hframes
  have hlt : p < 5 := (List.getElem?_eq_some_iff.mp hp).1
  interval_cases p
  · cases hp
  · cases hp
  · cases hp
  · cases hp
  · have hmissing := hskipped 4 (by simp) 2 (by decide)
    simp at hmissing

end FreshnessThreads

end HighPerformance
