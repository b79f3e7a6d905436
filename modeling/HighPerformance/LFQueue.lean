import HighPerformance.FallibleRun
import HighPerformance.RingStore
import HighPerformance.Types

/-!
# The queue between two threads

`thu::LFQueue` with calls that are complete before the next one begins. The
number of elements is kept beside the two indices, and `getNextToRead` looks at
the indices only. `LFQueueHistory` adds what has been written to the queue and
read from it.
-/

namespace HighPerformance
open FallibleRun RingStore

structure LFQueue (T : Type) where
  capacity : ℕ
  store : ℕ → T
  nextWriteIndex : ℕ := 0
  nextReadIndex : ℕ := 0
  numElements : ℕ := 0

namespace LFQueue
variable {T : Type}

def init [Inhabited T] (numElems : ℕ) : LFQueue T := { capacity := numElems, store := fun _ => default }

/-- `*getNextToWriteTo() = x` -/
def writeNext (q : LFQueue T) (x : T) : LFQueue T :=
  { q with store := Function.update q.store q.nextWriteIndex x }

def updateWriteIndex (q : LFQueue T) : LFQueue T :=
  { q with
    nextWriteIndex := (q.nextWriteIndex + 1) % q.capacity
    numElements := q.numElements + 1 }

def getNextToRead (q : LFQueue T) : Option T :=
  if q.nextReadIndex = q.nextWriteIndex then none else some (q.store q.nextReadIndex)

def invalidRead (thread : ℕ) : String := "Read an invalid element in: " ++ toString thread

def updateReadIndex (q : LFQueue T) (thread : ℕ) : Except Fault (LFQueue T) := do
  let q := { q with nextReadIndex := (q.nextReadIndex + 1) % q.capacity }
  assert (q.numElements ≠ 0) (invalidRead thread)
  return { q with numElements := q.numElements - 1 }

def size (q : LFQueue T) : ℕ := q.numElements

end LFQueue

structure LFQueueHistory (T : Type) where
  queue : LFQueue T
  written : List T := []
  taken : List T := []

inductive LFQueueCall (T : Type) where
  | write (x : T)
  | read

namespace LFQueueHistory
variable {T : Type}

def init [Inhabited T] (numElems : ℕ) : LFQueueHistory T := { queue := .init numElems }

def call (thread : ℕ) (s : LFQueueHistory T) : LFQueueCall T → Except Fault (LFQueueHistory T)
  | .write x =>
      .ok { s with
        queue := (s.queue.writeNext x).updateWriteIndex
        written := s.written ++ [x] }
  | .read =>
      match s.queue.getNextToRead with
      | none => .ok s
      | some x => do
          let q ← s.queue.updateReadIndex thread
          return { s with queue := q, taken := s.taken ++ [x] }

def unread (s : LFQueueHistory T) : List T := s.written.drop s.taken.length

/-- What a FIFO shows of itself between two calls. -/
structure Fifo (s : LFQueueHistory T) : Prop where
  taken : s.taken <+: s.written
  next : s.queue.getNextToRead = s.unread.head?
  size : s.queue.size = s.unread.length

/-- One slot stays empty. -/
def KeepsSlotFree (s : LFQueueHistory T) : LFQueueCall T → Prop
  | .write _ => s.unread.length + 1 < s.queue.capacity
  | .read => True

/-- The indices and the store agree with the history of a queue of `n` slots. -/
structure Rep (n : ℕ) (s : LFQueueHistory T) : Prop where
  capacity : s.queue.capacity = n
  taken : s.taken <+: s.written
  room : s.written.length < s.taken.length + n
  write : s.queue.nextWriteIndex = s.written.length % n
  read : s.queue.nextReadIndex = s.taken.length % n
  count : s.queue.numElements = s.written.length - s.taken.length
  keeps : Keeps n s.queue.store s.written s.taken.length

section Calls
variable {n thread : ℕ} {s t : LFQueueHistory T} {x : T} {c : LFQueueCall T}

theorem length_unread : s.unread.length = s.written.length - s.taken.length := List.length_drop

theorem head_unread : s.unread.head? = s.written[s.taken.length]? := by
  rw [unread, List.head?_drop]

theorem rep_init [Inhabited T] (hn : 1 ≤ n) : Rep n (init n : LFQueueHistory T) := by
  constructor
  · rfl
  · exact List.nil_prefix
  · exact Nat.lt_add_left 0 hn
  · exact (Nat.zero_mod n).symm
  · exact (Nat.zero_mod n).symm
  · rfl
  · exact keeps_nil n _

theorem Rep.next (h : Rep n s) : s.queue.getNextToRead = s.unread.head? := by
  have hle := h.taken.length_le
  have hroom := h.room
  unfold LFQueue.getNextToRead
  rw [h.read, h.write, head_unread]
  by_cases heq : s.taken.length = s.written.length
  · rw [if_pos (by rw [heq]), heq, List.getElem?_eq_none (Nat.le_refl _)]
  · have hne : s.taken.length % n ≠ s.written.length % n := by
      intro hslot
      exact heq (slot_injective hslot hle hroom)
    rw [if_neg hne, h.keeps.get (by omega)]

theorem Rep.fifo (h : Rep n s) : Fifo s := by
  constructor
  · exact h.taken
  · exact h.next
  · rw [length_unread]
    exact h.count

theorem Rep.write_call (h : Rep n s) (hfree : s.written.length + 1 < s.taken.length + n) :
    ∃ t, call thread s (.write x) = .ok t ∧ Rep n t := by
  have hle := h.taken.length_le
  refine ⟨_, rfl, ?_⟩
  constructor
  · exact h.capacity
  · exact h.taken.trans (List.prefix_append _ _)
  · simpa using hfree
  · change (s.queue.nextWriteIndex + 1) % s.queue.capacity = _
    rw [h.capacity, h.write, next_slot, List.length_append, List.length_singleton]
  · exact h.read
  · change s.queue.numElements + 1 = _
    rw [h.count, List.length_append, List.length_singleton]
    change _ = s.written.length + 1 - s.taken.length
    omega
  · change Keeps n (Function.update s.queue.store s.queue.nextWriteIndex x) _ _
    rw [h.write]
    exact h.keeps.write h.room

theorem Rep.read_call (h : Rep n s) : ∃ t, call thread s .read = .ok t ∧ Rep n t := by
  have hle := h.taken.length_le
  have hroom := h.room
  have hnext := h.next
  rw [head_unread] at hnext
  by_cases hlt : s.taken.length < s.written.length
  · rw [h.keeps.get hlt] at hnext
    have hcount : s.queue.numElements ≠ 0 := by
      rw [h.count]
      omega
    refine ⟨{ s with
      queue := { s.queue with
        nextReadIndex := (s.queue.nextReadIndex + 1) % s.queue.capacity
        numElements := s.queue.numElements - 1 }
      taken := s.taken ++ [s.queue.store (s.taken.length % n)] }, ?_, ?_⟩
    · simp [call, hnext, LFQueue.updateReadIndex, hcount, bind, Except.bind, pure, Except.pure]
    · have hlen : (s.taken ++ [s.queue.store (s.taken.length % n)]).length = s.taken.length + 1 := by
        rw [List.length_append, List.length_singleton]
      constructor
      · exact h.capacity
      · exact h.keeps.take_prefix h.taken hlt
      · rw [hlen]
        change s.written.length < _
        omega
      · exact h.write
      · change (s.queue.nextReadIndex + 1) % s.queue.capacity = _
        rw [h.capacity, h.read, next_slot, hlen]
      · change s.queue.numElements - 1 = s.written.length - _
        rw [h.count, hlen]
        omega
      · exact h.keeps.mono (by rw [hlen]; omega)
  · refine ⟨s, ?_, h⟩
    rw [List.getElem?_eq_none (Nat.not_lt.mp hlt)] at hnext
    rw [call, hnext]

/-- The write that fills the last slot makes the queue look empty. -/
theorem Rep.fill_hides (h : Rep n s) (hfull : s.written.length + 1 = s.taken.length + n)
    (hok : call thread s (.write x) = .ok t) : ¬Fifo t := by
  cases hok
  intro hfifo
  have hnext := hfifo.next
  have hindices : (s.queue.nextWriteIndex + 1) % s.queue.capacity = s.queue.nextReadIndex := by
    rw [h.capacity, h.write, h.read, next_slot, hfull, Nat.add_mod_right]
  have hnone : (LFQueue.updateWriteIndex (s.queue.writeNext x)).getNextToRead = none :=
    if_pos hindices.symm
  rw [hnone, head_unread, eq_comm, List.getElem?_eq_none_iff, List.length_append,
    List.length_singleton] at hnext
  have hle := h.taken.length_le
  exact absurd hnext (by change ¬s.written.length + 1 ≤ s.taken.length; omega)

end Calls

/-- A queue of `n` elements is a FIFO at every point of a sequence of calls exactly when no
write of it fills the last slot. -/
theorem run_fifo_iff [Inhabited T] (n : ℕ) (hn : 1 ≤ n) (thread : ℕ) (cs : List (LFQueueCall T)) :
    (∀ done, done <+: cs → ∃ s, run (call thread) (init n) done = .ok s ∧ Fifo s) ↔
      Meets (call thread) KeepsSlotFree (init n) cs := by
  apply forall_run_ok_iff_meets (rep_init hn) (fun _ h => h.fifo)
  · intro s c h hfree
    cases c with
    | write x =>
      apply h.write_call
      have hle := h.taken.length_le
      rw [KeepsSlotFree, length_unread, h.capacity] at hfree
      omega
    | read => exact h.read_call
  · intro s c t h hok hfifo
    cases c with
    | write x =>
      have hroom := h.room
      have hle := h.taken.length_le
      rw [KeepsSlotFree, length_unread, h.capacity]
      by_contra hfull
      exact h.fill_hides (by omega) hok hfifo
    | read => trivial

/-- Two rounds through a queue of two slots. -/
theorem run_fifo_two_rounds : 1 ≤ 2 ∧
    ∀ done, done <+: [.write 5, .read, .write 6, .read, .write 7, .read] →
      ∃ s, run (call 0) (init 2 : LFQueueHistory ℕ) done = .ok s ∧ Fifo s := by
  refine ⟨by decide, (run_fifo_iff 2 (by decide) 0 _).mpr ?_⟩
  simp [Meets, KeepsSlotFree, call, init, LFQueue.init, LFQueue.getNextToRead, LFQueue.writeNext,
    LFQueue.updateWriteIndex, LFQueue.updateReadIndex, unread, bind, Except.bind, pure, Except.pure]

/-- A queue of one element cannot be read after the element has been written. -/
theorem full_queue_looks_empty :
    Meets (call 0) (fun s _ => s.unread.length + 1 ≤ s.queue.capacity)
      (init 1 : LFQueueHistory ℕ) [.write 5] ∧
    ¬∀ done, done <+: [.write 5] →
      ∃ s, run (call 0) (init 1 : LFQueueHistory ℕ) done = .ok s ∧ Fifo s := by
  constructor
  · exact ⟨Nat.le_refl 1, fun _ _ => trivial⟩
  · intro hall
    obtain ⟨s, hs, hfifo⟩ := hall _ (List.prefix_refl _)
    cases hs
    have hnext := hfifo.next
    cases hnext

end LFQueueHistory

end HighPerformance
