import HighPerformance.BitSmear
import HighPerformance.FallibleRun
import Mathlib.Data.Finset.Card
import Mathlib.Data.List.Nodup
import Mathlib.Data.Nat.Notation
import Mathlib.Logic.Function.Basic

/-!
# The bounded queue with stamped slots

`thu::LockFreeQueue` under any number of threads that call `push` and `pop`. An
action is one atomic access of one thread, or the access to the data of a slot,
which the thread that has won the slot's ticket makes alone. All accesses are
sequentially consistent.

The ticket of a `push` is the value of `_tail` that its `compare_exchange` has
replaced, and the ticket of a `pop` the value of `_head`. Besides the members of
the class a state records the values in the order of their tickets, the tickets
whose `push` has returned true, and what `pop` has returned.
-/

namespace HighPerformance
open FallibleRun

/-- A slot. `data` is `none` while nothing is constructed there. -/
structure QueueNode (T : Type) where
  data : Option T
  tail : ℕ
  head : ℕ

/-- Where a thread is in `push` or `pop`, with its local variables: before the
first load, before the load of the stamp, before the `compare_exchange`, before
the access to the data, and before the store of the stamp. `pop` first copies
the data and then destroys it. -/
inductive QueueThread (T : Type) where
  | idle
  | pushLoad (x : T)
  | pushTest (x : T) (tail : ℕ)
  | pushExchange (x : T) (tail : ℕ)
  | pushWrite (x : T) (tail : ℕ)
  | pushStamp (tail : ℕ)
  | popLoad
  | popTest (head : ℕ)
  | popExchange (head : ℕ)
  | popRead (head : ℕ)
  | popDestroy (head : ℕ) (result : Option T)
  | popStamp (head : ℕ) (result : Option T)

structure LockFreeQueue (T : Type) where
  capacityMask : ℕ
  capacity : ℕ
  queue : ℕ → QueueNode T
  tail : ℕ := 0
  head : ℕ := 0
  threads : ℕ → QueueThread T := fun _ => .idle
  pushed : List T := []
  accepted : List ℕ := []
  popped : List (ℕ × Option T) := []

/-- Thread `t` calls `push` or `pop` or makes its next access. A weak
`compare_exchange` may fail although it finds the expected value. -/
inductive QueueAction (T : Type) where
  | push (t : ℕ) (x : T)
  | pop (t : ℕ)
  | advance (t : ℕ) (spurious : Bool)

inductive NotPossible where
  | notPossible
  deriving DecidableEq

namespace LockFreeQueue
variable {T : Type}

/-- Arithmetic of `size_t`. -/
def wrap (x : ℕ) : ℕ := x % 2 ^ 64

def roundedMask (capacity : ℕ) : ℕ := BitSmear.smear [1, 2, 4, 8, 16, 32] (capacity - 1)

/-- The constructor, for a capacity that is not zero. -/
def construct (T : Type) (capacity : ℕ) : LockFreeQueue T where
  capacityMask := roundedMask capacity
  capacity := wrap (roundedMask capacity + 1)
  queue := fun i => { data := none, tail := i, head := 2 ^ 64 - 1 }

/-- The slot of a ticket. -/
def node (s : LockFreeQueue T) (ticket : ℕ) : QueueNode T := s.queue (ticket &&& s.capacityMask)

def setNode (s : LockFreeQueue T) (ticket : ℕ) (x : QueueNode T) : LockFreeQueue T :=
  { s with queue := Function.update s.queue (ticket &&& s.capacityMask) x }

def setThread (s : LockFreeQueue T) (t : ℕ) (x : QueueThread T) : LockFreeQueue T :=
  { s with threads := Function.update s.threads t x }

def advance (s : LockFreeQueue T) (t : ℕ) (spurious : Bool) :
    Except NotPossible (LockFreeQueue T) :=
  match s.threads t with
  | .idle => .error .notPossible
  | .pushLoad x => .ok (s.setThread t (.pushTest x s.tail))
  | .pushTest x tail =>
      .ok (s.setThread t (if (s.node tail).tail ≠ tail then .idle else .pushExchange x tail))
  | .pushExchange x tail =>
      if s.tail = tail ∧ spurious = false then
        .ok { s.setThread t (.pushWrite x tail) with
          tail := wrap (tail + 1), pushed := s.pushed ++ [x] }
      else .ok (s.setThread t (.pushTest x s.tail))
  | .pushWrite x tail =>
      .ok ((s.setNode tail { s.node tail with data := some x }).setThread t (.pushStamp tail))
  | .pushStamp tail =>
      .ok { (s.setNode tail { s.node tail with head := tail }).setThread t .idle with
        accepted := s.accepted ++ [tail] }
  | .popLoad => .ok (s.setThread t (.popTest s.head))
  | .popTest head =>
      .ok (s.setThread t (if (s.node head).head ≠ head then .idle else .popExchange head))
  | .popExchange head =>
      if s.head = head ∧ spurious = false then
        .ok { s.setThread t (.popRead head) with head := wrap (head + 1) }
      else .ok (s.setThread t (.popTest s.head))
  | .popRead head => .ok (s.setThread t (.popDestroy head (s.node head).data))
  | .popDestroy head result =>
      .ok ((s.setNode head { s.node head with data := none }).setThread t (.popStamp head result))
  | .popStamp head result =>
      .ok { (s.setNode head { s.node head with tail := wrap (head + s.capacity) }).setThread t .idle
        with popped := s.popped ++ [(head, result)] }

def step (s : LockFreeQueue T) : QueueAction T → Except NotPossible (LockFreeQueue T)
  | .push t x =>
      match s.threads t with
      | .idle => .ok (s.setThread t (.pushLoad x))
      | _ => .error .notPossible
  | .pop t =>
      match s.threads t with
      | .idle => .ok (s.setThread t .popLoad)
      | _ => .error .notPossible
  | .advance t spurious => s.advance t spurious

end LockFreeQueue

namespace QueueThread
variable {T : Type}

/-- The ticket that a thread has won and not yet given back. -/
def ticket : QueueThread T → Option ℕ
  | .pushWrite _ k | .pushStamp k | .popRead k | .popDestroy k _ | .popStamp k _ => some k
  | _ => none

end QueueThread

namespace LockFreeQueue
variable {T : Type}

/-- What the queue promises in a state. -/
structure Safe (s : LockFreeQueue T) : Prop where
  /-- A `pop` returns the value of the `push` that has the same ticket. -/
  values : ∀ k x, (k, x) ∈ s.popped → ∃ v, x = some v ∧ s.pushed[k]? = some v
  /-- No ticket is popped twice. -/
  once : (s.popped.map Prod.fst).Nodup
  /-- Where a `push` writes, nothing is left that a `pop` has still to read. -/
  writes : ∀ t x k, s.threads t = .pushWrite x k → (s.node k).data = none
  /-- Where a `pop` reads, the `push` of its ticket has written. -/
  reads : ∀ t k, s.threads t = .popRead k → ∃ v, (s.node k).data = some v ∧ s.pushed[k]? = some v
  /-- No two threads are at the data of one slot. -/
  alone : ∀ t t' k k', (s.threads t).ticket = some k → (s.threads t').ticket = some k' →
    k &&& s.capacityMask = k' &&& s.capacityMask → t = t'
  /-- What `push` has accepted stays in its slot until a `pop` takes the ticket. -/
  stored : ∀ k ∈ s.accepted, s.head ≤ k → ∃ v, (s.node k).data = some v ∧ s.pushed[k]? = some v
  /-- Not more than `_capacity` values are there that no `pop` has returned. -/
  bounded : s.pushed.length ≤ s.popped.length + s.capacity

end LockFreeQueue

end HighPerformance
