import HighPerformance.CallHistory
import HighPerformance.FallibleRun
import Mathlib.Logic.Function.Basic

/-!
# The queue with a lock at each end

`threadsafe_queue` of `6.2.3_thread_safe_queue_with_finegrained_locking.cpp` under any number of
threads. `push` locks the tail, the other calls lock the head and, inside `get_tail`, the tail. A step
of a thread is the locking or the unlocking of one mutex, one write to a pointer or an element, or a
call on `data_cond_`. A thread that finds a mutex locked stays where it is. A thread that waits on
`data_cond_` may wake without a notification. The addresses that `new` returns are chosen by the run
and may have been in use before.
-/

namespace HighPerformance
open FallibleRun CallHistory

structure TailedNode (T : Type) where
  data : Option T := none
  next : Option ℕ := none

/-- `into` says that the value is moved into a variable of the caller. -/
inductive QueuePop where
  | tryPop (into : Bool)
  | waitAndPop (into : Bool)
  deriving DecidableEq

/-- The calls that compare the head with the tail. -/
inductive QueueCheck where
  | pop (k : QueuePop)
  | empty
  deriving DecidableEq

inductive QueueRequest (T : Type) where
  | push (newValue : T)
  | check (c : QueueCheck)

/-- What a call returns; for a pop into a variable, what the variable then holds. -/
inductive QueueAnswer (T : Type) where
  | returned
  | popped (res : Option T)
  | isEmpty (b : Bool)

/-- Where a thread is: not in a call; in `push`, before the lock of the tail, before each of the three
writes, before the unlock and before the notification; in the other calls, before the lock of the
head, then in `get_tail` before the lock of the tail, before the read and before the unlock. A pop that
finds an element reads it, if it is to be moved into a variable, takes the head node out and moves the
head to the next one, unlocks the head and destroys the old node. A pop that finds none returns, or
unlocks the head and sleeps. -/
inductive ThreadsafeQueuePc (T : Type) where
  | idle
  | lockTail (newValue : T) (p : ℕ)
  | setData (newValue : T) (p : ℕ)
  | setNext (newValue : T) (p : ℕ)
  | setTail (newValue : T) (p : ℕ)
  | unlockTail (newValue : T)
  | notify (newValue : T)
  | lockHead (c : QueueCheck)
  | lockSeen (c : QueueCheck)
  | readTail (c : QueueCheck)
  | unlockSeen (c : QueueCheck) (isEmpty : Bool)
  | readValue (k : QueuePop)
  | takeHead (k : QueuePop) (value : Option T)
  | moveNext (k : QueuePop) (value : Option T) (oldHead : ℕ)
  | unlockHead (k : QueuePop) (value : Option T) (oldHead : ℕ)
  | destroy (k : QueuePop) (value : Option T) (oldHead : ℕ)
  | unlockNone (into : Bool)
  | returnNone (into : Bool)
  | sleep (into : Bool)
  | asleep (into : Bool)
  | unlockEmpty (isEmpty : Bool)

/-- The calls with their answers in the order in which they take effect, and the calls that have
returned to each thread. -/
structure ThreadsafeQueue (τ T : Type) where
  heap : ℕ → Option (TailedNode T)
  head : Option ℕ
  tail : ℕ
  headMutex : Option τ := none
  tailMutex : Option τ := none
  dataCond : List τ := []
  pc : τ → ThreadsafeQueuePc T := fun _ => .idle
  calls : List (τ × QueueRequest T × QueueAnswer T) := []
  returned : τ → List (QueueRequest T × QueueAnswer T) := fun _ => []

/-- A thread begins a call, for which `new` returns `address` if it is not in use, or goes on; a
notification wakes the thread that `choice` selects. A thread that sleeps may wake by itself. -/
inductive ThreadsafeQueueAction (τ T : Type) where
  | call (thread : τ) (request : QueueRequest T) (address : ℕ)
  | go (thread : τ) (choice : ℕ)
  | wake (thread : τ)

inductive ThreadsafeQueueFault where
  | useAfterFree
  | nullDeref
  deriving DecidableEq

namespace ThreadsafeQueue
variable {τ T : Type}

/-- The constructor makes the node that stays behind the elements. -/
def init (dummy : ℕ) : ThreadsafeQueue τ T where
  heap := Function.update (fun _ => none) dummy (some {})
  head := some dummy
  tail := dummy

section Code
variable [DecidableEq τ]

def node (s : ThreadsafeQueue τ T) (a : ℕ) : Except ThreadsafeQueueFault (TailedNode T) :=
  match s.heap a with
  | some n => .ok n
  | none => .error .useAfterFree

def deref {α : Type} : Option α → Except ThreadsafeQueueFault α
  | some a => .ok a
  | none => .error .nullDeref

def set (s : ThreadsafeQueue τ T) (a : ℕ) (n : Option (TailedNode T)) : ThreadsafeQueue τ T :=
  { s with heap := Function.update s.heap a n }

def goto (s : ThreadsafeQueue τ T) (t : τ) (pc : ThreadsafeQueuePc T) : ThreadsafeQueue τ T :=
  { s with pc := Function.update s.pc t pc }

/-- The call takes effect. -/
def enter (s : ThreadsafeQueue τ T) (t : τ) (call : QueueRequest T × QueueAnswer T) :
    ThreadsafeQueue τ T :=
  { s with calls := s.calls ++ [(t, call)] }

def leave (s : ThreadsafeQueue τ T) (t : τ) (call : QueueRequest T × QueueAnswer T) :
    ThreadsafeQueue τ T :=
  { s.goto t .idle with returned := Function.update s.returned t (s.returned t ++ [call]) }

def call (s : ThreadsafeQueue τ T) (t : τ) (request : QueueRequest T) (address : ℕ) :
    ThreadsafeQueue τ T :=
  match s.pc t, request with
  | .idle, .push newValue =>
      if (s.heap address).isSome then s
      else (s.set address (some {})).goto t (.lockTail newValue address)
  | .idle, .check c => s.goto t (.lockHead c)
  | _, _ => s

/-- A thread leaves the condition variable and locks the head again. -/
def wake (s : ThreadsafeQueue τ T) (t : τ) : ThreadsafeQueue τ T :=
  match s.pc t with
  | .asleep into =>
      { s.goto t (.lockHead (.pop (.waitAndPop into))) with dataCond := s.dataCond.erase t }
  | _ => s

def notifyOne (s : ThreadsafeQueue τ T) (choice : ℕ) : ThreadsafeQueue τ T :=
  match s.dataCond[choice % s.dataCond.length]? with
  | some t => s.wake t
  | none => s

def lockHead (s : ThreadsafeQueue τ T) (t : τ) (pc : ThreadsafeQueuePc T) : ThreadsafeQueue τ T :=
  if s.headMutex.isSome then s else { s.goto t pc with headMutex := some t }

def lockTail (s : ThreadsafeQueue τ T) (t : τ) (pc : ThreadsafeQueuePc T) : ThreadsafeQueue τ T :=
  if s.tailMutex.isSome then s else { s.goto t pc with tailMutex := some t }

def setData (s : ThreadsafeQueue τ T) (t : τ) (newValue : T) (p : ℕ) :
    Except ThreadsafeQueueFault (ThreadsafeQueue τ T) := do
  let n ← s.node s.tail
  return (s.set s.tail (some { n with data := some newValue })).goto t (.setNext newValue p)

def setNext (s : ThreadsafeQueue τ T) (t : τ) (newValue : T) (p : ℕ) :
    Except ThreadsafeQueueFault (ThreadsafeQueue τ T) := do
  let n ← s.node s.tail
  return (s.set s.tail (some { n with next := some p })).goto t (.setTail newValue p)

def setTail (s : ThreadsafeQueue τ T) (t : τ) (newValue : T) (p : ℕ) : ThreadsafeQueue τ T :=
  ({ s with tail := p }.goto t (.unlockTail newValue)).enter t (.push newValue, .returned)

/-- The comparison with `head_`, which nobody else changes, is part of the read. -/
def readTail (s : ThreadsafeQueue τ T) (t : τ) (c : QueueCheck) : ThreadsafeQueue τ T :=
  let isEmpty := decide (s.head = some s.tail)
  let s' := s.goto t (.unlockSeen c isEmpty)
  match c, isEmpty with
  | .pop (.tryPop _), true => s'.enter t (.check c, .popped none)
  | .empty, _ => s'.enter t (.check c, .isEmpty isEmpty)
  | _, _ => s'

def pop (k : QueuePop) : ThreadsafeQueuePc T :=
  match k with
  | .tryPop into | .waitAndPop into => if into then .readValue k else .takeHead k none

def afterCheck (c : QueueCheck) (isEmpty : Bool) : ThreadsafeQueuePc T :=
  match c, isEmpty with
  | .pop (.tryPop into), true => .unlockNone into
  | .pop (.waitAndPop into), true => .sleep into
  | .pop k, false => pop k
  | .empty, _ => .unlockEmpty isEmpty

def readValue (s : ThreadsafeQueue τ T) (t : τ) (k : QueuePop) :
    Except ThreadsafeQueueFault (ThreadsafeQueue τ T) := do
  let head ← deref s.head
  let n ← s.node head
  let value ← deref n.data
  return s.goto t (.takeHead k (some value))

/-- `old_head = std::move(head_)`. -/
def takeHead (s : ThreadsafeQueue τ T) (t : τ) (k : QueuePop) (value : Option T) :
    Except ThreadsafeQueueFault (ThreadsafeQueue τ T) := do
  let head ← deref s.head
  return { s with head := none }.goto t (.moveNext k value head)

/-- `head_ = std::move(old_head->next_)`. -/
def moveNext (s : ThreadsafeQueue τ T) (t : τ) (k : QueuePop) (value : Option T) (oldHead : ℕ) :
    Except ThreadsafeQueueFault (ThreadsafeQueue τ T) := do
  let n ← s.node oldHead
  return (({ s with head := n.next }.set oldHead (some { n with next := none })).goto t
    (.unlockHead k value oldHead)).enter t (.check (.pop k), .popped (value.or n.data))

def destroy (s : ThreadsafeQueue τ T) (t : τ) (k : QueuePop) (value : Option T) (oldHead : ℕ) :
    Except ThreadsafeQueueFault (ThreadsafeQueue τ T) := do
  let n ← s.node oldHead
  return (s.set oldHead none).leave t (.check (.pop k), .popped (value.or n.data))

/-- `try_pop` into a variable reads the element of the node that it has not got. -/
def returnNone (s : ThreadsafeQueue τ T) (t : τ) (into : Bool) :
    Except ThreadsafeQueueFault (ThreadsafeQueue τ T) :=
  if into then .error .nullDeref else .ok (s.leave t (.check (.pop (.tryPop into)), .popped none))

def go (s : ThreadsafeQueue τ T) (t : τ) (choice : ℕ) :
    Except ThreadsafeQueueFault (ThreadsafeQueue τ T) :=
  match s.pc t with
  | .idle | .asleep _ => .ok s
  | .lockTail newValue p => .ok (s.lockTail t (.setData newValue p))
  | .setData newValue p => s.setData t newValue p
  | .setNext newValue p => s.setNext t newValue p
  | .setTail newValue p => .ok (s.setTail t newValue p)
  | .unlockTail newValue => .ok { s.goto t (.notify newValue) with tailMutex := none }
  | .notify newValue => .ok ((s.notifyOne choice).leave t (.push newValue, .returned))
  | .lockHead c => .ok (s.lockHead t (.lockSeen c))
  | .lockSeen c => .ok (s.lockTail t (.readTail c))
  | .readTail c => .ok (s.readTail t c)
  | .unlockSeen c isEmpty => .ok { s.goto t (afterCheck c isEmpty) with tailMutex := none }
  | .readValue k => s.readValue t k
  | .takeHead k value => s.takeHead t k value
  | .moveNext k value oldHead => s.moveNext t k value oldHead
  | .unlockHead k value oldHead =>
      .ok { s.goto t (.destroy k value oldHead) with headMutex := none }
  | .destroy k value oldHead => s.destroy t k value oldHead
  | .unlockNone into => .ok { s.goto t (.returnNone into) with headMutex := none }
  | .returnNone into => s.returnNone t into
  | .sleep into =>
      .ok { s.goto t (.asleep into) with headMutex := none, dataCond := s.dataCond ++ [t] }
  | .unlockEmpty isEmpty =>
      .ok { s.leave t (.check .empty, .isEmpty isEmpty) with headMutex := none }

def step (s : ThreadsafeQueue τ T) :
    ThreadsafeQueueAction τ T → Except ThreadsafeQueueFault (ThreadsafeQueue τ T)
  | .call t request address => .ok (s.call t request address)
  | .go t choice => s.go t choice
  | .wake t => .ok (s.wake t)

end Code

end ThreadsafeQueue

/-! ### The queue behind the heap -/

namespace ThreadsafeQueuePc
variable {T : Type}

def holdsHead : ThreadsafeQueuePc T → Bool
  | .lockSeen _ | .readTail _ | .unlockSeen _ _ | .readValue _ | .takeHead _ _ | .moveNext _ _ _
  | .unlockHead _ _ _ | .unlockNone _ | .sleep _ | .unlockEmpty _ => true
  | _ => false

def holdsTail : ThreadsafeQueuePc T → Bool
  | .setData _ _ | .setNext _ _ | .setTail _ _ | .unlockTail _ | .readTail _ | .unlockSeen _ _ => true
  | _ => false

def isAsleep : ThreadsafeQueuePc T → Bool
  | .asleep _ => true
  | _ => false

/-- The node that only this thread uses. -/
def own : ThreadsafeQueuePc T → Option ℕ
  | .lockTail _ p | .setData _ p | .setNext _ p | .setTail _ p => some p
  | .unlockHead _ _ oldHead | .destroy _ _ oldHead => some oldHead
  | _ => none

/-- The first node, between the two moves of `pop_head`. -/
def taken : ThreadsafeQueuePc T → Option ℕ
  | .moveNext _ _ oldHead => some oldHead
  | _ => none

/-- What a thread in `push` has made of the last node. -/
def written : ThreadsafeQueuePc T → TailedNode T
  | .setNext newValue _ => { data := some newValue }
  | .setTail newValue p => { data := some newValue, next := some p }
  | _ => {}

/-- The call that has taken effect and not returned. -/
def pending (heap : ℕ → Option (TailedNode T)) :
    ThreadsafeQueuePc T → List (QueueRequest T × QueueAnswer T)
  | .unlockTail newValue | .notify newValue => [(.push newValue, .returned)]
  | .unlockSeen (.pop (.tryPop into)) true | .unlockNone into | .returnNone into =>
      [(.check (.pop (.tryPop into)), .popped none)]
  | .unlockSeen .empty isEmpty | .unlockEmpty isEmpty => [(.check .empty, .isEmpty isEmpty)]
  | .unlockHead k value oldHead | .destroy k value oldHead =>
      [(.check (.pop k), .popped (value.or ((heap oldHead).bind TailedNode.data)))]
  | _ => []

theorem taken_eq_none {pc : ThreadsafeQueuePc T} (h : pc.holdsHead = false) : pc.taken = none := by
  cases pc with
  | moveNext k value oldHead => cases h
  | _ => rfl

theorem written_eq_empty {pc : ThreadsafeQueuePc T} (h : pc.holdsTail = false) : pc.written = {} := by
  cases pc with
  | setNext newValue p | setTail newValue p => cases h
  | _ => rfl

theorem pending_congr {heap heap' : ℕ → Option (TailedNode T)} {pc : ThreadsafeQueuePc T}
    (h : ∀ a, pc.own = some a → heap' a = heap a) : pc.pending heap' = pc.pending heap := by
  cases pc with
  | unlockHead k value oldHead | destroy k value oldHead =>
    simp only [pending]
    rw [h oldHead rfl]
  | unlockSeen c isEmpty =>
    cases c with
    | empty => rfl
    | pop k =>
      cases k with
      | waitAndPop into => rfl
      | tryPop into =>
        cases isEmpty with
        | true => rfl
        | false => rfl
  | _ => rfl

end ThreadsafeQueuePc

/-- What a call does to a queue that nobody else calls. -/
def QueueEffect {T : Type} : List T → QueueRequest T × QueueAnswer T → List T → Prop
  | xs, (.push newValue, .returned), ys => ys = xs ++ [newValue]
  | xs, (.check (.pop (.tryPop _)), .popped none), ys => xs = [] ∧ ys = []
  | xs, (.check (.pop _), .popped (some x)), ys => xs = x :: ys
  | xs, (.check .empty, .isEmpty b), ys => ys = xs ∧ b = xs.isEmpty
  | _, _, _ => False

theorem QueueEffect.pop {T : Type} {xs : List T} {x : T} {k : QueuePop} :
    QueueEffect (x :: xs) (.check (.pop k), .popped (some x)) xs := by
  cases k with
  | tryPop into => rfl
  | waitAndPop into => rfl

namespace ThreadsafeQueue
variable {τ T : Type}

/-- The first node, or the one behind the elements. -/
def firstOf : List (ℕ × T) → ℕ → ℕ
  | [], tail => tail
  | e :: _, _ => e.1

/-- The nodes of the elements, each with its address. -/
def Links (heap : ℕ → Option (TailedNode T)) (tail : ℕ) : List (ℕ × T) → Prop
  | [] => True
  | (a, x) :: nodes =>
      heap a = some { data := some x, next := some (firstOf nodes tail) } ∧ Links heap tail nodes

def front (s : ThreadsafeQueue τ T) : Option ℕ :=
  ((s.headMutex.map fun t => (s.pc t).taken).getD none).or s.head

def lastNode (s : ThreadsafeQueue τ T) : TailedNode T :=
  (s.tailMutex.map fun t => (s.pc t).written).getD {}

def told (s : ThreadsafeQueue τ T) (t : τ) : List (QueueRequest T × QueueAnswer T) :=
  s.returned t ++ (s.pc t).pending s.heap

/-- What a thread knows of its new node, or of the first element. -/
def PcOk (heap : ℕ → Option (TailedNode T)) (head : Option ℕ) (nodes : List (ℕ × T)) :
    ThreadsafeQueuePc T → Prop
  | .lockTail _ p | .setData _ p | .setNext _ p | .setTail _ p => heap p = some {}
  | .unlockSeen (.pop _) false | .readValue _ => nodes ≠ []
  | .takeHead _ value => ∃ e rest, nodes = e :: rest ∧ ∀ v, value = some v → v = e.2
  | .moveNext _ value oldHead =>
      head = none ∧ ∃ x rest, nodes = (oldHead, x) :: rest ∧ ∀ v, value = some v → v = x
  | _ => True

structure Rep [DecidableEq τ] (s : ThreadsafeQueue τ T) (nodes : List (ℕ × T)) : Prop where
  front : s.front = some (firstOf nodes s.tail)
  links : Links s.heap s.tail nodes
  last : s.heap s.tail = some s.lastNode
  nodup : (nodes.map Prod.fst ++ [s.tail]).Nodup
  headLock : ∀ t, s.headMutex = some t ↔ (s.pc t).holdsHead = true
  tailLock : ∀ t, s.tailMutex = some t ↔ (s.pc t).holdsTail = true
  cond : ∀ t, t ∈ s.dataCond ↔ (s.pc t).isAsleep = true
  condNodup : s.dataCond.Nodup
  inUse : ∀ a, (s.heap a).isSome ↔
    a ∈ nodes.map Prod.fst ++ [s.tail] ∨ ∃ t, (s.pc t).own = some a
  apart : ∀ t a, (s.pc t).own = some a → a ∉ nodes.map Prod.fst ++ [s.tail]
  alone : ∀ t u a, (s.pc t).own = some a → (s.pc u).own = some a → t = u
  pcOk : ∀ t, PcOk s.heap s.head nodes (s.pc t)
  replays : Replays QueueEffect [] s.calls (nodes.map Prod.snd)
  answers : ∀ t, callsOf t s.calls = s.told t

section Links
variable {heap heap' : ℕ → Option (TailedNode T)} {nodes : List (ℕ × T)} {tail p : ℕ} {x : T}

theorem Links.congr (h : Links heap tail nodes) (hsame : ∀ e ∈ nodes, heap' e.1 = heap e.1) :
    Links heap' tail nodes := by
  induction nodes with
  | nil => trivial
  | cons e nodes ih =>
    obtain ⟨he, hrest⟩ := h
    refine ⟨(hsame e List.mem_cons_self).trans he, ih hrest ?_⟩
    intro e he
    exact hsame e (List.mem_cons_of_mem _ he)

theorem firstOf_push : firstOf (nodes ++ [(tail, x)]) p = firstOf nodes tail := by
  cases nodes with
  | nil => rfl
  | cons e nodes => rfl

/-- The last node gets an element, and another node behind it. -/
theorem Links.push (h : Links heap tail nodes)
    (hlast : heap tail = some { data := some x, next := some p }) :
    Links heap p (nodes ++ [(tail, x)]) := by
  induction nodes with
  | nil => exact ⟨hlast, trivial⟩
  | cons e nodes ih =>
    obtain ⟨he, hrest⟩ := h
    refine ⟨?_, ih hrest⟩
    rw [← firstOf_push (x := x) (p := p)] at he
    exact he

end Links

end ThreadsafeQueue
end HighPerformance
