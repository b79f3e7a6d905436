import HighPerformance.FallibleRun
import HighPerformance.PipelinedPasses
import Mathlib.Data.List.Nodup

/-!
# The list with a lock for each node

`threadsafe_list` of `6.3.2_threadsafe_list.cpp` under any number of threads. A thread that walks
through the list locks the next node before it unlocks the one at which it stands, or unlinks the
next node while it holds both. A place is a node, given by its address, or `none` for `head_`. A step
of a thread is the locking or the unlocking of one mutex, or what it does to the nodes whose mutexes
it holds before the next such step. A thread that finds a mutex locked stays where it is. The
addresses that `new` returns are chosen by the run and may have been in use before.
-/

namespace HighPerformance
open FallibleRun CallHistory PipelinedPasses

structure ListNode (τ T : Type) where
  owner : Option τ := none
  data : Option T := none
  next : Option ℕ := none

/-- The function of `for_each` may write to the element. -/
inductive ListRequest (T : Type) where
  | pushFront (value : T)
  | forEach (f : T → T)
  | findFirstIf (p : T → Bool)
  | removeIf (p : T → Bool)

/-- What a call returns; for `for_each`, the elements with which it called its function. -/
inductive ListAnswer (T : Type) where
  | returned
  | visited (values : List T)
  | found (res : Option T)

/-- What a call does to a list that nobody else calls. -/
def ListRequest.perform {T : Type} : ListRequest T → List T → List T × ListAnswer T
  | .pushFront value, xs => (value :: xs, .returned)
  | .forEach f, xs => (xs.map f, .visited xs)
  | .findFirstIf p, xs => (xs, .found (xs.find? p))
  | .removeIf p, xs => (xs.filter fun x => !p x, .returned)

/-- A call that unlocks a node before it looks at the next one. -/
inductive ListWalk (T : Type) where
  | forEach (f : T → T) (visited : List T)
  | findFirstIf (p : T → Bool)

inductive ListPass (T : Type) where
  | walk (w : ListWalk T)
  | removeIf (p : T → Bool)

/-- Where a thread is: not in a call; in `push_front`, before the lock of `head_`, with the lock, and
before the unlock; in the other calls, before the lock of `head_`, with the lock of the current
place, before the lock of the next node, and after the last node before the last unlock. A walk then
unlocks the current place, looks at the next node, and may return after one more unlock. `remove_if`
tests the next node, and unlinks, unlocks and deletes it or unlocks the current place. -/
inductive ThreadsafeListPc (T : Type) where
  | idle
  | pushLock (value : T) (newNode : ℕ)
  | pushLink (value : T) (newNode : ℕ)
  | pushUnlock (value : T)
  | lockHead (k : ListPass T)
  | readNext (k : ListPass T) (current : Option ℕ)
  | lockNext (k : ListPass T) (current : Option ℕ) (next : ℕ)
  | unlockLast (k : ListPass T) (current : Option ℕ)
  | unlockCurrent (w : ListWalk T) (current : Option ℕ) (next : ℕ)
  | visit (w : ListWalk T) (next : ℕ)
  | unlockFound (p : T → Bool) (next : ℕ) (res : T)
  | test (p : T → Bool) (current : Option ℕ) (next : ℕ)
  | unlink (p : T → Bool) (current : Option ℕ) (next : ℕ)
  | unlockRemoved (p : T → Bool) (current : Option ℕ) (oldNext : ℕ)
  | delete (p : T → Bool) (current : Option ℕ) (oldNext : ℕ)
  | advance (p : T → Bool) (current : Option ℕ) (next : ℕ)

/-- The calls in the order in which they hold the lock of `head_`, and the calls that have returned
to each thread. -/
structure ThreadsafeList (τ T : Type) where
  heap : Option ℕ → Option (ListNode τ T) := Function.update (fun _ => none) none (some {})
  pc : τ → ThreadsafeListPc T := fun _ => .idle
  entered : List (τ × ListRequest T) := []
  returned : τ → List (ListRequest T × ListAnswer T) := fun _ => []

/-- A thread begins a call, for which `new` returns `address` if it is not in use, or goes on. -/
inductive ThreadsafeListAction (τ T : Type) where
  | call (thread : τ) (request : ListRequest T) (address : ℕ)
  | go (thread : τ)

inductive ThreadsafeListFault where
  | useAfterFree
  | nullDeref
  | destroyLocked
  deriving DecidableEq

namespace ListPass
variable {T : Type}

def request : ListPass T → ListRequest T
  | .walk (.forEach f _) => .forEach f
  | .walk (.findFirstIf p) => .findFirstIf p
  | .removeIf p => .removeIf p

/-- The pass has not looked at a node. -/
def Starts : ListPass T → Prop
  | .walk (.forEach _ visited) => visited = []
  | _ => True

/-- What the call returns after the last node. -/
def answer : ListPass T → ListAnswer T
  | .walk (.forEach _ visited) => .visited visited
  | .walk (.findFirstIf _) => .found none
  | .removeIf _ => .returned

end ListPass

namespace ThreadsafeList
variable {τ T : Type}

section Code
variable [DecidableEq τ]

def node (s : ThreadsafeList τ T) (place : Option ℕ) :
    Except ThreadsafeListFault (ListNode τ T) :=
  match s.heap place with
  | some n => .ok n
  | none => .error .useAfterFree

def value (n : ListNode τ T) : Except ThreadsafeListFault T :=
  match n.data with
  | some x => .ok x
  | none => .error .nullDeref

def set (s : ThreadsafeList τ T) (place : Option ℕ) (n : Option (ListNode τ T)) :
    ThreadsafeList τ T :=
  { s with heap := Function.update s.heap place n }

def goto (s : ThreadsafeList τ T) (t : τ) (pc : ThreadsafeListPc T) : ThreadsafeList τ T :=
  { s with pc := Function.update s.pc t pc }

def enter (s : ThreadsafeList τ T) (t : τ) (request : ListRequest T) : ThreadsafeList τ T :=
  { s with entered := s.entered ++ [(t, request)] }

def leave (s : ThreadsafeList τ T) (t : τ) (call : ListRequest T × ListAnswer T) :
    ThreadsafeList τ T :=
  { s.goto t .idle with returned := Function.update s.returned t (s.returned t ++ [call]) }

def call (s : ThreadsafeList τ T) (t : τ) (request : ListRequest T) (address : ℕ) :
    ThreadsafeList τ T :=
  match s.pc t, request with
  | .idle, .pushFront value =>
      if (s.heap (some address)).isSome then s
      else (s.set (some address) (some { data := some value })).goto t (.pushLock value address)
  | .idle, .forEach f => s.goto t (.lockHead (.walk (.forEach f [])))
  | .idle, .findFirstIf p => s.goto t (.lockHead (.walk (.findFirstIf p)))
  | .idle, .removeIf p => s.goto t (.lockHead (.removeIf p))
  | _, _ => s

def lock (s : ThreadsafeList τ T) (t : τ) (place : Option ℕ) (pc : ThreadsafeListPc T) :
    Except ThreadsafeListFault (ThreadsafeList τ T) := do
  let n ← s.node place
  if n.owner.isSome then return s
  else return (s.set place (some { n with owner := some t })).goto t pc

def unlock (s : ThreadsafeList τ T) (place : Option ℕ) :
    Except ThreadsafeListFault (ThreadsafeList τ T) := do
  let n ← s.node place
  return s.set place (some { n with owner := none })

def pushLink (s : ThreadsafeList τ T) (t : τ) (value : T) (newNode : ℕ) :
    Except ThreadsafeListFault (ThreadsafeList τ T) := do
  let head ← s.node none
  let n ← s.node (some newNode)
  return (((s.set (some newNode) (some { n with next := head.next })).set none
    (some { head with next := some newNode })).goto t (.pushUnlock value)).enter t (.pushFront value)

def lockHead (s : ThreadsafeList τ T) (t : τ) (k : ListPass T) :
    Except ThreadsafeListFault (ThreadsafeList τ T) := do
  let n ← s.node none
  if n.owner.isSome then return s
  else
    return ((s.set none (some { n with owner := some t })).goto t (.readNext k none)).enter t k.request

def readNext (s : ThreadsafeList τ T) (t : τ) (k : ListPass T) (current : Option ℕ) :
    Except ThreadsafeListFault (ThreadsafeList τ T) := do
  let n ← s.node current
  match n.next with
  | some next => return s.goto t (.lockNext k current next)
  | none => return s.goto t (.unlockLast k current)

def afterLock (k : ListPass T) (current : Option ℕ) (next : ℕ) : ThreadsafeListPc T :=
  match k with
  | .walk w => .unlockCurrent w current next
  | .removeIf p => .test p current next

def visit (s : ThreadsafeList τ T) (t : τ) (w : ListWalk T) (next : ℕ) :
    Except ThreadsafeListFault (ThreadsafeList τ T) := do
  let n ← s.node (some next)
  let x ← value n
  match w with
  | .forEach f visited =>
      return (s.set (some next) (some { n with data := some (f x) })).goto t
        (.readNext (.walk (.forEach f (visited ++ [x]))) (some next))
  | .findFirstIf p =>
      if p x then return s.goto t (.unlockFound p next x)
      else return s.goto t (.readNext (.walk (.findFirstIf p)) (some next))

def test (s : ThreadsafeList τ T) (t : τ) (p : T → Bool) (current : Option ℕ) (next : ℕ) :
    Except ThreadsafeListFault (ThreadsafeList τ T) := do
  let n ← s.node (some next)
  let x ← value n
  return s.goto t (if p x then .unlink p current next else .advance p current next)

def unlink (s : ThreadsafeList τ T) (t : τ) (p : T → Bool) (current : Option ℕ) (next : ℕ) :
    Except ThreadsafeListFault (ThreadsafeList τ T) := do
  let c ← s.node current
  let n ← s.node (some next)
  return ((s.set current (some { c with next := n.next })).set (some next)
    (some { n with next := none })).goto t (.unlockRemoved p current next)

def delete (s : ThreadsafeList τ T) (t : τ) (p : T → Bool) (current : Option ℕ) (oldNext : ℕ) :
    Except ThreadsafeListFault (ThreadsafeList τ T) := do
  let n ← s.node (some oldNext)
  if n.owner.isSome then .error .destroyLocked
  else return (s.set (some oldNext) none).goto t (.readNext (.removeIf p) current)

def go (s : ThreadsafeList τ T) (t : τ) : Except ThreadsafeListFault (ThreadsafeList τ T) :=
  match s.pc t with
  | .idle => .ok s
  | .pushLock value newNode => s.lock t none (.pushLink value newNode)
  | .pushLink value newNode => s.pushLink t value newNode
  | .pushUnlock value => (s.unlock none).map (·.leave t (.pushFront value, .returned))
  | .lockHead k => s.lockHead t k
  | .readNext k current => s.readNext t k current
  | .lockNext k current next => s.lock t (some next) (afterLock k current next)
  | .unlockLast k current => (s.unlock current).map (·.leave t (k.request, k.answer))
  | .unlockCurrent w current next => (s.unlock current).map (·.goto t (.visit w next))
  | .visit w next => s.visit t w next
  | .unlockFound p next res =>
      (s.unlock (some next)).map (·.leave t (.findFirstIf p, .found (some res)))
  | .test p current next => s.test t p current next
  | .unlink p current next => s.unlink t p current next
  | .unlockRemoved p current oldNext =>
      (s.unlock (some oldNext)).map (·.goto t (.delete p current oldNext))
  | .delete p current oldNext => s.delete t p current oldNext
  | .advance p current next =>
      (s.unlock current).map (·.goto t (.readNext (.removeIf p) (some next)))

def step (s : ThreadsafeList τ T) :
    ThreadsafeListAction τ T → Except ThreadsafeListFault (ThreadsafeList τ T)
  | .call t request address => .ok (s.call t request address)
  | .go t => s.go t

end Code

/-! ### The list behind the heap -/

/-- What the passes of this list do. -/
def listWalk : Walk (ListPass T) T (ListRequest T × ListAnswer T) where
  visit k x :=
    match k with
    | .walk (.forEach f visited) => (some (f x), .inl (.walk (.forEach f (visited ++ [x]))))
    | .walk (.findFirstIf p) =>
        (some x, if p x then .inr (.findFirstIf p, .found (some x)) else .inl k)
    | .removeIf p => (if p x then none else some x, .inl k)
  finish k := (k.request, k.answer)

section Heap

def ownerOf (heap : Option ℕ → Option (ListNode τ T)) : Option ℕ → Option τ :=
  (·.bind ListNode.owner) ∘ heap

def nextOf (heap : Option ℕ → Option (ListNode τ T)) : Option ℕ → Option ℕ :=
  (·.bind ListNode.next) ∘ heap

def dataOf (heap : Option ℕ → Option (ListNode τ T)) : Option ℕ → Option T :=
  (·.bind ListNode.data) ∘ heap

/-- The nodes behind a place, each with its address and its element. -/
def Chain (heap : Option ℕ → Option (ListNode τ T)) : Option ℕ → List (ℕ × T) → Prop
  | place, [] => nextOf heap place = none
  | place, (a, x) :: nodes =>
      nextOf heap place = some a ∧ dataOf heap (some a) = some x ∧ Chain heap (some a) nodes

/-- The last of the nodes behind a place, or the place. -/
def lastPlace : Option ℕ → List (ℕ × T) → Option ℕ
  | place, [] => place
  | _, e :: nodes => lastPlace (some e.1) nodes

def places (nodes : List (ℕ × T)) : List (Option ℕ) := none :: nodes.map fun e => some e.1

end Heap

end ThreadsafeList

namespace ThreadsafeListPc
variable {T : Type}

/-- The places whose mutexes the thread has locked. -/
def held : ThreadsafeListPc T → List (Option ℕ)
  | .pushLink _ _ | .pushUnlock _ => [none]
  | .readNext _ current | .lockNext _ current _ | .unlockLast _ current | .delete _ current _ =>
      [current]
  | .unlockCurrent _ current next | .test _ current next | .unlink _ current next
  | .unlockRemoved _ current next | .advance _ current next => [current, some next]
  | .visit _ next | .unlockFound _ next _ => [some next]
  | _ => []

/-- The pass of a thread that stands behind a place. -/
def behind : ThreadsafeListPc T → Option (Option ℕ × ListPass T)
  | .readNext k current | .lockNext k current _ => some (current, k)
  | .unlockCurrent w current _ => some (current, .walk w)
  | .test p current _ | .unlink p current _ | .unlockRemoved p current _ | .delete p current _
  | .advance p current _ => some (current, .removeIf p)
  | _ => none

/-- The pass of a thread that stands before a node, behind no place that it has locked. -/
def before : ThreadsafeListPc T → Option (Option ℕ × ListPass T)
  | .visit w next => some (some next, .walk w)
  | _ => none

/-- The node that no other thread can reach. -/
def unreachable : ThreadsafeListPc T → Option ℕ
  | .pushLock _ newNode | .pushLink _ newNode => some newNode
  | .unlockRemoved _ _ oldNext | .delete _ _ oldNext => some oldNext
  | _ => none

/-- The call whose answer is decided. -/
def pending : ThreadsafeListPc T → List (ListRequest T × ListAnswer T)
  | .pushUnlock value => [(.pushFront value, .returned)]
  | .unlockLast k _ => [(k.request, k.answer)]
  | .unlockFound p _ res => [(.findFirstIf p, .found (some res))]
  | _ => []

end ThreadsafeListPc

namespace ThreadsafeList
variable {τ T : Type}

/-- The pass that stands where `stand` says, if it is that of the owner of the place. -/
def passAt (s : ThreadsafeList τ T) (stand : ThreadsafeListPc T → Option (Option ℕ × ListPass T))
    (place : Option ℕ) : List (Item τ (ListPass T) T) :=
  ((ownerOf s.heap place).bind fun t =>
    ((stand (s.pc t)).filter (·.1 = place)).map fun k => Item.pass t k.2).toList

/-- A node with the passes before and behind it. -/
def segment (s : ThreadsafeList τ T) (e : ℕ × T) : List (Item τ (ListPass T) T) :=
  s.passAt ThreadsafeListPc.before (some e.1) ++
    .cell e.2 :: s.passAt ThreadsafeListPc.behind (some e.1)

def items (s : ThreadsafeList τ T) (nodes : List (ℕ × T)) : List (Item τ (ListPass T) T) :=
  s.passAt ThreadsafeListPc.behind none ++ nodes.flatMap s.segment

def told (s : ThreadsafeList τ T) (t : τ) : List (ListRequest T × ListAnswer T) :=
  s.returned t ++ (s.pc t).pending

/-- What a thread knows of the nodes that it has locked, and of the one that only it can reach. -/
def PcOk (heap : Option ℕ → Option (ListNode τ T)) (nodes : List (ℕ × T)) :
    ThreadsafeListPc T → Prop
  | .pushLock value newNode | .pushLink value newNode =>
      ownerOf heap (some newNode) = none ∧ dataOf heap (some newNode) = some value
  | .readNext _ current | .unlockLast _ current | .unlockRemoved _ current _ =>
      current ∈ places nodes
  | .delete _ current oldNext => current ∈ places nodes ∧ ownerOf heap (some oldNext) = none
  | .lockNext _ current next | .unlockCurrent _ current next | .test _ current next =>
      current ∈ places nodes ∧ nextOf heap current = some next
  | .unlink p current next => current ∈ places nodes ∧ nextOf heap current = some next ∧
      ∃ x, dataOf heap (some next) = some x ∧ p x = true
  | .advance p current next => current ∈ places nodes ∧ nextOf heap current = some next ∧
      ∃ x, dataOf heap (some next) = some x ∧ p x = false
  | .visit _ next | .unlockFound _ next _ => some next ∈ places nodes
  | .lockHead k => k.Starts
  | _ => True

structure Rep [DecidableEq τ] (s : ThreadsafeList τ T) (nodes : List (ℕ × T)) : Prop where
  head : (s.heap none).isSome
  chain : Chain s.heap none nodes
  nodup : (nodes.map Prod.fst).Nodup
  locks : ∀ place t, ownerOf s.heap place = some t ↔ place ∈ (s.pc t).held
  inUse : ∀ a, (s.heap (some a)).isSome ↔
    a ∈ nodes.map Prod.fst ∨ ∃ t, (s.pc t).unreachable = some a
  apart : ∀ t a, (s.pc t).unreachable = some a → a ∉ nodes.map Prod.fst
  alone : ∀ t u a, (s.pc t).unreachable = some a → (s.pc u).unreachable = some a → t = u
  pcOk : ∀ t, PcOk s.heap nodes (s.pc t)
  settled : Settled listWalk ListRequest.perform (s.items nodes) s.entered s.told

section Passes
variable {xs : List T} {k : ListPass T}

theorem apply_forEach (f : T → T) (visited : List T) :
    listWalk.apply (.walk (.forEach f visited)) xs =
      (xs.map f, .forEach f, .visited (visited ++ xs)) := by
  induction xs generalizing visited with
  | nil => simp [Walk.apply, listWalk, ListPass.request, ListPass.answer]
  | cons x xs ih =>
    have hvisit : listWalk.visit (.walk (.forEach f visited)) x =
        (some (f x), .inl (.walk (.forEach f (visited ++ [x])))) := rfl
    rw [Walk.apply, hvisit]
    simp [ih]

theorem apply_findFirstIf (p : T → Bool) : listWalk.apply (.walk (.findFirstIf p)) xs =
    (xs, .findFirstIf p, .found (xs.find? p)) := by
  induction xs with
  | nil => rfl
  | cons x xs ih =>
    have hvisit : listWalk.visit (.walk (.findFirstIf p)) x =
        (some x, if p x then .inr (.findFirstIf p, .found (some x))
          else .inl (.walk (.findFirstIf p))) := rfl
    rw [Walk.apply, hvisit]
    cases hp : p x with
    | true => simp [hp]
    | false => simp [hp, ih]

theorem apply_removeIf (p : T → Bool) : listWalk.apply (.removeIf p) xs =
    (xs.filter fun x => !p x, .removeIf p, .returned) := by
  induction xs with
  | nil => rfl
  | cons x xs ih =>
    have hvisit : listWalk.visit (.removeIf p) x =
        (if p x then none else some x, .inl (.removeIf p)) := rfl
    rw [Walk.apply, hvisit]
    cases hp : p x with
    | true => simp [hp, ih]
    | false => simp [hp, ih]

/-- A pass through a list that nobody else changes does what its call is for. -/
theorem apply_eq_perform (hk : k.Starts) (xs : List T) : listWalk.apply k xs =
    ((k.request.perform xs).1, k.request, (k.request.perform xs).2) := by
  cases k with
  | removeIf p => exact apply_removeIf p
  | walk w =>
    cases w with
    | findFirstIf p => exact apply_findFirstIf p
    | forEach f visited =>
      have hvisited : visited = [] := hk
      subst hvisited
      exact apply_forEach f []

end Passes

section Chains
variable {heap heap' : Option ℕ → Option (ListNode τ T)} {place current : Option ℕ}
  {nodes pre post post' : List (ℕ × T)} {a : ℕ} {x : T}

theorem ownerOf_congr (h : heap' place = heap place) : ownerOf heap' place = ownerOf heap place :=
  congrArg (·.bind ListNode.owner) h

theorem nextOf_congr (h : heap' place = heap place) : nextOf heap' place = nextOf heap place :=
  congrArg (·.bind ListNode.next) h

theorem dataOf_congr (h : heap' place = heap place) : dataOf heap' place = dataOf heap place :=
  congrArg (·.bind ListNode.data) h

theorem places_append : places (pre ++ post) = places pre ++ post.map fun e => some e.1 := by
  simp [places]

theorem mem_places_middle {b : Option ℕ} :
    b ∈ places (pre ++ (a, x) :: post) ↔ b = some a ∨ b ∈ places (pre ++ post) := by
  simp only [places_append, List.map_cons, List.mem_append, List.mem_cons]
  tauto

theorem mem_places : some a ∈ places nodes ↔ a ∈ nodes.map Prod.fst := by
  simp [places]

theorem nodup_places (h : (nodes.map Prod.fst).Nodup) : (places nodes).Nodup := by
  refine List.nodup_cons.mpr ⟨by simp, ?_⟩
  have hmap : (nodes.map fun e => some e.1) = (nodes.map Prod.fst).map some := by simp
  rw [hmap]
  exact List.Nodup.map (fun _ _ he => Option.some.inj he) h

theorem lastPlace_append : lastPlace place (pre ++ post) = lastPlace (lastPlace place pre) post := by
  induction pre generalizing place with
  | nil => rfl
  | cons e pre ih => exact ih

theorem lastPlace_mem : lastPlace place nodes ∈ place :: nodes.map fun e => some e.1 := by
  induction nodes generalizing place with
  | nil => exact List.mem_cons_self
  | cons e nodes ih => exact List.mem_cons_of_mem _ ih

theorem Chain.behind (h : Chain heap place (pre ++ post)) :
    Chain heap (lastPlace place pre) post := by
  induction pre generalizing place with
  | nil => exact h
  | cons e pre ih => exact ih h.2.2

/-- The nodes before a place of the chain and those behind it. -/
theorem Chain.split (h : Chain heap place nodes)
    (hmem : current ∈ place :: nodes.map fun e => some e.1) :
    ∃ pre post, nodes = pre ++ post ∧ lastPlace place pre = current ∧ Chain heap current post := by
  induction nodes generalizing place with
  | nil =>
    rw [List.map_nil, List.mem_singleton] at hmem
    exact ⟨[], [], rfl, hmem.symm, hmem ▸ h⟩
  | cons e nodes ih =>
    by_cases he : current = place
    · exact ⟨[], e :: nodes, rfl, he.symm, he ▸ h⟩
    · obtain ⟨pre, post, hnodes, hlast, hpost⟩ :=
        ih h.2.2 ((List.mem_cons.mp hmem).resolve_left he)
      exact ⟨e :: pre, post, congrArg (e :: ·) hnodes, hlast, hpost⟩

theorem Chain.next_some (h : Chain heap place nodes)
    (hmem : current ∈ place :: nodes.map fun e => some e.1) (hnext : nextOf heap current = some a) :
    ∃ pre x post, nodes = pre ++ (a, x) :: post ∧ lastPlace place pre = current ∧
      dataOf heap (some a) = some x ∧ Chain heap (some a) post := by
  obtain ⟨pre, post, hnodes, hlast, hpost⟩ := h.split hmem
  cases post with
  | nil => cases hnext.symm.trans hpost
  | cons e post =>
    obtain ⟨b, x⟩ := e
    obtain ⟨hb, hx, hrest⟩ := hpost
    cases hnext.symm.trans hb
    exact ⟨pre, x, post, hnodes, hlast, hx, hrest⟩

theorem Chain.next_none (h : Chain heap place nodes)
    (hmem : current ∈ place :: nodes.map fun e => some e.1) (hnext : nextOf heap current = none) :
    lastPlace place nodes = current := by
  obtain ⟨pre, post, hnodes, hlast, hpost⟩ := h.split hmem
  cases post with
  | nil => rw [hnodes, List.append_nil, hlast]
  | cons e post => cases hnext.symm.trans hpost.1

/-- What is behind the last of the nodes in front may be replaced. -/
theorem Chain.replace (h : Chain heap place (pre ++ post))
    (hnodup : (place :: pre.map fun e => some e.1).Nodup)
    (hnext : ∀ b ∈ place :: pre.map (fun e => some e.1), b ≠ lastPlace place pre →
      nextOf heap' b = nextOf heap b)
    (hdata : ∀ e ∈ pre, dataOf heap' (some e.1) = dataOf heap (some e.1))
    (hpost : Chain heap' (lastPlace place pre) post') : Chain heap' place (pre ++ post') := by
  induction pre generalizing place with
  | nil => exact hpost
  | cons e pre ih =>
    obtain ⟨hb, hx, hrest⟩ := h
    have hne : place ≠ lastPlace (some e.1) pre := by
      intro he
      exact (List.nodup_cons.mp hnodup).1 (he ▸ lastPlace_mem)
    refine ⟨(hnext place List.mem_cons_self hne).trans hb,
      (hdata e List.mem_cons_self).trans hx, ?_⟩
    refine ih hrest (List.nodup_cons.mp hnodup).2 ?_ ?_ hpost
    · intro b hb hbl
      exact hnext b (List.mem_cons_of_mem _ hb) hbl
    · intro e he
      exact hdata e (List.mem_cons_of_mem _ he)

theorem Chain.shift (h : Chain heap place nodes) (hplace : nextOf heap' current = nextOf heap place)
    (hnext : ∀ e ∈ nodes, nextOf heap' (some e.1) = nextOf heap (some e.1))
    (hdata : ∀ e ∈ nodes, dataOf heap' (some e.1) = dataOf heap (some e.1)) :
    Chain heap' current nodes := by
  induction nodes generalizing place current with
  | nil => exact hplace.trans h
  | cons e nodes ih =>
    obtain ⟨hb, hx, hrest⟩ := h
    refine ⟨hplace.trans hb, (hdata e List.mem_cons_self).trans hx, ?_⟩
    refine ih hrest (hnext e List.mem_cons_self) ?_ ?_
    · intro e he
      exact hnext e (List.mem_cons_of_mem _ he)
    · intro e he
      exact hdata e (List.mem_cons_of_mem _ he)

theorem Chain.congr (h : Chain heap place nodes) (hnext : ∀ b, nextOf heap' b = nextOf heap b)
    (hdata : ∀ b, dataOf heap' b = dataOf heap b) : Chain heap' place nodes :=
  h.shift (hnext place) (fun _ _ => hnext _) fun _ _ => hdata _

theorem Chain.edit {y : T} (h : Chain heap place (pre ++ (a, x) :: post))
    (hnodup : ((pre ++ (a, x) :: post).map Prod.fst).Nodup)
    (hnext : ∀ b, nextOf heap' b = nextOf heap b)
    (hdata : ∀ b, b ≠ some a → dataOf heap' b = dataOf heap b)
    (hy : dataOf heap' (some a) = some y) : Chain heap' place (pre ++ (a, y) :: post) := by
  induction pre generalizing place with
  | nil =>
    obtain ⟨hb, -, hrest⟩ := h
    refine ⟨(hnext place).trans hb, hy, hrest.shift (hnext _) (fun _ _ => hnext _) ?_⟩
    intro e he
    refine hdata _ ?_
    intro hea
    exact (List.nodup_cons.mp hnodup).1 (List.mem_map.mpr ⟨e, he, Option.some.inj hea⟩)
  | cons e pre ih =>
    obtain ⟨hb, hx, hrest⟩ := h
    have hne : some e.1 ≠ some a := by
      intro hea
      rw [Option.some.injEq] at hea
      exact (List.nodup_cons.mp hnodup).1 (by simp [hea])
    exact ⟨(hnext place).trans hb, (hdata _ hne).trans hx, ih hrest (List.nodup_cons.mp hnodup).2⟩

section Replaced
variable {n m : ListNode τ T} {b : Option ℕ}

theorem owner_eq (hn : heap place = some n) : ownerOf heap place = n.owner := by
  rw [ownerOf, Function.comp_apply, hn]
  rfl

theorem next_eq (hn : heap place = some n) : nextOf heap place = n.next := by
  rw [nextOf, Function.comp_apply, hn]
  rfl

theorem data_eq (hn : heap place = some n) : dataOf heap place = n.data := by
  rw [dataOf, Function.comp_apply, hn]
  rfl

theorem ownerOf_set (hheap : heap' = Function.update heap place (some m)) :
    ownerOf heap' b = if b = place then m.owner else ownerOf heap b := by
  by_cases hb : b = place
  · rw [hb, if_pos rfl]
    exact owner_eq (by rw [hheap, Function.update_self])
  · rw [if_neg hb]
    exact ownerOf_congr (by rw [hheap, Function.update_of_ne hb])

theorem nextOf_set (hheap : heap' = Function.update heap place (some m)) :
    nextOf heap' b = if b = place then m.next else nextOf heap b := by
  by_cases hb : b = place
  · rw [hb, if_pos rfl]
    exact next_eq (by rw [hheap, Function.update_self])
  · rw [if_neg hb]
    exact nextOf_congr (by rw [hheap, Function.update_of_ne hb])

theorem dataOf_set (hheap : heap' = Function.update heap place (some m)) :
    dataOf heap' b = if b = place then m.data else dataOf heap b := by
  by_cases hb : b = place
  · rw [hb, if_pos rfl]
    exact data_eq (by rw [hheap, Function.update_self])
  · rw [if_neg hb]
    exact dataOf_congr (by rw [hheap, Function.update_of_ne hb])

theorem isSome_set (hn : heap place = some n) (hheap : heap' = Function.update heap place (some m)) :
    (heap' b).isSome = (heap b).isSome := by
  rw [hheap]
  by_cases hb : b = place
  · rw [hb, Function.update_self, hn]
    rfl
  · rw [Function.update_of_ne hb]

/-- Where a node is replaced by one with the same owner, no owner changes. -/
theorem ownerOf_same (hn : heap place = some n)
    (hheap : heap' = Function.update heap place (some m)) (h : m.owner = n.owner) :
    ownerOf heap' b = ownerOf heap b := by
  rw [ownerOf_set hheap, h, ← owner_eq hn]
  by_cases hb : b = place
  · rw [if_pos hb, hb]
  · rw [if_neg hb]

theorem nextOf_same (hn : heap place = some n)
    (hheap : heap' = Function.update heap place (some m)) (h : m.next = n.next) :
    nextOf heap' b = nextOf heap b := by
  rw [nextOf_set hheap, h, ← next_eq hn]
  by_cases hb : b = place
  · rw [if_pos hb, hb]
  · rw [if_neg hb]

theorem dataOf_same (hn : heap place = some n)
    (hheap : heap' = Function.update heap place (some m)) (h : m.data = n.data) :
    dataOf heap' b = dataOf heap b := by
  rw [dataOf_set hheap, h, ← data_eq hn]
  by_cases hb : b = place
  · rw [if_pos hb, hb]
  · rw [if_neg hb]

end Replaced

/-- The node at `a`, which is next to `current`, has been taken out. -/
structure Cut (heap heap' : Option ℕ → Option (ListNode τ T)) (current : Option ℕ) (a : ℕ) :
    Prop where
  owner : ∀ b, ownerOf heap' b = ownerOf heap b
  data : ∀ b, dataOf heap' b = dataOf heap b
  inUse : ∀ b, (heap' b).isSome = (heap b).isSome
  others : ∀ b, b ≠ current → b ≠ some a → nextOf heap' b = nextOf heap b
  link : nextOf heap' current = nextOf heap (some a)

theorem cut_of_set {c n : ListNode τ T} (hne : current ≠ some a) (hc : heap current = some c)
    (hn : heap (some a) = some n)
    (hheap : heap' = Function.update (Function.update heap current
      (some { c with next := n.next })) (some a) (some { n with next := none })) :
    Cut heap heap' current a := by
  have hn' : (Function.update heap current (some { c with next := n.next })) (some a) = some n := by
    rw [Function.update_of_ne hne.symm, hn]
  constructor
  · exact fun _ => (ownerOf_same hn' hheap rfl).trans (ownerOf_same hc rfl rfl)
  · exact fun _ => (dataOf_same hn' hheap rfl).trans (dataOf_same hc rfl rfl)
  · exact fun _ => (isSome_set hn' hheap).trans (isSome_set hc rfl)
  · intro b hbc hba
    rw [nextOf_set hheap, if_neg hba, nextOf_set rfl, if_neg hbc]
  · rw [nextOf_set hheap, if_neg hne, nextOf_set rfl, if_pos rfl, next_eq hn]

theorem Cut.chain (hcut : Cut heap heap' current a) (h : Chain heap none (pre ++ (a, x) :: post))
    (hpost : Chain heap (some a) post) (hlast : lastPlace none pre = current)
    (hnodup : ((pre ++ (a, x) :: post).map Prod.fst).Nodup) : Chain heap' none (pre ++ post) := by
  have hall := nodup_places hnodup
  rw [places_append, List.map_cons, List.nodup_append, List.nodup_cons] at hall
  obtain ⟨hpre, ⟨haPost, -⟩, hdisjoint⟩ := hall
  refine h.replace hpre ?_ (fun e _ => hcut.data _) ?_
  · intro b hb hbl
    exact hcut.others b (hlast ▸ hbl) (hdisjoint b hb (some a) List.mem_cons_self)
  · rw [hlast]
    refine hpost.shift hcut.link ?_ (fun e _ => hcut.data _)
    intro e he
    have hmem : some e.1 ∈ post.map fun e => some e.1 := List.mem_map_of_mem he
    refine hcut.others _ ?_ ?_
    · intro hec
      exact hdisjoint current (hlast ▸ lastPlace_mem) _ (List.mem_cons_of_mem _ hmem) hec.symm
    · intro hea
      exact haPost (hea ▸ hmem)

end Chains

section Items
variable {s s' : ThreadsafeList τ T} {nodes pre post : List (ℕ × T)} {place : Option ℕ} {t : τ}
  {stand : ThreadsafeListPc T → Option (Option ℕ × ListPass T)} {k : ListPass T}

theorem passAt_free (h : ownerOf s.heap place = none) : s.passAt stand place = [] := by
  simp [passAt, h]

theorem passAt_here (h : ownerOf s.heap place = some t) (hs : stand (s.pc t) = some (place, k)) :
    s.passAt stand place = [.pass t k] := by
  simp [passAt, h, hs]

theorem passAt_elsewhere (h : ownerOf s.heap place = some t)
    (hs : ∀ k, stand (s.pc t) ≠ some (place, k)) : s.passAt stand place = [] := by
  unfold passAt
  rw [h, Option.bind_some]
  cases hst : stand (s.pc t) with
  | none => rfl
  | some x =>
    have hne : x.1 ≠ place := fun he => hs x.2 (by rw [hst, ← he])
    rw [Option.filter_some_neg (by simpa using hne)]
    rfl

/-- The pass at a place is seen from the place and its owner. -/
theorem passAt_congr (howner : ownerOf s'.heap place = ownerOf s.heap place)
    (hpc : ∀ u, ownerOf s.heap place = some u → stand (s'.pc u) = stand (s.pc u)) :
    s'.passAt stand place = s.passAt stand place := by
  unfold passAt
  rw [howner]
  cases ho : ownerOf s.heap place with
  | none => rfl
  | some u => rw [Option.bind_some, Option.bind_some, hpc u ho]

theorem thread_of_mem_walkers (h : t ∈ walkers (s.passAt stand place)) :
    ∃ k, stand (s.pc t) = some (place, k) := by
  unfold passAt at h
  cases ho : ownerOf s.heap place with
  | none => simp [ho, walkers] at h
  | some u =>
    rw [ho, Option.bind_some] at h
    cases hst : stand (s.pc u) with
    | none => simp [hst, walkers] at h
    | some x =>
      by_cases hx : x.1 = place
      · rw [hst, Option.filter_some_pos (by simpa using hx)] at h
        obtain rfl : t = u := by simpa [walkers] using h
        exact ⟨x.2, by rw [hst, ← hx]⟩
      · rw [hst, Option.filter_some_neg (by simpa using hx)] at h
        simp [walkers] at h

theorem not_mem_walkers (hbehind : (s.pc t).behind = none) (hbefore : (s.pc t).before = none) :
    t ∉ walkers (s.items nodes) := by
  have hno : ∀ stand : ThreadsafeListPc T → Option (Option ℕ × ListPass T),
      stand (s.pc t) = none → ∀ place, t ∉ walkers (s.passAt stand place) := by
    intro stand hstand place hmem
    obtain ⟨k, hk⟩ := thread_of_mem_walkers hmem
    rw [hstand] at hk
    cases hk
  rw [items, walkers_append, List.mem_append, not_or]
  refine ⟨hno _ hbehind _, ?_⟩
  induction nodes with
  | nil => simp [walkers]
  | cons e nodes ih =>
    rw [List.flatMap_cons, walkers_append, segment, walkers_append]
    simp only [List.mem_append, not_or, walkers]
    exact ⟨⟨hno _ hbefore _, hno _ hbehind _⟩, ih⟩

theorem segment_congr {e : ℕ × T}
    (hbefore : s'.passAt ThreadsafeListPc.before (some e.1) =
      s.passAt ThreadsafeListPc.before (some e.1))
    (hbehind : s'.passAt ThreadsafeListPc.behind (some e.1) =
      s.passAt ThreadsafeListPc.behind (some e.1)) : s'.segment e = s.segment e := by
  rw [segment, segment, hbefore, hbehind]

theorem flatMap_congr (h : ∀ e ∈ nodes, s'.segment e = s.segment e) :
    nodes.flatMap s'.segment = nodes.flatMap s.segment := by
  induction nodes with
  | nil => rfl
  | cons e nodes ih =>
    rw [List.flatMap_cons, List.flatMap_cons, h e List.mem_cons_self,
      ih fun e he => h e (List.mem_cons_of_mem _ he)]

/-- A mutex changes hands between nobody and a thread that does not stand there. -/
theorem passAt_reown {b : Option ℕ} (hother : ∀ u ≠ t, s'.pc u = s.pc u)
    (howner : b ≠ place → ownerOf s'.heap b = ownerOf s.heap b)
    (hold : ownerOf s.heap place = none ∨ ownerOf s.heap place = some t)
    (hnew : ownerOf s'.heap place = none ∨ ownerOf s'.heap place = some t)
    (hstand : stand (s'.pc t) = stand (s.pc t)) (hno : ∀ k, stand (s.pc t) ≠ some (place, k)) :
    s'.passAt stand b = s.passAt stand b := by
  by_cases hb : b = place
  · subst hb
    have hbefore : s.passAt stand b = [] := by
      rcases hold with hold | hold
      · exact passAt_free hold
      · exact passAt_elsewhere hold hno
    have hafter : s'.passAt stand b = [] := by
      rcases hnew with hnew | hnew
      · exact passAt_free hnew
      · refine passAt_elsewhere hnew ?_
        rw [hstand]
        exact hno
    rw [hbefore, hafter]
  · refine passAt_congr (howner hb) ?_
    intro u _
    by_cases hu : u = t
    · rw [hu, hstand]
    · rw [hother u hu]

theorem passAt_of_not_owned {b : Option ℕ} (hother : ∀ u ≠ t, s'.pc u = s.pc u)
    (howner : ownerOf s'.heap b = ownerOf s.heap b) (hne : ownerOf s.heap b ≠ some t) :
    s'.passAt stand b = s.passAt stand b := by
  refine passAt_congr howner ?_
  intro u hu
  rw [hother u]
  rintro rfl
  exact hne hu

theorem items_congr
    (hbehind : ∀ b, s'.passAt ThreadsafeListPc.behind b = s.passAt ThreadsafeListPc.behind b)
    (hbefore : ∀ b, s'.passAt ThreadsafeListPc.before b = s.passAt ThreadsafeListPc.before b) :
    s'.items nodes = s.items nodes := by
  rw [items, items, hbehind, flatMap_congr fun e _ => segment_congr (hbefore _) (hbehind _)]

/-- Up to the last of the nodes in front, two states have the same items if they have the same passes
there. -/
theorem items_split (s s' : ThreadsafeList τ T) (hnodup : (places pre).Nodup)
    (hbehind : ∀ b ∈ places pre, b ≠ lastPlace none pre →
      s'.passAt ThreadsafeListPc.behind b = s.passAt ThreadsafeListPc.behind b)
    (hbefore : ∀ e ∈ pre, s'.passAt ThreadsafeListPc.before (some e.1) =
      s.passAt ThreadsafeListPc.before (some e.1)) :
    ∃ front, (∀ post, s.items (pre ++ post) =
        front ++ (s.passAt ThreadsafeListPc.behind (lastPlace none pre) ++
          post.flatMap s.segment)) ∧
      ∀ post, s'.items (pre ++ post) =
        front ++ (s'.passAt ThreadsafeListPc.behind (lastPlace none pre) ++
          post.flatMap s'.segment) := by
  rcases List.eq_nil_or_concat pre with rfl | ⟨pre, e, rfl⟩
  · exact ⟨[], fun post => rfl, fun post => rfl⟩
  · rw [List.concat_eq_append] at hnodup hbehind hbefore ⊢
    have hlast : lastPlace none (pre ++ [e]) = some e.1 := lastPlace_append
    rw [hlast] at hbehind ⊢
    have hne : ∀ b ∈ places pre, b ≠ some e.1 := by
      intro b hb hbe
      rw [places_append] at hnodup
      exact (List.nodup_append.mp hnodup).2.2 b hb (some e.1) (by simp) hbe
    have hsegment : ∀ d ∈ pre, s'.segment d = s.segment d := by
      intro d hd
      have hmem : some d.1 ∈ places pre := mem_places.mpr (List.mem_map_of_mem hd)
      refine segment_congr (hbefore d (List.mem_append_left _ hd)) ?_
      exact hbehind _ (by rw [places_append]; exact List.mem_append_left _ hmem) (hne _ hmem)
    have hhead := hbehind none (by simp [places]) (by simp)
    have hlastBefore := hbefore e (by simp)
    refine ⟨s.passAt ThreadsafeListPc.behind none ++ (pre.flatMap s.segment ++
      (s.passAt ThreadsafeListPc.before (some e.1) ++ [.cell e.2])), ?_, ?_⟩
    · intro post
      simp [items, segment]
    · intro post
      rw [← hhead, ← flatMap_congr hsegment, ← hlastBefore]
      simp [items, segment]

theorem items_of_goto (hother : ∀ u ≠ t, s'.pc u = s.pc u)
    (howner : ∀ b, ownerOf s'.heap b = ownerOf s.heap b)
    (hbehind : (s'.pc t).behind = (s.pc t).behind) (hbefore : (s'.pc t).before = (s.pc t).before) :
    s'.items nodes = s.items nodes := by
  have hsame : ∀ stand : ThreadsafeListPc T → Option (Option ℕ × ListPass T),
      stand (s'.pc t) = stand (s.pc t) → ∀ b, s'.passAt stand b = s.passAt stand b := by
    intro stand hstand b
    refine passAt_congr (howner b) ?_
    intro u _
    by_cases hu : u = t
    · rw [hu, hstand]
    · rw [hother u hu]
  exact items_congr (hsame _ hbehind) (hsame _ hbefore)

theorem items_of_reown (hother : ∀ u ≠ t, s'.pc u = s.pc u)
    (howner : ∀ b, b ≠ place → ownerOf s'.heap b = ownerOf s.heap b)
    (hold : ownerOf s.heap place = none ∨ ownerOf s.heap place = some t)
    (hnew : ownerOf s'.heap place = none ∨ ownerOf s'.heap place = some t)
    (hbehind : (s'.pc t).behind = (s.pc t).behind) (hbefore : (s'.pc t).before = (s.pc t).before)
    (hno : ∀ k, (s.pc t).behind ≠ some (place, k)) (hno' : ∀ k, (s.pc t).before ≠ some (place, k)) :
    s'.items nodes = s.items nodes :=
  items_congr (fun b => passAt_reown hother (howner b) hold hnew hbehind hno)
    fun b => passAt_reown hother (howner b) hold hnew hbefore hno'

/-- The items around a node and the place before it; thread `t` has locked no other place. -/
theorem items_around {current : Option ℕ} {a : ℕ} {x : T} (hother : ∀ u ≠ t, s'.pc u = s.pc u)
    (hnodup : (places (pre ++ (a, x) :: post)).Nodup) (hlast : lastPlace none pre = current)
    (howner : ∀ b, b ≠ current → b ≠ some a →
      ownerOf s'.heap b = ownerOf s.heap b ∧ ownerOf s.heap b ≠ some t)
    (hbefore : s'.passAt ThreadsafeListPc.before current = s.passAt ThreadsafeListPc.before current) :
    ∃ front rest, s.items (pre ++ (a, x) :: post) =
        front ++ (s.passAt ThreadsafeListPc.behind current ++
          (s.passAt ThreadsafeListPc.before (some a) ++
            .cell x :: (s.passAt ThreadsafeListPc.behind (some a) ++ rest))) ∧
      (∀ y, s'.items (pre ++ (a, y) :: post) =
        front ++ (s'.passAt ThreadsafeListPc.behind current ++
          (s'.passAt ThreadsafeListPc.before (some a) ++
            .cell y :: (s'.passAt ThreadsafeListPc.behind (some a) ++ rest)))) ∧
      s'.items (pre ++ post) = front ++ (s'.passAt ThreadsafeListPc.behind current ++ rest) := by
  rw [places_append, List.map_cons, List.nodup_append, List.nodup_cons] at hnodup
  obtain ⟨hpre, ⟨ha, -⟩, hdisjoint⟩ := hnodup
  have hcurrent : current ∈ places pre := hlast ▸ lastPlace_mem
  have hsame : ∀ stand : ThreadsafeListPc T → Option (Option ℕ × ListPass T), ∀ b,
      b ≠ current → b ≠ some a → s'.passAt stand b = s.passAt stand b := by
    intro stand b hbc hba
    exact passAt_of_not_owned hother (howner b hbc hba).1 (howner b hbc hba).2
  have hpost : ∀ e ∈ post, s'.segment e = s.segment e := by
    intro e he
    have hmem : some e.1 ∈ post.map fun e => some e.1 := List.mem_map_of_mem he
    have hec : some e.1 ≠ current := by
      intro hc
      exact hdisjoint current hcurrent (some e.1) (List.mem_cons_of_mem _ hmem) hc.symm
    have hea : some e.1 ≠ some a := fun hc => ha (hc ▸ hmem)
    exact segment_congr (hsame _ _ hec hea) (hsame _ _ hec hea)
  have hfront : ∀ b ∈ places pre, b ≠ some a := by
    intro b hb
    exact hdisjoint b hb (some a) List.mem_cons_self
  obtain ⟨front, hitems, hitems'⟩ := items_split s s' hpre
    (fun b hb hbl => hsame _ b (hlast ▸ hbl) (hfront b hb)) (by
      intro e he
      have hmem : some e.1 ∈ places pre := mem_places.mpr (List.mem_map_of_mem he)
      by_cases hec : some e.1 = current
      · rw [hec, hbefore]
      · exact hsame _ _ hec (hfront _ hmem))
  rw [hlast] at hitems hitems'
  refine ⟨front, post.flatMap s.segment, ?_, ?_, ?_⟩
  · rw [hitems]
    simp [segment]
  · intro y
    rw [hitems', List.flatMap_cons, flatMap_congr hpost]
    simp [segment]
  · rw [hitems', flatMap_congr hpost]

end Items

end ThreadsafeList
end HighPerformance
