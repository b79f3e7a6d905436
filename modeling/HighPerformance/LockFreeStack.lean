import HighPerformance.CallHistory
import HighPerformance.FallibleRun
import HighPerformance.HazardPointer
import Mathlib.Logic.Function.Basic

/-!
# The lock-free stack with hazard pointers

`LockFreeStack` of `hazard_pointer.cpp`, whose scan is in `HazardPointer`, under its threads. A step of
a thread is one access to an atomic variable or to a node, an allocation, or one turn of the loop of a
scan; all atomic accesses are sequentially consistent. An exchange in `push` may fail without a reason.
The addresses that `new` returns are chosen by the run and may have been in use before.

A pointer that a scan has deleted is not valid again when `new` returns its address for another node.
-/

namespace HighPerformance
open FallibleRun CallHistory HazardPointer

structure LockFreeStackNode where
  next : Option ℕ := none
  data : ℤ
  deriving DecidableEq

/-- A call that has returned; `pop` returns `false` in the last two cases, that of an empty stack and
that of a lost exchange. -/
inductive LockFreeStackCall where
  | push (value : ℤ)
  | pop (value : ℤ)
  | popEmpty
  | popFailed
  deriving DecidableEq

/-- What a call does to a stack that nobody else calls, the top first. -/
inductive LockFreeStackCall.Effect : List ℤ → LockFreeStackCall → List ℤ → Prop where
  | push (x : ℤ) (contents : List ℤ) : Effect contents (.push x) (x :: contents)
  | pop (x : ℤ) (contents : List ℤ) : Effect (x :: contents) (.pop x) contents
  | popEmpty : Effect [] .popEmpty []
  | popFailed (contents : List ℤ) : Effect contents .popFailed contents

/-- With what a `pop` releases its hazard pointer. -/
inductive PopResult where
  | empty
  | failed
  | popped (node : ℕ) (value : ℤ)

/-- Where a thread is: not in a call; in `push`, before the load of `head` and before the exchange; in
`pop`, in the loop of `acquire_hp`, before the load of `head`, before the store of the hazard pointer,
before the second load of `head`, before the load of the next node, before the exchange, before the
load of the data, before the two stores of `release_hp`, before the end of `retire_node`; in `scan`,
before the load of a hazard pointer, and in the loop over the retired nodes. -/
inductive LockFreeStackPc where
  | idle
  | pushLoad (value : ℤ) (newNode : ℕ)
  | pushCas (value : ℤ) (newNode : ℕ)
  | acquire (i : ℕ)
  | popLoad (hp : ℕ)
  | protect (hp : ℕ) (oldHead : Option ℕ)
  | validate (hp : ℕ) (oldHead : Option ℕ)
  | loadNext (hp oldHead : ℕ)
  | popCas (hp oldHead : ℕ) (next : Option ℕ)
  | loadData (hp oldHead : ℕ)
  | clearPointer (hp : ℕ) (res : PopResult)
  | clearActive (hp : ℕ) (res : PopResult)
  | retire (node : ℕ) (value : ℤ)
  | collect (i : ℕ) (protectedPtrs : List ℕ) (value : ℤ)
  | sweep (protectedPtrs kept rest toDelete deleted : List ℕ) (value : ℤ)

abbrev ThreadId := Fin threads

/-- The calls in the order in which they take effect, and the calls that have returned to each
thread. -/
structure LockFreeStack where
  heap : ℕ → Option LockFreeStackNode := fun _ => none
  head : Option ℕ := none
  hpList : Table := fun _ => none
  active : ℕ → Bool := fun _ => false
  retiredList : ThreadId → List ℕ := fun _ => []
  pc : ThreadId → LockFreeStackPc := fun _ => .idle
  calls : List (ThreadId × LockFreeStackCall) := []
  returned : ThreadId → List LockFreeStackCall := fun _ => []

/-- A thread begins a call, the first for which `new` returns `address` if it is not in use, or goes
on. -/
inductive LockFreeStackAction where
  | push (thread : ThreadId) (value : ℤ) (address : ℕ)
  | pop (thread : ThreadId)
  | go (thread : ThreadId) (spurious : Bool)

inductive LockFreeStackFault where
  | useAfterFree
  | doubleFree
  deriving DecidableEq

namespace LockFreeStack

/-- The first of the thread's hazard pointers. -/
def slot (t : ThreadId) : ℕ := t.val * hpMax

def node (s : LockFreeStack) (a : ℕ) : Except LockFreeStackFault LockFreeStackNode :=
  match s.heap a with
  | some n => .ok n
  | none => .error .useAfterFree

def set (s : LockFreeStack) (a : ℕ) (n : Option LockFreeStackNode) : LockFreeStack :=
  { s with heap := Function.update s.heap a n }

def goto (s : LockFreeStack) (t : ThreadId) (pc : LockFreeStackPc) : LockFreeStack :=
  { s with pc := Function.update s.pc t pc }

/-- The call takes effect. -/
def enter (s : LockFreeStack) (t : ThreadId) (call : LockFreeStackCall) : LockFreeStack :=
  { s with calls := s.calls ++ [(t, call)] }

def leave (s : LockFreeStack) (t : ThreadId) (call : LockFreeStackCall) : LockFreeStack :=
  { s.goto t .idle with returned := Function.update s.returned t (s.returned t ++ [call]) }

def retires (s : LockFreeStack) (t : ThreadId) (nodes : List ℕ) : LockFreeStack :=
  { s with retiredList := Function.update s.retiredList t nodes }

def push (s : LockFreeStack) (t : ThreadId) (value : ℤ) (address : ℕ) : LockFreeStack :=
  match s.pc t with
  | .idle =>
      if (s.heap address).isSome then s
      else (s.set address (some { data := value })).goto t (.pushLoad value address)
  | _ => s

def pop (s : LockFreeStack) (t : ThreadId) : LockFreeStack :=
  match s.pc t with
  | .idle => s.goto t (.acquire 0)
  | _ => s

def pushLoad (s : LockFreeStack) (t : ThreadId) (value : ℤ) (newNode : ℕ) :
    Except LockFreeStackFault LockFreeStack := do
  let n ← s.node newNode
  return (s.set newNode (some { n with next := s.head })).goto t (.pushCas value newNode)

def pushCas (s : LockFreeStack) (t : ThreadId) (value : ℤ) (newNode : ℕ) (spurious : Bool) :
    Except LockFreeStackFault LockFreeStack := do
  let n ← s.node newNode
  if s.head = n.next ∧ spurious = false then
    return ({ s with head := some newNode }.enter t (.push value)).leave t (.push value)
  else return s.set newNode (some { n with next := s.head })

def acquire (s : LockFreeStack) (t : ThreadId) (i : ℕ) : LockFreeStack :=
  if i < hpMax then
    if s.active (slot t + i) then s.goto t (.acquire (i + 1))
    else { s.goto t (.popLoad (slot t + i)) with active := Function.update s.active (slot t + i) true }
  else (s.enter t .popFailed).leave t .popFailed

def validate (s : LockFreeStack) (t : ThreadId) (hp : ℕ) (oldHead : Option ℕ) : LockFreeStack :=
  if oldHead = s.head then
    match oldHead with
    | some a => s.goto t (.loadNext hp a)
    | none => (s.goto t (.clearPointer hp .empty)).enter t .popEmpty
  else s.goto t (.popLoad hp)

def loadNext (s : LockFreeStack) (t : ThreadId) (hp oldHead : ℕ) :
    Except LockFreeStackFault LockFreeStack := do
  let n ← s.node oldHead
  return s.goto t (.popCas hp oldHead n.next)

/-- The exchange. The call that takes effect is recorded with the data of the node, which is loaded
later. -/
def popCas (s : LockFreeStack) (t : ThreadId) (hp oldHead : ℕ) (next : Option ℕ) : LockFreeStack :=
  if s.head = some oldHead then
    { s with head := next, pc := Function.update s.pc t (.loadData hp oldHead),
             calls := s.calls ++ ((s.heap oldHead).map fun n => (t, .pop n.data)).toList }
  else (s.goto t (.clearPointer hp .failed)).enter t .popFailed

def loadData (s : LockFreeStack) (t : ThreadId) (hp oldHead : ℕ) :
    Except LockFreeStackFault LockFreeStack := do
  let n ← s.node oldHead
  return s.goto t (.clearPointer hp (.popped oldHead n.data))

def clearActive (s : LockFreeStack) (t : ThreadId) (hp : ℕ) (res : PopResult) : LockFreeStack :=
  let s' := { s with active := Function.update s.active hp false }
  match res with
  | .empty => s'.leave t .popEmpty
  | .failed => s'.leave t .popFailed
  | .popped node value => s'.goto t (.retire node value)

def retire (s : LockFreeStack) (t : ThreadId) (node : ℕ) (value : ℤ) : LockFreeStack :=
  let s' := s.retires t (s.retiredList t ++ [node])
  if retireThreshold ≤ (s'.retiredList t).length then s'.goto t (.collect 0 [] value)
  else s'.leave t (.pop value)

def collect (s : LockFreeStack) (t : ThreadId) (i : ℕ) (protectedPtrs : List ℕ) (value : ℤ) :
    LockFreeStack :=
  if i < threads * hpMax then
    s.goto t (.collect (i + 1) (protectedPtrs ++ (s.hpList i).toList) value)
  else s.goto t (.sweep protectedPtrs [] (s.retiredList t) [] [] value)

/-- One turn of the loop that deletes. -/
def deleteNode (x : LockFreeStack × List ℕ) (p : ℕ) :
    Except LockFreeStackFault (LockFreeStack × List ℕ) :=
  if p ∈ x.2 ∨ x.1.heap p = none then .error .doubleFree
  else .ok (x.1.set p none, x.2 ++ [p])

def sweep (s : LockFreeStack) (t : ThreadId) (protectedPtrs kept rest toDelete deleted : List ℕ)
    (value : ℤ) : Except LockFreeStackFault LockFreeStack :=
  match rest with
  | [] => .ok (s.leave t (.pop value))
  | p :: rest =>
      if p ∈ protectedPtrs then do
        let x ← toDelete.foldlM deleteNode (s, deleted)
        return x.1.goto t (.sweep protectedPtrs (kept ++ [p]) rest toDelete x.2 value)
      else do
        let x ← (toDelete ++ [p]).foldlM deleteNode (s.retires t (kept ++ rest), deleted)
        return x.1.goto t (.sweep protectedPtrs kept rest (toDelete ++ [p]) x.2 value)

def go (s : LockFreeStack) (t : ThreadId) (spurious : Bool) :
    Except LockFreeStackFault LockFreeStack :=
  match s.pc t with
  | .idle => .ok s
  | .pushLoad value newNode => s.pushLoad t value newNode
  | .pushCas value newNode => s.pushCas t value newNode spurious
  | .acquire i => .ok (s.acquire t i)
  | .popLoad hp => .ok (s.goto t (.protect hp s.head))
  | .protect hp oldHead =>
      .ok { s.goto t (.validate hp oldHead) with hpList := Function.update s.hpList hp oldHead }
  | .validate hp oldHead => .ok (s.validate t hp oldHead)
  | .loadNext hp oldHead => s.loadNext t hp oldHead
  | .popCas hp oldHead next => .ok (s.popCas t hp oldHead next)
  | .loadData hp oldHead => s.loadData t hp oldHead
  | .clearPointer hp res =>
      .ok { s.goto t (.clearActive hp res) with hpList := Function.update s.hpList hp none }
  | .clearActive hp res => .ok (s.clearActive t hp res)
  | .retire node value => .ok (s.retire t node value)
  | .collect i protectedPtrs value => .ok (s.collect t i protectedPtrs value)
  | .sweep protectedPtrs kept rest toDelete deleted value =>
      s.sweep t protectedPtrs kept rest toDelete deleted value

def step (s : LockFreeStack) : LockFreeStackAction → Except LockFreeStackFault LockFreeStack
  | .push t value address => .ok (s.push t value address)
  | .pop t => .ok (s.pop t)
  | .go t spurious => s.go t spurious

end LockFreeStack

/-! ### What holds between the steps -/

def LockFreeStackCall.isPop : LockFreeStackCall → Bool
  | .pop _ => true
  | _ => false

/-- How many elements the calls have taken. -/
def taken (calls : List LockFreeStackCall) : ℕ := calls.countP LockFreeStackCall.isPop

def PopResult.call : PopResult → LockFreeStackCall
  | .empty => .popEmpty
  | .failed => .popFailed
  | .popped _ value => .pop value

def PopResult.node : PopResult → Option ℕ
  | .popped node _ => some node
  | _ => none

namespace LockFreeStackPc

/-- The node of a `push` that is not in the stack yet. -/
def fresh : LockFreeStackPc → Option ℕ
  | .pushLoad _ a | .pushCas _ a => some a
  | _ => none

/-- The node of a `push` that is not in the stack yet, or of a `pop` that is out of it and not
retired. -/
def own : LockFreeStackPc → Option ℕ
  | .pushLoad _ a | .pushCas _ a | .loadData _ a | .retire a _ => some a
  | .clearPointer _ res | .clearActive _ res => res.node
  | _ => none

/-- The node that a `pop` has protected, and may still have to use. -/
def guard : LockFreeStackPc → Option ℕ
  | .loadNext _ a | .popCas _ a _ => some a
  | _ => none

def usesHp : LockFreeStackPc → Bool
  | .popLoad _ | .protect _ _ | .validate _ _ | .loadNext _ _ | .popCas _ _ _ | .loadData _ _
  | .clearPointer _ _ | .clearActive _ _ => true
  | _ => false

def scans : LockFreeStackPc → Bool
  | .collect _ _ _ | .sweep _ _ _ _ _ _ => true
  | _ => false

def toDelete : LockFreeStackPc → List ℕ
  | .sweep _ _ _ toDelete _ _ => toDelete
  | _ => []

/-- The answer of a call that has taken effect and has not returned. -/
def pending (heap : ℕ → Option LockFreeStackNode) : LockFreeStackPc → List LockFreeStackCall
  | .loadData _ a => ((heap a).map fun n => .pop n.data).toList
  | .clearPointer _ res | .clearActive _ res => [res.call]
  | .retire _ value | .collect _ _ value | .sweep _ _ _ _ _ value => [.pop value]
  | _ => []

/-- A scan of a list with `a` in it finds, or has found, the hazard pointer `i` at `a`. -/
def Spares (i a : ℕ) : LockFreeStackPc → Prop
  | .collect j protectedPtrs _ => i < j → a ∈ protectedPtrs
  | .sweep protectedPtrs _ _ _ _ _ => a ∈ protectedPtrs
  | _ => True

end LockFreeStackPc

namespace LockFreeStack

/-- The nodes from `head` on. -/
def Links (heap : ℕ → Option LockFreeStackNode) : Option ℕ → List (ℕ × ℤ) → Prop
  | head, [] => head = none
  | head, e :: rest => head = some e.1 ∧
      ∃ next, heap e.1 = some { next := next, data := e.2 } ∧ Links heap next rest

/-- The nodes that thread `t` has and that are not in the stack. -/
def limbo (s : LockFreeStack) (t : ThreadId) : List ℕ := s.retiredList t ++ (s.pc t).own.toList

def PcOk (s : LockFreeStack) (t : ThreadId) : LockFreeStackPc → Prop
  | .pushLoad value a | .pushCas value a => ∃ next, s.heap a = some { next := next, data := value }
  | .acquire i => i = 0
  | .popLoad hp | .protect hp _ | .loadNext hp _ | .loadData hp _ | .clearPointer hp _
  | .clearActive hp _ => hp = slot t
  | .validate hp oldHead => hp = slot t ∧ s.hpList hp = oldHead
  | .popCas hp a next => hp = slot t ∧ ∃ data, s.heap a = some { next := next, data := data }
  | .collect i protectedPtrs _ => protectedPtrs.length ≤ i ∧ i ≤ threads * hpMax
  | .sweep protectedPtrs kept rest toDelete deleted _ =>
      protectedPtrs.length ≤ threads * hpMax ∧ kept ⊆ protectedPtrs ∧
        s.retiredList t = kept ++ rest ∧ toDelete = deleted ∧ toDelete.length ≤ 1
  | _ => True

/-- No scan deletes the node. -/
structure Protected (s : LockFreeStack) (t : ThreadId) (a : ℕ) : Prop where
  hp : s.hpList (slot t) = some a
  inUse : (s.heap a).isSome
  old : ∀ u, (s.pc u).fresh ≠ some a
  spared : ∀ u, a ∈ s.retiredList u → (s.pc u).Spares (slot t) a

/-- A thread has retired the nodes of the elements that it has taken. The scan comes with the
tenth. -/
structure Counts (s : LockFreeStack) (t : ThreadId) : Prop where
  retired : (s.retiredList t).length + (s.pc t).toDelete.length =
    taken (s.returned t) + (s.pc t).scans.toNat
  few : taken (s.returned t) < retireThreshold
  last : (s.pc t).scans = true → taken (s.returned t) + 1 = retireThreshold

def told (s : LockFreeStack) (t : ThreadId) : List LockFreeStackCall :=
  s.returned t ++ (s.pc t).pending s.heap

/-- The state with the elements in the nodes `nodes`, the top first. -/
structure Rep (s : LockFreeStack) (nodes : List (ℕ × ℤ)) : Prop where
  links : Links s.heap s.head nodes
  nodup : (nodes.map Prod.fst).Nodup
  inUse : ∀ a, (s.heap a).isSome ↔ a ∈ nodes.map Prod.fst ∨ ∃ t, a ∈ s.limbo t
  apart : ∀ t, ∀ a ∈ s.limbo t, a ∉ nodes.map Prod.fst
  alone : ∀ t u, ∀ a ∈ s.limbo t, a ∈ s.limbo u → t = u
  limboNodup : ∀ t, (s.limbo t).Nodup
  active : ∀ t, s.active (slot t) = (s.pc t).usesHp
  pcOk : ∀ t, s.PcOk t (s.pc t)
  guarded : ∀ t a, (s.pc t).guard = some a → s.Protected t a
  counts : ∀ t, s.Counts t
  replays : Replays LockFreeStackCall.Effect [] s.calls (nodes.map Prod.snd)
  answers : ∀ t, callsOf t s.calls = s.told t

section Basics
variable {s : LockFreeStack} {heap heap' : ℕ → Option LockFreeStackNode} {head : Option ℕ}
  {nodes : List (ℕ × ℤ)} {t u : ThreadId} {a : ℕ} {n : LockFreeStackNode} {pc : LockFreeStackPc}
  {call : LockFreeStackCall}

theorem goto_pc_self : (s.goto t pc).pc t = pc := Function.update_self ..

theorem goto_pc_other (hu : u ≠ t) : (s.goto t pc).pc u = s.pc u := Function.update_of_ne hu ..

theorem leave_pc_self : (s.leave t call).pc t = .idle := Function.update_self ..

theorem leave_returned_self : (s.leave t call).returned t = s.returned t ++ [call] :=
  Function.update_self ..

theorem mem_limbo_of_own (h : (s.pc u).own = some a) : a ∈ s.limbo u := by
  rw [limbo, h]
  exact List.mem_append_right _ (List.mem_singleton_self a)

theorem mem_limbo_of_retired (h : a ∈ s.retiredList u) : a ∈ s.limbo u :=
  List.mem_append_left _ h

theorem own_of_fresh (h : pc.fresh = some a) : pc.own = some a := by
  cases pc with
  | pushLoad value b | pushCas value b => exact h
  | _ => cases h

theorem of_none {P : ℕ → Prop} {node : Option ℕ} (h : node = none) (a : ℕ) (ha : node = some a) :
    P a := by
  rw [h] at ha
  cases ha

theorem node_eq_ok (h : s.heap a = some n) : s.node a = .ok n := by
  rw [node, h]

theorem Links.congr (h : Links heap head nodes)
    (hsame : ∀ e ∈ nodes, heap' e.1 = heap e.1) : Links heap' head nodes := by
  induction nodes generalizing head with
  | nil => exact h
  | cons e rest ih =>
    obtain ⟨hhead, next, hn, hrest⟩ := h
    rw [← hsame e List.mem_cons_self] at hn
    exact ⟨hhead, next, hn, ih hrest fun e' he' => hsame e' (List.mem_cons_of_mem _ he')⟩

theorem slot_inj : slot t = slot u ↔ t = u := by
  rw [slot, slot, hpMax, Fin.ext_iff]
  omega

theorem slot_lt : slot t < threads * hpMax := by
  have ht : t.val < threads := t.isLt
  rw [slot, hpMax]
  omega

end Basics

end LockFreeStack
end HighPerformance
