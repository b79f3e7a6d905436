import HighPerformance.CallHistory
import HighPerformance.FallibleRun
import HighPerformance.ThreadCounts

/-!
# The lock-free stack with split reference counts

`lockfree_stack_split_reference_count.h` under any number of threads. A node is given by its
address. A step of a thread is one access to `head_` or to a node, an allocation or a deletion; all
of them are sequentially consistent. The addresses that `new` returns are chosen by the run and may
have been in use before.

The calls are recorded in the order of the steps that decide them: the exchange that links the node
of a `push`, the exchange that unlinks the node of a `pop`, the exchange that counts a `pop` on the
null pointer.
-/

namespace HighPerformance
open FallibleRun CallHistory ThreadCounts

/-- The count is an `int`. -/
structure CountedNodePtr where
  externalCount : ℕ
  ptr : Option ℕ
  deriving DecidableEq

structure CountedNode (T : Type) where
  data : Option T
  internalCount : ℤ
  next : CountedNodePtr

/-- The addition to the atomic `int`. -/
def CountedNode.add {T : Type} (n : CountedNode T) (k : ℤ) : CountedNode T :=
  { n with internalCount := Int.bmod (n.internalCount + k) (2 ^ 32) }

/-- A call that has returned, and what it returned. -/
inductive StackCall (T : Type) where
  | push (value : T)
  | pop (res : Option T)

/-- What a call does to a stack that nobody else calls, the top first. -/
inductive StackCall.Effect {T : Type} : List T → StackCall T → List T → Prop where
  | push (x : T) (contents : List T) : Effect contents (.push x) (x :: contents)
  | pop (x : T) (contents : List T) : Effect (x :: contents) (.pop (some x)) contents
  | empty : Effect [] (.pop none) []

inductive SplitReferenceCountFault where
  | overflow
  | useAfterFree
  deriving DecidableEq

/-- Where a thread is: not in a call; in `push`, before the load of `head_` and before the exchange;
in `pop`, before the load of `head_`, before the exchange that counts, before the load of `next_`,
before the exchange that unlinks, before the swap of the data, before the addition to the internal
count, before the deletion; before the subtraction from the internal count, and before the deletion
there. -/
inductive SplitReferenceCountPc (T : Type) where
  | idle
  | loadNext (data : T) (newNode : ℕ)
  | link (data : T) (newNode : ℕ)
  | loadHead
  | increase (oldHead : CountedNodePtr)
  | readNext (ptr externalCount : ℕ)
  | unlink (ptr externalCount : ℕ) (next : CountedNodePtr)
  | swapData (ptr externalCount : ℕ)
  | addCount (ptr externalCount : ℕ) (res : Option T)
  | deleteTaken (ptr : ℕ) (res : Option T)
  | release (ptr : ℕ) (oldHead : CountedNodePtr)
  | deleteReleased (ptr : ℕ) (oldHead : CountedNodePtr)

structure SplitReferenceCount (τ T : Type) where
  heap : ℕ → Option (CountedNode T) := fun _ => none
  head : CountedNodePtr := ⟨0, none⟩
  pc : τ → SplitReferenceCountPc T := fun _ => .idle
  returned : τ → List (StackCall T) := fun _ => []
  history : List (τ × StackCall T) := []

/-- The thread that acts. A thread that is in no call begins `push` with a value, for which `new`
returns the address unless it is in use, or `pop`. A weak exchange may fail for no reason. -/
structure SplitReferenceCountAction (τ T : Type) where
  thread : τ
  push : Option (T × ℕ) := none
  spurious : Bool := false

namespace SplitReferenceCountPc
variable {T : Type}

/-- The node for which the thread is counted in the external count and not yet in the internal
count. -/
def holding : SplitReferenceCountPc T → Option ℕ
  | .readNext ptr _ | .unlink ptr _ _ | .release ptr _ => some ptr
  | _ => none

/-- The node of which the thread is the only one to write the data or to delete it. -/
def working : SplitReferenceCountPc T → Option ℕ
  | .loadNext _ ptr | .link _ ptr | .swapData ptr _ | .addCount ptr _ _ | .deleteTaken ptr _
  | .deleteReleased ptr _ => some ptr
  | _ => none

/-- The call that has taken effect and has not returned. -/
def pending (heap : ℕ → Option (CountedNode T)) : SplitReferenceCountPc T → List (StackCall T)
  | .swapData ptr _ => [.pop ((heap ptr).bind CountedNode.data)]
  | .addCount _ _ res | .deleteTaken _ res => [.pop res]
  | _ => []

end SplitReferenceCountPc

namespace SplitReferenceCount
variable {τ T : Type}

def intMax : ℕ := 2 ^ 31 - 1

section Code
variable [DecidableEq τ]

def node (s : SplitReferenceCount τ T) (ptr : ℕ) : Except SplitReferenceCountFault (CountedNode T) :=
  match s.heap ptr with
  | some n => .ok n
  | none => .error .useAfterFree

/-- Thread `t` leaves `n` at `ptr` and goes to `pc`; `calls` have returned to it. -/
def edit (s : SplitReferenceCount τ T) (t : τ) (ptr : ℕ) (n : Option (CountedNode T))
    (pc : SplitReferenceCountPc T) (calls : List (StackCall T)) : SplitReferenceCount τ T :=
  { s with
    heap := Function.update s.heap ptr n
    pc := Function.update s.pc t pc
    returned := Function.update s.returned t (s.returned t ++ calls) }

def goto (s : SplitReferenceCount τ T) (t : τ) (pc : SplitReferenceCountPc T) :
    SplitReferenceCount τ T :=
  { s with pc := Function.update s.pc t pc }

/-- A call of thread `t` takes effect with the new value of `head_`; `calls` have returned to it. -/
def exchange (s : SplitReferenceCount τ T) (t : τ) (head : CountedNodePtr)
    (event : List (τ × StackCall T)) (pc : SplitReferenceCountPc T) (calls : List (StackCall T)) :
    SplitReferenceCount τ T :=
  { s with
    head := head
    pc := Function.update s.pc t pc
    returned := Function.update s.returned t (s.returned t ++ calls)
    history := s.history ++ event }

def push (s : SplitReferenceCount τ T) (t : τ) (data : T) (newNode : ℕ) : SplitReferenceCount τ T :=
  if (s.heap newNode).isSome then s
  else s.edit t newNode (some ⟨some data, 0, ⟨0, none⟩⟩) (.loadNext data newNode) []

def loadNext (s : SplitReferenceCount τ T) (t : τ) (data : T) (newNode : ℕ) :
    Except SplitReferenceCountFault (SplitReferenceCount τ T) := do
  let n ← s.node newNode
  return s.edit t newNode (some { n with next := s.head }) (.link data newNode) []

/-- A failed exchange loads `head_` into `next_`. -/
def link (s : SplitReferenceCount τ T) (t : τ) (spurious : Bool) (data : T) (newNode : ℕ) :
    Except SplitReferenceCountFault (SplitReferenceCount τ T) := do
  let n ← s.node newNode
  if s.head = n.next ∧ spurious = false then
    return s.exchange t ⟨1, some newNode⟩ [(t, .push data)] .idle [.push data]
  else return s.edit t newNode (some { n with next := s.head }) (.link data newNode) []

/-- One turn of `increase_head_count`; a failed exchange loads `head_` into `old_counter`. -/
def increase (s : SplitReferenceCount τ T) (t : τ) (oldHead : CountedNodePtr) :
    Except SplitReferenceCountFault (SplitReferenceCount τ T) :=
  if oldHead.externalCount < intMax then
    if s.head = oldHead then
      match oldHead.ptr with
      | none =>
          .ok (s.exchange t ⟨oldHead.externalCount + 1, none⟩ [(t, .pop none)] .idle [.pop none])
      | some ptr =>
          .ok (s.exchange t ⟨oldHead.externalCount + 1, some ptr⟩ []
            (.readNext ptr (oldHead.externalCount + 1)) [])
    else .ok (s.goto t (.increase s.head))
  else .error .overflow

def readNext (s : SplitReferenceCount τ T) (t : τ) (ptr externalCount : ℕ) :
    Except SplitReferenceCountFault (SplitReferenceCount τ T) := do
  let n ← s.node ptr
  return s.goto t (.unlink ptr externalCount n.next)

/-- The call is recorded with the data that the node holds now. -/
def unlink (s : SplitReferenceCount τ T) (t : τ) (ptr externalCount : ℕ) (next : CountedNodePtr) :
    SplitReferenceCount τ T :=
  if s.head = ⟨externalCount, some ptr⟩ then
    s.exchange t next [(t, .pop ((s.heap ptr).bind CountedNode.data))] (.swapData ptr externalCount) []
  else s.goto t (.release ptr s.head)

def swapData (s : SplitReferenceCount τ T) (t : τ) (ptr externalCount : ℕ) :
    Except SplitReferenceCountFault (SplitReferenceCount τ T) := do
  let n ← s.node ptr
  return s.edit t ptr (some { n with data := none }) (.addCount ptr externalCount n.data) []

def addCount (s : SplitReferenceCount τ T) (t : τ) (ptr externalCount : ℕ) (res : Option T) :
    Except SplitReferenceCountFault (SplitReferenceCount τ T) := do
  let n ← s.node ptr
  let countIncrease : ℤ := externalCount - 2
  if n.internalCount = -countIncrease then
    return s.edit t ptr (some (n.add countIncrease)) (.deleteTaken ptr res) []
  else return s.edit t ptr (some (n.add countIncrease)) .idle [.pop res]

def deleteTaken (s : SplitReferenceCount τ T) (t : τ) (ptr : ℕ) (res : Option T) :
    Except SplitReferenceCountFault (SplitReferenceCount τ T) := do
  let _ ← s.node ptr
  return s.edit t ptr none .idle [.pop res]

def release (s : SplitReferenceCount τ T) (t : τ) (ptr : ℕ) (oldHead : CountedNodePtr) :
    Except SplitReferenceCountFault (SplitReferenceCount τ T) := do
  let n ← s.node ptr
  if n.internalCount = 1 then
    return s.edit t ptr (some (n.add (-1))) (.deleteReleased ptr oldHead) []
  else return s.edit t ptr (some (n.add (-1))) (.increase oldHead) []

def deleteReleased (s : SplitReferenceCount τ T) (t : τ) (ptr : ℕ) (oldHead : CountedNodePtr) :
    Except SplitReferenceCountFault (SplitReferenceCount τ T) := do
  let _ ← s.node ptr
  return s.edit t ptr none (.increase oldHead) []

def step (s : SplitReferenceCount τ T) (a : SplitReferenceCountAction τ T) :
    Except SplitReferenceCountFault (SplitReferenceCount τ T) :=
  match s.pc a.thread, a.push with
  | .idle, some (data, newNode) => .ok (s.push a.thread data newNode)
  | .idle, none => .ok (s.goto a.thread .loadHead)
  | .loadNext data newNode, _ => s.loadNext a.thread data newNode
  | .link data newNode, _ => s.link a.thread a.spurious data newNode
  | .loadHead, _ => .ok (s.goto a.thread (.increase s.head))
  | .increase oldHead, _ => s.increase a.thread oldHead
  | .readNext ptr externalCount, _ => s.readNext a.thread ptr externalCount
  | .unlink ptr externalCount next, _ => .ok (s.unlink a.thread ptr externalCount next)
  | .swapData ptr externalCount, _ => s.swapData a.thread ptr externalCount
  | .addCount ptr externalCount res, _ => s.addCount a.thread ptr externalCount res
  | .deleteTaken ptr res, _ => s.deleteTaken a.thread ptr res
  | .release ptr oldHead, _ => s.release a.thread ptr oldHead
  | .deleteReleased ptr oldHead, _ => s.deleteReleased a.thread ptr oldHead

end Code

/-- Who answers for a node: nobody while the address is not in use, the thread that pushes it, the
list with an external count, the thread that took it off with an external count, the threads that
hold it, the thread that deletes it. -/
inductive Status (τ : Type) where
  | free
  | fresh (t : τ)
  | listed (externalCount : ℕ)
  | taken (t : τ) (externalCount : ℕ)
  | shared
  | dying (t : τ)

def Status.owner : Status τ → Option τ
  | .fresh t | .taken t _ | .dying t => some t
  | _ => none

/-- How the internal count of a node and the number of threads that hold it go together. The list
counts for one in the external count, and so does the thread that took the node. -/
def Account (holders : ℕ) : Status τ → Option (CountedNode T) → Prop
  | .free, n => n = none ∧ holders = 0
  | .fresh _, n => holders = 0 ∧ ∃ m, n = some m ∧ m.internalCount = 0
  | .listed count, n => count ≤ intMax ∧ ∃ m, n = some m ∧
      m.internalCount ≤ 0 ∧ (holders : ℤ) + 1 = count + m.internalCount
  | .taken _ count, n => count ≤ intMax ∧ ∃ m, n = some m ∧
      m.internalCount ≤ 0 ∧ (holders : ℤ) + 2 = count + m.internalCount
  | .shared, n => 0 < holders ∧ holders ≤ intMax ∧ ∃ m, n = some m ∧ m.internalCount = holders
  | .dying _, n => holders = 0 ∧ ∃ m, n = some m

/-- The nodes from a pointer on, each with its address, its external count and its value. -/
inductive Chain (heap : ℕ → Option (CountedNode T)) : CountedNodePtr → List (ℕ × ℕ × T) → Prop where
  | nil (count : ℕ) : Chain heap ⟨count, none⟩ []
  | cons {ptr : ℕ} {n : CountedNode T} {x : T} {nodes : List (ℕ × ℕ × T)} (count : ℕ) :
      heap ptr = some n → n.data = some x → Chain heap n.next nodes →
      Chain heap ⟨count, some ptr⟩ ((ptr, count, x) :: nodes)

section Chains
variable {heap heap' : ℕ → Option (CountedNode T)} {head : CountedNodePtr}
  {nodes : List (ℕ × ℕ × T)} {ptr count : ℕ}

theorem Chain.congr (h : Chain heap head nodes)
    (hsame : ∀ q ∈ nodes.map Prod.fst, ∀ n, heap q = some n →
      ∃ n', heap' q = some n' ∧ n'.data = n.data ∧ n'.next = n.next) : Chain heap' head nodes := by
  induction h with
  | nil count => exact .nil count
  | @cons ptr n x nodes count hn hx hrest ih =>
    obtain ⟨n', hn', hdata, hnext⟩ := hsame ptr (by simp) n hn
    refine .cons count hn' (hdata.trans hx) (hnext ▸ ih ?_)
    intro q hq
    exact hsame q (List.mem_cons_of_mem _ hq)

theorem Chain.cons_of_some (h : Chain heap ⟨count, some ptr⟩ nodes) :
    ∃ n x rest, nodes = (ptr, count, x) :: rest ∧ heap ptr = some n ∧ n.data = some x ∧
      Chain heap n.next rest := by
  cases h with
  | cons _ hn hx hrest => exact ⟨_, _, _, rfl, hn, hx, hrest⟩

theorem Chain.eq_nil (h : Chain heap ⟨count, none⟩ nodes) : nodes = [] := by
  cases h
  rfl

end Chains

section Accounts
variable {k : ℕ} {σ : Status τ} {n : Option (CountedNode T)} {m : CountedNode T}

theorem Account.live (h : Account k σ n) (hk : 0 < k) : ∃ m, n = some m := by
  cases σ with
  | free => exact absurd h.2 hk.ne'
  | fresh t => exact h.2.imp fun _ hm => hm.1
  | listed count => exact h.2.imp fun _ hm => hm.1
  | taken t count => exact h.2.imp fun _ hm => hm.1
  | shared => exact h.2.2.imp fun _ hm => hm.1
  | dying t => exact h.2

theorem Account.of_none (h : Account k σ (none : Option (CountedNode T))) : σ = .free ∧ k = 0 := by
  cases σ with
  | free => exact ⟨rfl, h.2⟩
  | fresh t => obtain ⟨_, _, hm, _⟩ := h; cases hm
  | listed count => obtain ⟨_, _, hm, _⟩ := h; cases hm
  | taken t count => obtain ⟨_, _, hm, _⟩ := h; cases hm
  | shared => obtain ⟨_, _, _, hm, _⟩ := h; cases hm
  | dying t => obtain ⟨_, _, hm⟩ := h; cases hm

end Accounts

/-- What thread `t` knows of the node that it works on. -/
def PcOk (heap : ℕ → Option (CountedNode T)) (status : ℕ → Status τ) (t : τ) :
    SplitReferenceCountPc T → Prop
  | .loadNext data ptr | .link data ptr =>
      status ptr = .fresh t ∧ ∃ n, heap ptr = some n ∧ n.data = some data
  | .unlink ptr _ next => ∃ n, heap ptr = some n ∧ n.next = next
  | .swapData ptr count => status ptr = .taken t count
  | .addCount ptr count _ => status ptr = .taken t count
  | .deleteTaken ptr _ | .deleteReleased ptr _ => status ptr = .dying t
  | _ => True

variable [DecidableEq τ] [Fintype τ]

/-- How many threads hold the node. -/
def holders (s : SplitReferenceCount τ T) (ptr : ℕ) : ℕ :=
  count (SplitReferenceCountPc.holding ∘ s.pc) ptr

structure Rep (s : SplitReferenceCount τ T) (nodes : List (ℕ × ℕ × T)) (status : ℕ → Status τ) :
    Prop where
  chain : Chain s.heap s.head nodes
  nodup : (nodes.map Prod.fst).Nodup
  replays : Replays StackCall.Effect [] s.history (nodes.map (·.2.2))
  listed : ∀ ptr count, status ptr = .listed count ↔ ∃ x, (ptr, count, x) ∈ nodes
  account : ∀ ptr, Account (s.holders ptr) (status ptr) (s.heap ptr)
  owned : ∀ ptr t, (status ptr).owner = some t → (s.pc t).working = some ptr
  pcOk : ∀ t, PcOk s.heap status t (s.pc t)
  calls : ∀ t, callsOf t s.history = s.returned t ++ (s.pc t).pending s.heap

/-- A node for which another thread answers, or will, keeps its status and its data. -/
def Foreign (t : τ) (σ σ' : Status τ) (n n' : Option (CountedNode T)) : Prop :=
  ∀ u ≠ t, σ.owner = some u ∨ σ'.owner = some u →
    σ' = σ ∧ n'.map CountedNode.data = n.map CountedNode.data

/-- A step of thread `t` leaves to the others what they rely on. -/
structure Frame (t : τ) (s s' : SplitReferenceCount τ T) (status status' : ℕ → Status τ) : Prop where
  pc : ∀ u ≠ t, s'.pc u = s.pc u
  returned : ∀ u ≠ t, s'.returned u = s.returned u
  calls : ∀ u ≠ t, callsOf u s'.history = callsOf u s.history
  owned : ∀ u ≠ t, ∀ q, (status q).owner = some u →
    status' q = status q ∧ (s'.heap q).map CountedNode.data = (s.heap q).map CountedNode.data
  owner : ∀ u ≠ t, ∀ q, (status' q).owner = some u → (status q).owner = some u
  next : ∀ u ≠ t, ∀ q n, (s.pc u).holding = some q → s.heap q = some n →
    ∃ n', s'.heap q = some n' ∧ n'.next = n.next

section Steps
variable {s s' : SplitReferenceCount τ T} {nodes nodes' : List (ℕ × ℕ × T)}
  {status status' : ℕ → Status τ} {t u : τ} {ptr : ℕ} {σ : Status τ} {pc : SplitReferenceCountPc T}
  {n : Option (CountedNode T)} {m : CountedNode T} {calls : List (StackCall T)}

omit [Fintype τ] [DecidableEq τ] in
theorem foreign_of_own {n' : Option (CountedNode T)} {σ' : Status τ}
    (h : σ.owner = none ∨ σ.owner = some t) (h' : σ'.owner = none ∨ σ'.owner = some t) :
    Foreign t σ σ' n n' := by
  intro u hu ho
  rcases ho with ho | ho
  · rcases h with h | h
    · cases ho.symm.trans h
    · exact (hu (Option.some.inj (ho.symm.trans h))).elim
  · rcases h' with h' | h'
    · cases ho.symm.trans h'
    · exact (hu (Option.some.inj (ho.symm.trans h'))).elim

theorem Frame.pcOk (h : Rep s nodes status) (f : Frame t s s' status status') (hu : u ≠ t) :
    PcOk s'.heap status' u (s'.pc u) := by
  have hok := h.pcOk u
  rw [f.pc u hu]
  cases hpc : s.pc u with
  | idle | loadHead | increase | readNext | release => trivial
  | loadNext data ptr | link data ptr =>
    rw [hpc] at hok
    obtain ⟨hstatus, n, hn, hdata⟩ := hok
    obtain ⟨hs, hsame⟩ := f.owned u hu ptr (by rw [hstatus]; rfl)
    rw [hn, Option.map_some, Option.map_eq_some_iff] at hsame
    obtain ⟨n', hn', hdata'⟩ := hsame
    exact ⟨hs.trans hstatus, n', hn', hdata'.trans hdata⟩
  | unlink ptr count next =>
    rw [hpc] at hok
    obtain ⟨n, hn, hnext⟩ := hok
    obtain ⟨n', hn', hsame⟩ := f.next u hu ptr n (by rw [hpc]; rfl) hn
    exact ⟨n', hn', hsame.trans hnext⟩
  | swapData ptr count | addCount ptr count res | deleteTaken ptr res | deleteReleased ptr oldHead =>
    rw [hpc] at hok
    exact (f.owned u hu ptr (by rw [hok]; rfl)).1.trans hok

theorem Frame.pending (h : Rep s nodes status) (f : Frame t s s' status status') (hu : u ≠ t) :
    (s'.pc u).pending s'.heap = (s.pc u).pending s.heap := by
  have hok := h.pcOk u
  rw [f.pc u hu]
  cases hpc : s.pc u with
  | swapData ptr count =>
    rw [hpc] at hok
    have hsame := (f.owned u hu ptr (by rw [show status ptr = _ from hok]; rfl)).2
    have hjoin : ∀ o : Option (CountedNode T),
        o.bind CountedNode.data = (o.map CountedNode.data).join := by
      intro o
      cases o <;> rfl
    rw [SplitReferenceCountPc.pending, SplitReferenceCountPc.pending, hjoin, hjoin, hsame]
  | _ => rfl

/-- What is left to show of a step is what thread `t` itself sees. -/
theorem Rep.of_frame (h : Rep s nodes status) (f : Frame t s s' status status')
    (hchain : Chain s'.heap s'.head nodes') (hnodup : (nodes'.map Prod.fst).Nodup)
    (hreplays : Replays StackCall.Effect [] s'.history (nodes'.map (·.2.2)))
    (hlisted : ∀ ptr count, status' ptr = .listed count ↔ ∃ x, (ptr, count, x) ∈ nodes')
    (haccount : ∀ ptr, Account (s'.holders ptr) (status' ptr) (s'.heap ptr))
    (howned : ∀ ptr, (status' ptr).owner = some t → (s'.pc t).working = some ptr)
    (hok : PcOk s'.heap status' t (s'.pc t))
    (hcalls : callsOf t s'.history = s'.returned t ++ (s'.pc t).pending s'.heap) :
    Rep s' nodes' status' := by
  refine ⟨hchain, hnodup, hreplays, hlisted, haccount, ?_, ?_, ?_⟩
  · intro ptr u hu
    by_cases hut : u = t
    · exact hut ▸ howned ptr (hut ▸ hu)
    · rw [f.pc u hut]
      exact h.owned ptr u (f.owner u hut ptr hu)
  · intro u
    by_cases hut : u = t
    · exact hut ▸ hok
    · exact f.pcOk h hut
  · intro u
    by_cases hut : u = t
    · exact hut ▸ hcalls
    · rw [f.calls u hut, f.returned u hut, f.pending h hut]
      exact h.calls u

theorem holders_same {q : ℕ} (hhold : pc.holding = (s.pc t).holding) :
    count (SplitReferenceCountPc.holding ∘ Function.update s.pc t pc) q = s.holders q := by
  rw [Function.comp_update, hhold, holders]
  exact congrArg (count · q) (Function.update_eq_self t (SplitReferenceCountPc.holding ∘ s.pc))

theorem holders_other {q : ℕ} (hold : (s.pc t).holding ≠ some q) (hnew : pc.holding ≠ some q) :
    count (SplitReferenceCountPc.holding ∘ Function.update s.pc t pc) q = s.holders q := by
  rw [Function.comp_update]
  exact count_update_other hold hnew

theorem holders_enter (hold : (s.pc t).holding = none) (hnew : pc.holding = some ptr) :
    count (SplitReferenceCountPc.holding ∘ Function.update s.pc t pc) ptr = s.holders ptr + 1 := by
  rw [Function.comp_update, hnew]
  exact count_enter (by simp [hold])

theorem holders_leave (hold : (s.pc t).holding = some ptr) (hnew : pc.holding = none) :
    count (SplitReferenceCountPc.holding ∘ Function.update s.pc t pc) ptr + 1 = s.holders ptr := by
  rw [Function.comp_update, hnew]
  exact count_leave hold (by simp)

theorem Rep.goto (h : Rep s nodes status) (hhold : pc.holding = (s.pc t).holding)
    (hwork : pc.working = (s.pc t).working)
    (hpending : pc.pending s.heap = (s.pc t).pending s.heap) (hok : PcOk s.heap status t pc) :
    Rep (s.goto t pc) nodes status := by
  have hself : (s.goto t pc).pc t = pc := Function.update_self ..
  refine h.of_frame (t := t) ?_ h.chain h.nodup h.replays h.listed ?_ ?_ ?_ ?_
  · exact ⟨fun u hu => Function.update_of_ne hu .., fun _ _ => rfl, fun _ _ => rfl,
      fun _ _ _ _ => ⟨rfl, rfl⟩, fun _ _ _ hq => hq, fun _ _ _ n _ hn => ⟨n, hn, rfl⟩⟩
  · intro q
    have hsame : (s.goto t pc).holders q = s.holders q := holders_same hhold
    rw [hsame]
    exact h.account q
  · intro q hq
    rw [hself, hwork]
    exact h.owned q t hq
  · rw [hself]
    exact hok
  · rw [hself]
    exact (h.calls t).trans (congrArg (s.returned t ++ ·) hpending.symm)

/-- Only one node changes, and another thread that answers for it does not see that. -/
theorem frame_of_update (hpc : s'.pc = Function.update s.pc t pc)
    (hreturned : s'.returned = Function.update s.returned t calls)
    (hcalls : ∀ u ≠ t, callsOf u s'.history = callsOf u s.history)
    (hheap : s'.heap = Function.update s.heap ptr n)
    (hforeign : Foreign t (status ptr) σ (s.heap ptr) n)
    (hnext : 0 < s.holders ptr → ∀ m, s.heap ptr = some m → ∃ m', n = some m' ∧ m'.next = m.next) :
    Frame t s s' status (Function.update status ptr σ) := by
  constructor
  · intro u hu
    rw [hpc, Function.update_of_ne hu]
  · intro u hu
    rw [hreturned, Function.update_of_ne hu]
  · exact hcalls
  · intro u hu q hq
    rw [hheap]
    by_cases hqp : q = ptr
    · subst hqp
      rw [Function.update_self, Function.update_self]
      exact hforeign u hu (.inl hq)
    · rw [Function.update_of_ne hqp, Function.update_of_ne hqp]
      exact ⟨rfl, rfl⟩
  · intro u hu q hq
    by_cases hqp : q = ptr
    · subst hqp
      rw [Function.update_self] at hq
      exact (hforeign u hu (.inr hq)).1 ▸ hq
    · rwa [Function.update_of_ne hqp] at hq
  · intro u hu q m hhold hm
    rw [hheap]
    by_cases hqp : q = ptr
    · rw [hqp, Function.update_self]
      exact hnext (count_pos_iff.mpr ⟨u, hqp ▸ hhold⟩) m (hqp ▸ hm)
    · rw [Function.update_of_ne hqp]
      exact ⟨m, hm, rfl⟩

/-- A step of thread `t` that concerns one node. -/
theorem Rep.change (h : Rep s nodes status) (hpc : s'.pc = Function.update s.pc t pc)
    (hheap : s'.heap = Function.update s.heap ptr n)
    (hreturned : s'.returned = Function.update s.returned t (s.returned t ++ calls))
    (hothers : ∀ u ≠ t, callsOf u s'.history = callsOf u s.history)
    (hhold : ∀ q, (s.pc t).holding = some q → q = ptr) (hhold' : ∀ q, pc.holding = some q → q = ptr)
    (hwork : ∀ q, (s.pc t).working = some q → q = ptr)
    (hforeign : Foreign t (status ptr) σ (s.heap ptr) n)
    (hown : σ.owner = some t → pc.working = some ptr)
    (hnext : 0 < s.holders ptr → ∀ m, s.heap ptr = some m → ∃ m', n = some m' ∧ m'.next = m.next)
    (hchain : Chain s'.heap s'.head nodes') (hnodup : (nodes'.map Prod.fst).Nodup)
    (hreplays : Replays StackCall.Effect [] s'.history (nodes'.map (·.2.2)))
    (hlisted : ∀ q count,
      Function.update status ptr σ q = .listed count ↔ ∃ x, (q, count, x) ∈ nodes')
    (haccount : Account (count (SplitReferenceCountPc.holding ∘ Function.update s.pc t pc) ptr) σ n)
    (hok : PcOk s'.heap (Function.update status ptr σ) t pc)
    (hcalls : callsOf t s'.history = s.returned t ++ (calls ++ pc.pending s'.heap)) :
    Rep s' nodes' (Function.update status ptr σ) := by
  have hself : s'.pc t = pc := by rw [hpc, Function.update_self]
  refine h.of_frame (frame_of_update hpc hreturned hothers hheap hforeign hnext) hchain hnodup
    hreplays hlisted ?_ ?_ ?_ ?_
  · intro q
    rw [holders, hpc, hheap]
    by_cases hqp : q = ptr
    · rw [hqp, Function.update_self, Function.update_self]
      exact haccount
    · rw [Function.update_of_ne hqp, Function.update_of_ne hqp,
        holders_other (fun hq => hqp (hhold q hq)) (fun hq => hqp (hhold' q hq))]
      exact h.account q
  · intro q hq
    rw [hself]
    by_cases hqp : q = ptr
    · rw [hqp, Function.update_self] at hq
      exact hqp ▸ hown hq
    · rw [Function.update_of_ne hqp] at hq
      exact (hqp (hwork q (h.owned q t hq))).elim
  · rw [hself]
    exact hok
  · rw [hself, hreturned, Function.update_self, List.append_assoc]
    exact hcalls

theorem Rep.edit (h : Rep s nodes status) (ptr : ℕ) (σ : Status τ)
    (hhold : ∀ q, (s.pc t).holding = some q → q = ptr) (hhold' : ∀ q, pc.holding = some q → q = ptr)
    (hwork : ∀ q, (s.pc t).working = some q → q = ptr)
    (hforeign : Foreign t (status ptr) σ (s.heap ptr) n)
    (hown : σ.owner = some t → pc.working = some ptr)
    (hlisted : ∀ count, σ = .listed count ↔ status ptr = .listed count)
    (hkeep : 0 < s.holders ptr ∨ (∃ count, status ptr = .listed count) →
      ∀ m, s.heap ptr = some m → ∃ m', n = some m' ∧ m'.next = m.next ∧
        ((∃ count, status ptr = .listed count) → m'.data = m.data))
    (haccount : Account (count (SplitReferenceCountPc.holding ∘ Function.update s.pc t pc) ptr) σ n)
    (hok : PcOk (Function.update s.heap ptr n) (Function.update status ptr σ) t pc)
    (hcalls : (s.pc t).pending s.heap = calls ++ pc.pending (Function.update s.heap ptr n)) :
    Rep (s.edit t ptr n pc calls) nodes (Function.update status ptr σ) := by
  refine h.change rfl rfl rfl (fun _ _ => rfl) hhold hhold' hwork hforeign hown ?_ ?_ h.nodup
    h.replays ?_ haccount hok ?_
  · intro hheld m hm
    obtain ⟨m', hm', hnext, _⟩ := hkeep (.inl hheld) m hm
    exact ⟨m', hm', hnext⟩
  · refine h.chain.congr ?_
    intro q hq m hm
    by_cases hqp : q = ptr
    · obtain ⟨⟨_, count, x⟩, hmem, rfl⟩ := List.mem_map.mp hq
      have hstatus := (h.listed ptr count).mpr ⟨x, hqp ▸ hmem⟩
      obtain ⟨m', hm', hnext, hdata⟩ := hkeep (.inr ⟨count, hstatus⟩) m (hqp ▸ hm)
      exact ⟨m', by rw [hqp]; exact (Function.update_self ..).trans hm', hdata ⟨count, hstatus⟩, hnext⟩
    · exact ⟨m, (Function.update_of_ne hqp ..).trans hm, rfl, rfl⟩
  · intro q count
    by_cases hqp : q = ptr
    · rw [hqp, Function.update_self, hlisted count]
      exact h.listed ptr count
    · rw [Function.update_of_ne hqp]
      exact h.listed q count
  · exact (h.calls t).trans (congrArg (s.returned t ++ ·) hcalls)

/-- A step that exchanges `head_` and writes to no node. -/
theorem Rep.exchange (h : Rep s nodes status) (ptr : ℕ) (σ : Status τ) {head : CountedNodePtr}
    {event : List (τ × StackCall T)}
    (hothers : ∀ u ≠ t, callsOf u (s.history ++ event) = callsOf u s.history)
    (hhold : ∀ q, (s.pc t).holding = some q → q = ptr) (hhold' : ∀ q, pc.holding = some q → q = ptr)
    (hwork : ∀ q, (s.pc t).working = some q → q = ptr)
    (hforeign : Foreign t (status ptr) σ (s.heap ptr) (s.heap ptr))
    (hown : σ.owner = some t → pc.working = some ptr)
    (hchain : Chain s.heap head nodes') (hnodup : (nodes'.map Prod.fst).Nodup)
    (hreplays : Replays StackCall.Effect [] (s.history ++ event) (nodes'.map (·.2.2)))
    (hlisted : ∀ q count,
      Function.update status ptr σ q = .listed count ↔ ∃ x, (q, count, x) ∈ nodes')
    (haccount : Account (count (SplitReferenceCountPc.holding ∘ Function.update s.pc t pc) ptr) σ
      (s.heap ptr))
    (hok : PcOk s.heap (Function.update status ptr σ) t pc)
    (hcalls : callsOf t (s.history ++ event) = s.returned t ++ (calls ++ pc.pending s.heap)) :
    Rep (s.exchange t head event pc calls) nodes' (Function.update status ptr σ) :=
  h.change rfl (Function.update_eq_self ..).symm rfl hothers hhold hhold' hwork hforeign hown
    (fun _ m hm => ⟨m, hm, rfl⟩) hchain hnodup hreplays hlisted haccount hok hcalls

omit [DecidableEq τ] [Fintype τ] in
theorem node_eq_ok (hm : s.heap ptr = some m) : s.node ptr = .ok m := by
  rw [node, hm]

theorem Rep.push (h : Rep s nodes status) (hpc : s.pc t = .idle) (data : T) (newNode : ℕ) :
    ∃ status', Rep (s.push t data newNode) nodes status' := by
  unfold SplitReferenceCount.push
  split
  · exact ⟨status, h⟩
  · next hfree =>
    have hnone : s.heap newNode = none := by simpa using hfree
    have haccount := h.account newNode
    rw [hnone] at haccount
    obtain ⟨hstatus, hholders⟩ := haccount.of_none
    refine ⟨_, h.edit newNode (.fresh t) ?_ ?_ ?_ ?_ ?_ ?_ ?_ ?_ ?_ ?_⟩
    · simp [hpc, SplitReferenceCountPc.holding]
    · simp [SplitReferenceCountPc.holding]
    · simp [hpc, SplitReferenceCountPc.working]
    · exact foreign_of_own (hstatus ▸ .inl rfl) (.inr rfl)
    · exact fun _ => rfl
    · simp [hstatus]
    · intro _ m hm
      rw [hnone] at hm
      cases hm
    · rw [holders_same (by rw [hpc]; rfl)]
      exact ⟨hholders, _, rfl, rfl⟩
    · exact ⟨Function.update_self .., _, Function.update_self .., rfl⟩
    · rw [hpc]
      rfl

theorem Rep.setNext (h : Rep s nodes status) {data : T} {newNode : ℕ}
    (hpc : s.pc t = .loadNext data newNode ∨ s.pc t = .link data newNode)
    (hm : s.heap newNode = some m) (next : CountedNodePtr) :
    ∃ status', Rep (s.edit t newNode (some { m with next := next }) (.link data newNode) [])
      nodes status' := by
  have hok : PcOk s.heap status t (.link data newNode) := by
    rcases hpc with hpc | hpc
    · have hok := h.pcOk t
      rwa [hpc] at hok
    · have hok := h.pcOk t
      rwa [hpc] at hok
  obtain ⟨hstatus, n, hn, hdata⟩ := hok
  cases hm.symm.trans hn
  have haccount := h.account newNode
  rw [hstatus, hm] at haccount
  obtain ⟨hholders, _, ⟨⟩, hcount⟩ := haccount
  have hhold : (s.pc t).holding = none := by rcases hpc with hpc | hpc <;> rw [hpc] <;> rfl
  refine ⟨_, h.edit newNode (.fresh t) ?_ ?_ ?_ ?_ ?_ ?_ ?_ ?_ ?_ ?_⟩
  · simp [hhold]
  · simp [SplitReferenceCountPc.holding]
  · rcases hpc with hpc | hpc <;> simp [hpc, SplitReferenceCountPc.working]
  · exact foreign_of_own (hstatus ▸ .inr rfl) (.inr rfl)
  · exact fun _ => rfl
  · simp [hstatus]
  · rintro (hheld | ⟨count, hcount⟩)
    · omega
    · rw [hstatus] at hcount
      cases hcount
  · rw [holders_same (by rw [hhold]; rfl)]
    exact ⟨hholders, _, rfl, hcount⟩
  · exact ⟨Function.update_self .., _, Function.update_self .., hdata⟩
  · rcases hpc with hpc | hpc <;> rw [hpc] <;> rfl

/-- The node becomes the top of the list. -/
theorem Rep.linkNode (h : Rep s nodes status) {data : T} {newNode : ℕ}
    (hpc : s.pc t = .link data newNode) (hm : s.heap newNode = some m) (hnext : s.head = m.next) :
    ∃ nodes' status', Rep (s.exchange t ⟨1, some newNode⟩ [(t, .push data)] .idle [.push data])
      nodes' status' := by
  obtain ⟨hstatus, n, hn, hdata⟩ : PcOk s.heap status t (.link data newNode) := hpc ▸ h.pcOk t
  cases hm.symm.trans hn
  have haccount := h.account newNode
  rw [hstatus, hm] at haccount
  obtain ⟨hholders, _, ⟨⟩, hcount⟩ := haccount
  have hnew : ∀ count x, (newNode, count, x) ∉ nodes := by
    intro count x hmem
    have hlisted := (h.listed newNode count).mpr ⟨x, hmem⟩
    rw [hstatus] at hlisted
    cases hlisted
  refine ⟨(newNode, 1, data) :: nodes, _,
    h.exchange newNode (.listed 1) ?_ ?_ ?_ ?_ ?_ ?_ ?_ ?_ ?_ ?_ ?_ ?_ ?_⟩
  · intro u hu
    exact callsOf_concat_other (Ne.symm hu)
  · simp [hpc, SplitReferenceCountPc.holding]
  · simp [SplitReferenceCountPc.holding]
  · simp [hpc, SplitReferenceCountPc.working]
  · exact foreign_of_own (hstatus ▸ .inr rfl) (.inl rfl)
  · rintro ⟨⟩
  · exact .cons 1 hm hdata (hnext ▸ h.chain)
  · refine List.nodup_cons.mpr ⟨?_, h.nodup⟩
    intro hmem
    obtain ⟨⟨_, count, x⟩, hnode, rfl⟩ := List.mem_map.mp hmem
    exact hnew count x hnode
  · exact h.replays.concat t (.push data _)
  · intro q count
    by_cases hq : q = newNode
    · subst hq
      simp [hnew, eq_comm]
    · rw [Function.update_of_ne hq, h.listed q count]
      simp [hq]
  · rw [holders_same (by rw [hpc]; rfl), hholders, hm]
    exact ⟨by decide, _, rfl, hcount.le, by rw [hcount]; rfl⟩
  · trivial
  · rw [callsOf_concat_own, h.calls t, hpc]
    simp [SplitReferenceCountPc.pending]

theorem Rep.top (h : Rep s nodes status) {externalCount : ℕ}
    (hhead : s.head = ⟨externalCount, some ptr⟩) :
    ∃ m x rest, nodes = (ptr, externalCount, x) :: rest ∧ s.heap ptr = some m ∧ m.data = some x ∧
      Chain s.heap m.next rest ∧ status ptr = .listed externalCount ∧
      ∀ count y, (ptr, count, y) ∉ rest := by
  obtain ⟨m, x, rest, rfl, hm, hx, hrest⟩ := (hhead ▸ h.chain).cons_of_some
  refine ⟨m, x, rest, rfl, hm, hx, hrest, ?_, ?_⟩
  · exact (h.listed ptr externalCount).mpr ⟨x, List.mem_cons_self⟩
  · intro count y hmem
    exact (List.nodup_cons.mp h.nodup).1 (List.mem_map.mpr ⟨_, hmem, rfl⟩)

theorem Rep.countTop (h : Rep s nodes status) {externalCount : ℕ} {oldHead : CountedNodePtr}
    (hpc : s.pc t = .increase oldHead) (hhead : s.head = ⟨externalCount, some ptr⟩)
    (hlt : externalCount < intMax) :
    ∃ nodes' status', Rep (s.exchange t ⟨externalCount + 1, some ptr⟩ []
      (.readNext ptr (externalCount + 1)) []) nodes' status' := by
  obtain ⟨m, x, rest, rfl, hm, hx, hrest, hstatus, hnot⟩ := h.top hhead
  have haccount := h.account ptr
  rw [hstatus, hm] at haccount
  obtain ⟨_, _, ⟨⟩, hcount, hsum⟩ := haccount
  refine ⟨(ptr, externalCount + 1, x) :: rest, _,
    h.exchange ptr (.listed (externalCount + 1)) ?_ ?_ ?_ ?_ ?_ ?_ ?_ ?_ ?_ ?_ ?_ ?_ ?_⟩
  · intro u _
    rw [List.append_nil]
  · simp [hpc, SplitReferenceCountPc.holding]
  · rintro q ⟨⟩
    rfl
  · simp [hpc, SplitReferenceCountPc.working]
  · exact foreign_of_own (hstatus ▸ .inl rfl) (.inl rfl)
  · rintro ⟨⟩
  · exact .cons _ hm hx hrest
  · exact h.nodup
  · rw [List.append_nil]
    exact h.replays
  · intro q count
    by_cases hq : q = ptr
    · subst hq
      simp [hnot, eq_comm]
    · rw [Function.update_of_ne hq, h.listed q count]
      simp [hq]
  · rw [holders_enter (by rw [hpc]; rfl) rfl, hm]
    refine ⟨hlt, m, rfl, hcount, ?_⟩
    push_cast
    omega
  · trivial
  · rw [List.append_nil, h.calls t, hpc]
    rfl

theorem Rep.countNull (h : Rep s nodes status) {externalCount : ℕ} {oldHead : CountedNodePtr}
    (hpc : s.pc t = .increase oldHead) (hhead : s.head = ⟨externalCount, none⟩) :
    ∃ nodes' status', Rep (s.exchange t ⟨externalCount + 1, none⟩ [(t, .pop none)] .idle
      [.pop none]) nodes' status' := by
  have hnodes : nodes = [] := (hhead ▸ h.chain).eq_nil
  subst hnodes
  have hself : (s.exchange t ⟨externalCount + 1, none⟩ [(t, .pop none)] .idle [.pop none]).pc t =
      .idle := Function.update_self ..
  refine ⟨[], status, h.of_frame (t := t) ?_ (.nil _) h.nodup ?_ h.listed ?_ ?_ ?_ ?_⟩
  · refine ⟨fun u hu => Function.update_of_ne hu .., fun u hu => Function.update_of_ne hu .., ?_,
      fun _ _ _ _ => ⟨rfl, rfl⟩, fun _ _ _ hq => hq, fun _ _ _ n _ hn => ⟨n, hn, rfl⟩⟩
    intro u hu
    exact callsOf_concat_other (Ne.symm hu)
  · exact h.replays.concat t .empty
  · intro q
    have hsame : (s.exchange t ⟨externalCount + 1, none⟩ [(t, .pop none)] .idle
      [.pop none]).holders q = s.holders q := holders_same (by rw [hpc]; rfl)
    rw [hsame]
    exact h.account q
  · intro q hq
    have hworking := h.owned q t hq
    rw [hpc] at hworking
    cases hworking
  · rw [hself]
    trivial
  · rw [hself]
    change callsOf t (s.history ++ [(t, .pop none)]) =
      Function.update s.returned t (s.returned t ++ [.pop none]) t ++ []
    rw [callsOf_concat_own, Function.update_self, h.calls t, hpc]
    simp [SplitReferenceCountPc.pending]

/-- The top of the list is taken off by one of the threads that hold it. -/
theorem Rep.takeTop (h : Rep s nodes status) {externalCount : ℕ} {next : CountedNodePtr}
    (hpc : s.pc t = .unlink ptr externalCount next) (hhead : s.head = ⟨externalCount, some ptr⟩) :
    ∃ nodes' status', Rep (s.exchange t next
      [(t, .pop ((s.heap ptr).bind CountedNode.data))] (.swapData ptr externalCount) [])
      nodes' status' := by
  obtain ⟨m, x, rest, rfl, hm, hx, hrest, hstatus, hnot⟩ := h.top hhead
  obtain ⟨m', hm', hnext⟩ : PcOk s.heap status t (.unlink ptr externalCount next) := hpc ▸ h.pcOk t
  cases hm.symm.trans hm'
  have haccount := h.account ptr
  rw [hstatus, hm] at haccount
  obtain ⟨hle, _, ⟨⟩, hcount, hsum⟩ := haccount
  have hleave : count (SplitReferenceCountPc.holding ∘
      Function.update s.pc t (.swapData ptr externalCount)) ptr + 1 = s.holders ptr :=
    holders_leave (by rw [hpc]; rfl) rfl
  have hdata : (s.heap ptr).bind CountedNode.data = some x := by rw [hm]; exact hx
  refine ⟨rest, _, h.exchange ptr (.taken t externalCount) ?_ ?_ ?_ ?_ ?_ ?_ ?_ ?_ ?_ ?_ ?_ ?_ ?_⟩
  · intro u hu
    exact callsOf_concat_other (Ne.symm hu)
  · rw [hpc]
    rintro q ⟨⟩
    rfl
  · rintro q ⟨⟩
  · simp [hpc, SplitReferenceCountPc.working]
  · exact foreign_of_own (hstatus ▸ .inl rfl) (.inr rfl)
  · exact fun _ => rfl
  · exact hnext ▸ hrest
  · exact (List.nodup_cons.mp h.nodup).2
  · rw [hdata]
    exact h.replays.concat t (.pop x _)
  · intro q count
    by_cases hq : q = ptr
    · subst hq
      simp [hnot]
    · rw [Function.update_of_ne hq, h.listed q count]
      simp [hq]
  · rw [hm]
    refine ⟨hle, m, rfl, hcount, ?_⟩
    omega
  · exact Function.update_self ..
  · rw [callsOf_concat_own, h.calls t, hpc]
    simp [SplitReferenceCountPc.pending]

theorem Rep.swapData (h : Rep s nodes status) {externalCount : ℕ}
    (hpc : s.pc t = .swapData ptr externalCount) :
    ∃ s' status', s.swapData t ptr externalCount = .ok s' ∧ Rep s' nodes status' := by
  have hstatus : status ptr = .taken t externalCount := by
    have hok := h.pcOk t
    rwa [hpc] at hok
  have haccount := h.account ptr
  rw [hstatus] at haccount
  obtain ⟨hle, m, hm, hcount, hsum⟩ := haccount
  refine ⟨_, _, by rw [SplitReferenceCount.swapData, node_eq_ok hm]; rfl,
    h.edit ptr (.taken t externalCount) ?_ ?_ ?_ ?_ ?_ ?_ ?_ ?_ ?_ ?_⟩
  · simp [hpc, SplitReferenceCountPc.holding]
  · simp [SplitReferenceCountPc.holding]
  · simp [hpc, SplitReferenceCountPc.working]
  · exact foreign_of_own (hstatus ▸ .inr rfl) (.inr rfl)
  · exact fun _ => rfl
  · simp [hstatus]
  · intro _ m' hm'
    cases hm.symm.trans hm'
    exact ⟨_, rfl, rfl, by simp [hstatus]⟩
  · rw [holders_same (by rw [hpc]; rfl)]
    exact ⟨hle, _, rfl, hcount, hsum⟩
  · exact Function.update_self ..
  · rw [hpc]
    simp [SplitReferenceCountPc.pending, hm]

/-- The sum of the two counts is the number of threads that still hold the node. -/
theorem Rep.addCount (h : Rep s nodes status) {externalCount : ℕ} {res : Option T}
    (hpc : s.pc t = .addCount ptr externalCount res) :
    ∃ s' status', s.addCount t ptr externalCount res = .ok s' ∧ Rep s' nodes status' := by
  have hstatus : status ptr = .taken t externalCount := by
    have hok := h.pcOk t
    rwa [hpc] at hok
  have haccount := h.account ptr
  rw [hstatus] at haccount
  obtain ⟨hle, m, hm, hcount, hsum⟩ := haccount
  have hadd : (m.add ((externalCount : ℤ) - 2)).internalCount = s.holders ptr := by
    change Int.bmod (m.internalCount + ((externalCount : ℤ) - 2)) (2 ^ 32) = s.holders ptr
    rw [show m.internalCount + ((externalCount : ℤ) - 2) = s.holders ptr by omega]
    unfold intMax at hle
    exact Int.bmod_eq_of_le (by omega) (by omega)
  have hsame : ∀ pc' : SplitReferenceCountPc T, pc'.holding = none →
      count (SplitReferenceCountPc.holding ∘ Function.update s.pc t pc') ptr = s.holders ptr := by
    intro pc' hnone
    exact holders_same (by rw [hnone, hpc]; rfl)
  unfold SplitReferenceCount.addCount
  rw [node_eq_ok hm]
  by_cases hlast : m.internalCount = -((externalCount : ℤ) - 2)
  · refine ⟨_, _, if_pos hlast, h.edit ptr (.dying t) ?_ ?_ ?_ ?_ ?_ ?_ ?_ ?_ ?_ ?_⟩
    · simp [hpc, SplitReferenceCountPc.holding]
    · simp [SplitReferenceCountPc.holding]
    · simp [hpc, SplitReferenceCountPc.working]
    · exact foreign_of_own (hstatus ▸ .inr rfl) (.inr rfl)
    · exact fun _ => rfl
    · simp [hstatus]
    · intro _ m' hm'
      cases hm.symm.trans hm'
      exact ⟨_, rfl, rfl, by simp [hstatus]⟩
    · rw [hsame _ rfl]
      exact ⟨by omega, _, rfl⟩
    · exact Function.update_self ..
    · rw [hpc]
      rfl
  · refine ⟨_, _, if_neg hlast, h.edit ptr .shared ?_ ?_ ?_ ?_ ?_ ?_ ?_ ?_ ?_ ?_⟩
    · simp [hpc, SplitReferenceCountPc.holding]
    · simp [SplitReferenceCountPc.holding]
    · simp [hpc, SplitReferenceCountPc.working]
    · exact foreign_of_own (hstatus ▸ .inr rfl) (.inl rfl)
    · rintro ⟨⟩
    · simp [hstatus]
    · intro _ m' hm'
      cases hm.symm.trans hm'
      exact ⟨_, rfl, rfl, by simp [hstatus]⟩
    · rw [hsame _ rfl]
      exact ⟨by omega, by omega, _, rfl, hadd⟩
    · trivial
    · rw [hpc]
      rfl

theorem Rep.delete (h : Rep s nodes status) (pc : SplitReferenceCountPc T)
    (calls : List (StackCall T)) (hstatus : status ptr = .dying t)
    (hwork : (s.pc t).working = some ptr) (hhold : (s.pc t).holding = none)
    (hhold' : pc.holding = none) (hok : PcOk (Function.update s.heap ptr none)
      (Function.update status ptr .free) t pc)
    (hcalls : (s.pc t).pending s.heap = calls ++ pc.pending (Function.update s.heap ptr none)) :
    (∃ m, s.heap ptr = some m) ∧
      Rep (s.edit t ptr none pc calls) nodes (Function.update status ptr .free) := by
  have haccount := h.account ptr
  rw [hstatus] at haccount
  obtain ⟨hholders, m, hm⟩ := haccount
  refine ⟨⟨m, hm⟩, h.edit ptr .free ?_ ?_ ?_ ?_ ?_ ?_ ?_ ?_ hok hcalls⟩
  · simp [hhold]
  · simp [hhold']
  · simp [hwork]
  · exact foreign_of_own (hstatus ▸ .inr rfl) (.inl rfl)
  · rintro ⟨⟩
  · simp [hstatus]
  · rintro (hheld | ⟨count, hlisted⟩)
    · omega
    · rw [hstatus] at hlisted
      cases hlisted
  · rw [holders_same (by rw [hhold', hhold])]
    exact ⟨rfl, hholders⟩

theorem Rep.deleteTaken (h : Rep s nodes status) {res : Option T}
    (hpc : s.pc t = .deleteTaken ptr res) :
    ∃ s' status', s.deleteTaken t ptr res = .ok s' ∧ Rep s' nodes status' := by
  have hstatus : status ptr = .dying t := by
    have hok := h.pcOk t
    rwa [hpc] at hok
  obtain ⟨⟨m, hm⟩, hrep⟩ := h.delete .idle [.pop res] hstatus (by rw [hpc]; rfl)
    (by rw [hpc]; rfl) rfl trivial (by rw [hpc]; rfl)
  exact ⟨_, _, by rw [SplitReferenceCount.deleteTaken, node_eq_ok hm]; rfl, hrep⟩

theorem Rep.deleteReleased (h : Rep s nodes status) {oldHead : CountedNodePtr}
    (hpc : s.pc t = .deleteReleased ptr oldHead) :
    ∃ s' status', s.deleteReleased t ptr oldHead = .ok s' ∧ Rep s' nodes status' := by
  have hstatus : status ptr = .dying t := by
    have hok := h.pcOk t
    rwa [hpc] at hok
  obtain ⟨⟨m, hm⟩, hrep⟩ := h.delete (.increase oldHead) [] hstatus
    (by rw [hpc]; rfl) (by rw [hpc]; rfl) rfl trivial (by rw [hpc]; rfl)
  exact ⟨_, _, by rw [SplitReferenceCount.deleteReleased, node_eq_ok hm]; rfl, hrep⟩

/-- The thread stops holding the node. -/
theorem Rep.release (h : Rep s nodes status) {oldHead : CountedNodePtr}
    (hpc : s.pc t = .release ptr oldHead) :
    ∃ s' status', s.release t ptr oldHead = .ok s' ∧ Rep s' nodes status' := by
  have haccount := h.account ptr
  have hheld : 0 < s.holders ptr := count_pos_iff.mpr ⟨t, by simp [hpc, SplitReferenceCountPc.holding]⟩
  have hleave : ∀ pc' : SplitReferenceCountPc T, pc'.holding = none →
      count (SplitReferenceCountPc.holding ∘ Function.update s.pc t pc') ptr + 1 = s.holders ptr := by
    intro pc' hnone
    exact holders_leave (by rw [hpc]; rfl) hnone
  have howner : (status ptr).owner ≠ some t := by
    intro ho
    have hworking := h.owned ptr t ho
    rw [hpc] at hworking
    cases hworking
  obtain ⟨m, hm⟩ := haccount.live hheld
  have hrelease : s.release t ptr oldHead = if m.internalCount = 1 then
      .ok (s.edit t ptr (some (m.add (-1))) (.deleteReleased ptr oldHead) [])
      else .ok (s.edit t ptr (some (m.add (-1))) (.increase oldHead) []) := by
    rw [SplitReferenceCount.release, node_eq_ok hm]
    rfl
  rw [hrelease]
  -- while the list or the thread that took the node is counted, the internal count is not positive
  have hcounted : m.internalCount ≤ 0 → (∀ k, k + 1 = s.holders ptr →
      Account k (status ptr) (some (m.add (-1)))) →
      ∃ status', Rep (s.edit t ptr (some (m.add (-1))) (.increase oldHead) []) nodes status' := by
    intro _ hk
    refine ⟨_, h.edit ptr (status ptr) ?_ ?_ ?_ ?_ ?_ ?_ ?_ ?_ ?_ ?_⟩
    · rw [hpc]
      rintro q ⟨⟩
      rfl
    · rintro q ⟨⟩
    · simp [hpc, SplitReferenceCountPc.working]
    · exact fun _ _ _ => ⟨rfl, by rw [hm]; rfl⟩
    · exact fun ho => (howner ho).elim
    · exact fun _ => Iff.rfl
    · intro _ m' hm'
      cases hm.symm.trans hm'
      exact ⟨_, rfl, rfl, fun _ => rfl⟩
    · exact hk _ (hleave _ rfl)
    · trivial
    · rw [hpc]
      rfl
  have hadd : -(2 ^ 31 - 2 : ℤ) ≤ m.internalCount → m.internalCount ≤ 2 ^ 31 - 1 →
      (m.add (-1)).internalCount = m.internalCount - 1 := by
    intro hlo hhi
    exact Int.bmod_eq_of_le (by omega) (by omega)
  cases hstatus : status ptr with
  | free =>
    rw [hstatus] at haccount
    exact absurd haccount.2 hheld.ne'
  | fresh u | dying u =>
    rw [hstatus] at haccount
    exact absurd haccount.1 hheld.ne'
  | listed externalCount =>
    rw [hstatus, hm] at haccount
    obtain ⟨hle, _, ⟨⟩, hcount, hsum⟩ := haccount
    unfold intMax at hle
    rw [hstatus] at hcounted
    refine ⟨_, (hcounted hcount ?_).imp fun _ hrep => ⟨if_neg (by omega), hrep⟩⟩
    intro k hk
    refine ⟨hle, _, rfl, ?_⟩
    rw [hadd (by omega) (by omega)]
    omega
  | taken u externalCount =>
    rw [hstatus, hm] at haccount
    obtain ⟨hle, _, ⟨⟩, hcount, hsum⟩ := haccount
    unfold intMax at hle
    rw [hstatus] at hcounted
    refine ⟨_, (hcounted hcount ?_).imp fun _ hrep => ⟨if_neg (by omega), hrep⟩⟩
    intro k hk
    refine ⟨hle, _, rfl, ?_⟩
    rw [hadd (by omega) (by omega)]
    omega
  | shared =>
    rw [hstatus, hm] at haccount
    obtain ⟨_, hle, _, ⟨⟩, hcount⟩ := haccount
    unfold intMax at hle
    by_cases hlast : m.internalCount = 1
    · have hk := hleave (.deleteReleased ptr oldHead) rfl
      refine ⟨_, _, if_pos hlast, h.edit ptr (.dying t) ?_ ?_ ?_ ?_ ?_ ?_ ?_ ?_ ?_ ?_⟩
      · rw [hpc]
        rintro q ⟨⟩
        rfl
      · rintro q ⟨⟩
      · simp [hpc, SplitReferenceCountPc.working]
      · exact foreign_of_own (hstatus ▸ .inl rfl) (.inr rfl)
      · exact fun _ => rfl
      · simp [hstatus]
      · intro _ m' hm'
        cases hm.symm.trans hm'
        exact ⟨_, rfl, rfl, fun _ => rfl⟩
      · exact ⟨by omega, _, rfl⟩
      · exact Function.update_self ..
      · rw [hpc]
        rfl
    · have hk := hleave (.increase oldHead) rfl
      refine ⟨_, _, if_neg hlast, h.edit ptr .shared ?_ ?_ ?_ ?_ ?_ ?_ ?_ ?_ ?_ ?_⟩
      · rw [hpc]
        rintro q ⟨⟩
        rfl
      · rintro q ⟨⟩
      · simp [hpc, SplitReferenceCountPc.working]
      · exact foreign_of_own (hstatus ▸ .inl rfl) (.inl rfl)
      · rintro ⟨⟩
      · simp [hstatus]
      · intro _ m' hm'
        cases hm.symm.trans hm'
        exact ⟨_, rfl, rfl, fun _ => rfl⟩
      · refine ⟨by omega, by unfold intMax; omega, _, rfl, ?_⟩
        rw [hadd (by omega) (by omega)]
        omega
      · trivial
      · rw [hpc]
        rfl

/-- What the code promises of a state. -/
def Good (s : SplitReferenceCount τ T) : Prop := ∃ nodes status, Rep s nodes status

theorem good_init : Good ({} : SplitReferenceCount τ T) := by
  refine ⟨[], fun _ => .free, .nil 0, List.nodup_nil, .nil, ?_, ?_, ?_, fun _ => trivial, fun _ => rfl⟩
  · simp
  · intro ptr
    exact ⟨rfl, count_eq_zero_iff.mpr fun t ht => by cases ht⟩
  · rintro ptr t ⟨⟩

theorem Good.loadNext (h : Rep s nodes status) {data : T} {newNode : ℕ}
    (hpc : s.pc t = .loadNext data newNode) :
    ∃ s', s.loadNext t data newNode = .ok s' ∧ Good s' := by
  have hok : PcOk s.heap status t (.loadNext data newNode) := by
    have hok := h.pcOk t
    rwa [hpc] at hok
  obtain ⟨_, m, hm, _⟩ := hok
  unfold SplitReferenceCount.loadNext
  rw [node_eq_ok hm]
  exact ⟨_, rfl, nodes, h.setNext (.inl hpc) hm s.head⟩

theorem Good.link (h : Rep s nodes status) {data : T} {newNode : ℕ} {spurious : Bool}
    (hpc : s.pc t = .link data newNode) :
    ∃ s', s.link t spurious data newNode = .ok s' ∧ Good s' := by
  have hok : PcOk s.heap status t (.link data newNode) := by
    have hok := h.pcOk t
    rwa [hpc] at hok
  obtain ⟨_, m, hm, _⟩ := hok
  unfold SplitReferenceCount.link
  rw [node_eq_ok hm]
  by_cases hcas : s.head = m.next ∧ spurious = false
  · exact ⟨_, if_pos hcas, h.linkNode hpc hm hcas.1⟩
  · exact ⟨_, if_neg hcas, nodes, h.setNext (.inr hpc) hm s.head⟩

theorem Good.increase (h : Rep s nodes status) {oldHead : CountedNodePtr}
    (hpc : s.pc t = .increase oldHead) :
    (s.increase t oldHead = .error .overflow ∧ intMax ≤ oldHead.externalCount) ∨
      ∃ s', s.increase t oldHead = .ok s' ∧ Good s' := by
  unfold SplitReferenceCount.increase
  by_cases hlt : oldHead.externalCount < intMax
  · rw [if_pos hlt]
    refine .inr ?_
    by_cases hcas : s.head = oldHead
    · rw [if_pos hcas]
      obtain ⟨externalCount, ptr⟩ := oldHead
      cases ptr with
      | none => exact ⟨_, rfl, h.countNull hpc hcas⟩
      | some ptr => exact ⟨_, rfl, h.countTop hpc hcas hlt⟩
    · rw [if_neg hcas]
      exact ⟨_, rfl, nodes, status, h.goto (by rw [hpc]; rfl) (by rw [hpc]; rfl) (by rw [hpc]; rfl)
        trivial⟩
  · exact .inl ⟨if_neg hlt, Nat.le_of_not_lt hlt⟩

theorem Good.readNext (h : Rep s nodes status) {externalCount : ℕ}
    (hpc : s.pc t = .readNext ptr externalCount) :
    ∃ s', s.readNext t ptr externalCount = .ok s' ∧ Good s' := by
  have hheld : 0 < s.holders ptr := count_pos_iff.mpr ⟨t, by simp [hpc, SplitReferenceCountPc.holding]⟩
  obtain ⟨m, hm⟩ := (h.account ptr).live hheld
  unfold SplitReferenceCount.readNext
  rw [node_eq_ok hm]
  exact ⟨_, rfl, nodes, status, h.goto (by rw [hpc]; rfl) (by rw [hpc]; rfl) (by rw [hpc]; rfl)
    ⟨m, hm, rfl⟩⟩

theorem Good.unlink (h : Rep s nodes status) {externalCount : ℕ} {next : CountedNodePtr}
    (hpc : s.pc t = .unlink ptr externalCount next) : Good (s.unlink t ptr externalCount next) := by
  unfold SplitReferenceCount.unlink
  split
  · next hhead => exact h.takeTop hpc hhead
  · exact ⟨nodes, status, h.goto (by rw [hpc]; rfl) (by rw [hpc]; rfl) (by rw [hpc]; rfl) trivial⟩

/-- Only the increment of an external count can fail. -/
theorem Good.step (h : Good s) (a : SplitReferenceCountAction τ T) :
    (s.step a = .error .overflow ∧
      ∃ oldHead, s.pc a.thread = .increase oldHead ∧ intMax ≤ oldHead.externalCount) ∨
      ∃ s', s.step a = .ok s' ∧ Good s' := by
  obtain ⟨nodes, status, h⟩ := h
  unfold SplitReferenceCount.step
  cases hpc : s.pc a.thread with
  | idle =>
    cases a.push with
    | none =>
      exact .inr ⟨_, rfl, nodes, status, h.goto (by rw [hpc]; rfl) (by rw [hpc]; rfl)
        (by rw [hpc]; rfl) trivial⟩
    | some call => exact .inr ⟨_, rfl, nodes, h.push hpc call.1 call.2⟩
  | loadNext data newNode => exact .inr (Good.loadNext h hpc)
  | link data newNode => exact .inr (Good.link h hpc)
  | loadHead =>
    exact .inr ⟨_, rfl, nodes, status, h.goto (by rw [hpc]; rfl) (by rw [hpc]; rfl)
      (by rw [hpc]; rfl) trivial⟩
  | increase oldHead =>
    rcases Good.increase h hpc with ⟨hs, hmax⟩ | hs
    · exact .inl ⟨hs, oldHead, rfl, hmax⟩
    · exact .inr hs
  | readNext ptr externalCount => exact .inr (Good.readNext h hpc)
  | unlink ptr externalCount next => exact .inr ⟨_, rfl, Good.unlink h hpc⟩
  | swapData ptr externalCount =>
    obtain ⟨s', status', hs, hrep⟩ := h.swapData hpc
    exact .inr ⟨s', hs, nodes, status', hrep⟩
  | addCount ptr externalCount res =>
    obtain ⟨s', status', hs, hrep⟩ := h.addCount hpc
    exact .inr ⟨s', hs, nodes, status', hrep⟩
  | deleteTaken ptr res =>
    obtain ⟨s', status', hs, hrep⟩ := h.deleteTaken hpc
    exact .inr ⟨s', hs, nodes, status', hrep⟩
  | release ptr oldHead =>
    obtain ⟨s', status', hs, hrep⟩ := h.release hpc
    exact .inr ⟨s', hs, nodes, status', hrep⟩
  | deleteReleased ptr oldHead =>
    obtain ⟨s', status', hs, hrep⟩ := h.deleteReleased hpc
    exact .inr ⟨s', hs, nodes, status', hrep⟩

/-- A thread leaves a node to nobody: when no thread is in a call, the nodes of the list are the ones
in use. -/
theorem Rep.isSome_iff (h : Rep s nodes status) (hidle : ∀ t, s.pc t = .idle) (ptr : ℕ) :
    (s.heap ptr).isSome ↔ ptr ∈ nodes.map Prod.fst := by
  have hholders : s.holders ptr = 0 := by
    refine count_eq_zero_iff.mpr ?_
    intro t
    simp [hidle, SplitReferenceCountPc.holding]
  have hnobody : ∀ u, (status ptr).owner ≠ some u := by
    intro u ho
    have hworking := h.owned ptr u ho
    rw [hidle] at hworking
    cases hworking
  have haccount := h.account ptr
  constructor
  · intro hsome
    cases hstatus : status ptr with
    | free =>
      rw [hstatus] at haccount
      rw [haccount.1] at hsome
      cases hsome
    | fresh u | taken u count | dying u => exact (hnobody u (by rw [hstatus]; rfl)).elim
    | listed count =>
      obtain ⟨x, hmem⟩ := (h.listed ptr count).mp hstatus
      exact List.mem_map.mpr ⟨_, hmem, rfl⟩
    | shared =>
      rw [hstatus] at haccount
      exact absurd hholders haccount.1.ne'
  · intro hmem
    obtain ⟨⟨_, count, x⟩, hnode, rfl⟩ := List.mem_map.mp hmem
    rw [(h.listed _ count).mpr ⟨x, hnode⟩] at haccount
    obtain ⟨_, m, hm, _⟩ := haccount
    rw [hm]
    rfl

end Steps

end SplitReferenceCount
end HighPerformance
