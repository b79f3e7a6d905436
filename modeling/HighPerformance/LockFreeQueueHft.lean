import HighPerformance.FallibleRun
import HighPerformance.SinglyLinked

/-!
# The queue of shared pointers

`LockFreeQueue` of `lockfree_queue_hft_interview.h`, called from one thread. A weak
`compare_exchange` may fail although it finds what it expects; each call has the
number of such failures as an input. A node that a `shared_ptr` points at is not
deleted, so a node of the model stays in the heap.

`pop` does not touch `_tail`. After a queue has been emptied `_tail` points at a node
that was popped, and a `push` links its node behind that one.
-/

namespace HighPerformance
open FallibleRun SinglyLinked

structure LockFreeQueueHft (T : Type) where
  heap : ℕ → Option (Node T) := fun _ => none
  allocated : ℕ := 0
  head : Option ℕ := none
  tail : Option ℕ := none

inductive QueueCall (T : Type) where
  | push (data : T) (spurious : ℕ)
  | pop (spurious : ℕ)

namespace LockFreeQueueHft
variable {T : Type}

/-- The loop of `push`. It returns the value of `_tail` that was replaced. A failure
loads `_tail` anew, whether it was spurious or not. -/
def exchangeTail (s : LockFreeQueueHft T) (newNode : ℕ) :
    ℕ → Option ℕ → Option ℕ × LockFreeQueueHft T
  | spurious + 1, _ => s.exchangeTail newNode spurious s.tail
  | 0, oldTail =>
      if s.tail = oldTail then (oldTail, { s with tail := some newNode })
      else (s.tail, { s with tail := some newNode })

def next (s : LockFreeQueueHft T) (address : ℕ) : Option ℕ := (s.heap address).bind Node.next

def setNext (s : LockFreeQueueHft T) (address newNode : ℕ) : LockFreeQueueHft T :=
  { s with
    heap := Function.update s.heap address
      ((s.heap address).map fun n => { n with next := some newNode }) }

def push (s : LockFreeQueueHft T) (data : T) (spurious : ℕ) : LockFreeQueueHft T :=
  let newNode := s.allocated
  let s := { s with
    heap := Function.update s.heap newNode (some ⟨data, none⟩), allocated := s.allocated + 1 }
  let (oldTail, s) := s.exchangeTail newNode spurious s.tail
  match oldTail with
  | some oldTail => s.setNext oldTail newNode
  | none => { s with head := some newNode }

/-- The loop of `pop`. It returns the value of `_head` that was replaced, or null. -/
def exchangeHead (s : LockFreeQueueHft T) :
    ℕ → Option ℕ → Option ℕ × LockFreeQueueHft T
  | _, none => (none, s)
  | spurious + 1, some _ => s.exchangeHead spurious s.head
  | 0, some oldHead =>
      if s.head = some oldHead then (some oldHead, { s with head := s.next oldHead })
      else (s.head, { s with head := s.head.bind s.next })

def pop (s : LockFreeQueueHft T) (spurious : ℕ) : Option T × LockFreeQueueHft T :=
  let (oldHead, s) := s.exchangeHead spurious s.head
  (oldHead.bind fun oldHead => (s.heap oldHead).map Node.data, s)

def step (s : LockFreeQueueHft T) : QueueCall T → LockFreeQueueHft T
  | .push data spurious => s.push data spurious
  | .pop spurious => (s.pop spurious).2

end LockFreeQueueHft

namespace QueueCall
variable {T : Type}

/-- What a queue holds, the oldest value first. -/
def deliver (held : List T) : QueueCall T → List T
  | .push data _ => held ++ [data]
  | .pop _ => held.tail

def contents (calls : List (QueueCall T)) : List T := calls.foldl deliver []

def Pushed (calls : List (QueueCall T)) : Prop := ∃ data spurious, .push data spurious ∈ calls

/-- Among the calls is a `push` into a queue that has been emptied. -/
def Refilled (calls : List (QueueCall T)) : Prop :=
  ∃ before data spurious, before ++ [.push data spurious] <+: calls ∧
    contents before = [] ∧ Pushed before

section Calls
variable {calls : List (QueueCall T)} {call : QueueCall T}

theorem contents_concat : contents (calls ++ [call]) = deliver (contents calls) call := by
  rw [contents, List.foldl_append]
  rfl

theorem pushed_concat_pop {spurious : ℕ} :
    Pushed (calls ++ [.pop spurious]) ↔ Pushed calls := by
  simp [Pushed]

theorem pushed_concat_push {data : T} {spurious : ℕ} :
    Pushed (calls ++ [.push data spurious]) :=
  ⟨data, spurious, List.mem_concat_self⟩

theorem refilled_nil : ¬Refilled ([] : List (QueueCall T)) := by
  rintro ⟨before, data, spurious, hprefix, -⟩
  simp at hprefix

theorem refilled_concat_pop {spurious : ℕ} :
    Refilled (calls ++ [.pop spurious]) ↔ Refilled calls := by
  simp [Refilled, List.prefix_concat_iff]

theorem refilled_concat_push {data : T} {spurious : ℕ} :
    Refilled (calls ++ [.push data spurious]) ↔
      (contents calls = [] ∧ Pushed calls) ∨ Refilled calls := by
  constructor
  · rintro ⟨before, x, n, hprefix, hempty, hpushed⟩
    rcases List.prefix_concat_iff.mp hprefix with heq | hold
    · obtain ⟨rfl, -⟩ := List.append_inj' heq rfl
      exact .inl ⟨hempty, hpushed⟩
    · exact .inr ⟨before, x, n, hold, hempty, hpushed⟩
  · rintro (⟨hempty, hpushed⟩ | ⟨before, x, n, hprefix, hempty, hpushed⟩)
    · exact ⟨calls, data, spurious, List.prefix_refl _, hempty, hpushed⟩
    · exact ⟨before, x, n, hprefix.trans (List.prefix_append _ _), hempty, hpushed⟩

end Calls

end QueueCall

namespace LockFreeQueueHft
open QueueCall
variable {T : Type}

section Steps
variable {s : LockFreeQueueHft T} {calls : List (QueueCall T)} {nodes : List (ℕ × T)}

theorem exchangeTail_eq (newNode spurious : ℕ) (oldTail : Option ℕ) :
    s.exchangeTail newNode spurious oldTail = (s.tail, { s with tail := some newNode }) := by
  induction spurious generalizing oldTail with
  | zero =>
    unfold exchangeTail
    split
    · next h => rw [h]
    · rfl
  | succ spurious ih => exact ih s.tail

theorem exchangeHead_eq (spurious : ℕ) : s.exchangeHead spurious s.head =
    (s.head, { s with head := s.head.bind s.next }) := by
  cases hs : s.head with
  | none =>
    have hsame : s = { s with head := none } := by rw [← hs]
    unfold exchangeHead
    exact congrArg (Prod.mk none) hsame
  | some oldHead =>
    induction spurious with
    | zero =>
      unfold exchangeHead
      rw [if_pos hs]
      rfl
    | succ spurious ih =>
      unfold exchangeHead
      rw [hs, ih]

theorem pop_eq (s : LockFreeQueueHft T) (spurious : ℕ) : s.pop spurious =
    (s.head.bind fun oldHead => (s.heap oldHead).map Node.data,
      { s with head := s.head.bind s.next }) := by
  unfold pop
  rw [exchangeHead_eq]

/-- Before the first refill. `_tail` is null as long as nothing was pushed, and points
at the last node that was ever pushed from then on. -/
structure Rep (s : LockFreeQueueHft T) (calls : List (QueueCall T)) (nodes : List (ℕ × T)) :
    Prop where
  linked : Linked s.heap s.head nodes
  nodup : (nodes.map Prod.fst).Nodup
  fresh : ∀ a ∈ nodes.map Prod.fst, a < s.allocated
  contents : nodes.map Prod.snd = contents calls
  tail : nodes ≠ [] → s.tail = last nodes
  neverPushed : s.tail = none ↔ ¬Pushed calls

/-- From the first refill to the next `pop`. -/
structure Stranded (s : LockFreeQueueHft T) (calls : List (QueueCall T)) : Prop where
  head : s.head = none
  tail : s.tail ≠ none
  contents : contents calls ≠ []

theorem rep_init : Rep ({} : LockFreeQueueHft T) [] [] := by
  constructor
  · rfl
  · exact List.nodup_nil
  · intro a ha
    cases ha
  · rfl
  · intro hne
    exact (hne rfl).elim
  · simp [Pushed]

theorem push_of_tail_none (s : LockFreeQueueHft T) (data : T) (spurious : ℕ)
    (htail : s.tail = none) : s.push data spurious =
      { s with
        heap := Function.update s.heap s.allocated (some ⟨data, none⟩)
        allocated := s.allocated + 1
        head := some s.allocated
        tail := some s.allocated } := by
  simp only [push, exchangeTail_eq, htail]

theorem push_of_tail_some (s : LockFreeQueueHft T) (data : T) (spurious : ℕ) {oldTail : ℕ}
    (htail : s.tail = some oldTail) : s.push data spurious =
      setNext { s with
        heap := Function.update s.heap s.allocated (some ⟨data, none⟩)
        allocated := s.allocated + 1
        tail := some s.allocated } oldTail s.allocated := by
  simp only [push, exchangeTail_eq, htail]

theorem Rep.pop (h : Rep s calls nodes) (spurious : ℕ) :
    (s.pop spurious).1 = (QueueCall.contents calls).head? ∧
      ∃ nodes', Rep (s.pop spurious).2 (calls ++ [.pop spurious]) nodes' := by
  rw [pop_eq, ← h.contents]
  cases nodes with
  | nil =>
    have hhead : s.head = none := h.linked
    rw [hhead]
    refine ⟨rfl, [], ?_⟩
    constructor
    · rfl
    · exact List.nodup_nil
    · intro a ha
      cases ha
    · rw [contents_concat, ← h.contents]
      rfl
    · intro hne
      exact (hne rfl).elim
    · rw [pushed_concat_pop]
      exact h.neverPushed
  | cons n rest =>
    obtain ⟨hhead, next, hnode, hrest⟩ := h.linked
    have hnext : s.next n.1 = next := by
      rw [LockFreeQueueHft.next, hnode]
      rfl
    rw [hhead]
    refine ⟨by rw [Option.bind_some, hnode]; rfl, rest, ?_⟩
    constructor
    · change Linked s.heap (s.next n.1) rest
      rw [hnext]
      exact hrest
    · exact (List.nodup_cons.mp h.nodup).2
    · exact fun a ha => h.fresh a (List.mem_cons_of_mem _ ha)
    · rw [contents_concat, ← h.contents]
      rfl
    · intro hne
      have htail := h.tail (List.cons_ne_nil _ _)
      exact htail.trans (last_cons hne)
    · rw [pushed_concat_pop]
      exact h.neverPushed

theorem Rep.push (h : Rep s calls nodes) (data : T) (spurious : ℕ)
    (hrefill : ¬(QueueCall.contents calls = [] ∧ Pushed calls)) :
    ∃ nodes', Rep (s.push data spurious) (calls ++ [.push data spurious]) nodes' := by
  have hnew : s.allocated ∉ nodes.map Prod.fst := fun hmem =>
    Nat.lt_irrefl _ (h.fresh _ hmem)
  have hlinked := h.linked.update hnew (some ⟨data, none⟩)
  have hnodup : ((nodes ++ [(s.allocated, data)]).map Prod.fst).Nodup := by
    rw [List.map_append, List.map_singleton, ← List.concat_eq_append]
    exact h.nodup.concat hnew
  have hfresh : ∀ a ∈ (nodes ++ [(s.allocated, data)]).map Prod.fst, a < s.allocated + 1 := by
    intro a ha
    rw [List.map_append, List.mem_append] at ha
    rcases ha with hold | hlast
    · exact Nat.lt_succ_of_lt (h.fresh a hold)
    · rw [List.mem_singleton.mp hlast]
      exact Nat.lt_succ_self _
  have hcontents : (nodes ++ [(s.allocated, data)]).map Prod.snd =
      QueueCall.contents (calls ++ [.push data spurious]) := by
    rw [contents_concat, List.map_append, h.contents]
    rfl
  refine ⟨nodes ++ [(s.allocated, data)], ?_⟩
  by_cases hempty : nodes = []
  · subst hempty
    have hnever : s.tail = none := by
      rw [h.neverPushed]
      exact fun hpushed => hrefill ⟨h.contents.symm, hpushed⟩
    rw [push_of_tail_none s data spurious hnever]
    constructor
    · exact ⟨rfl, none, Function.update_self _ _ _, rfl⟩
    · exact hnodup
    · exact hfresh
    · exact hcontents
    · exact fun _ => rfl
    · simp [pushed_concat_push]
  · obtain ⟨a, ha⟩ := Option.ne_none_iff_exists'.mp (mt last_eq_none_iff.mp hempty)
    obtain ⟨front, x, rfl⟩ := exists_of_last ha
    rw [push_of_tail_some s data spurious ((h.tail hempty).trans ha)]
    constructor
    · have hnode := hlinked.last_node
      have hconcat := hlinked.concat h.nodup hnew (Function.update_self _ _ _)
      simpa only [setNext, hnode, Option.map_some] using hconcat
    · exact hnodup
    · exact hfresh
    · exact hcontents
    · exact fun _ => last_concat.symm
    · simp [setNext, pushed_concat_push]

/-- The `push` after the last `pop` of all values: `_head` stays null. -/
theorem Rep.refill (h : Rep s calls nodes) (data : T) (spurious : ℕ)
    (hempty : QueueCall.contents calls = []) (hpushed : Pushed calls) :
    Stranded (s.push data spurious) (calls ++ [.push data spurious]) := by
  have hnil : nodes = [] := List.map_eq_nil_iff.mp (h.contents.trans hempty)
  subst hnil
  obtain ⟨a, ha⟩ := Option.ne_none_iff_exists'.mp fun hnone => h.neverPushed.mp hnone hpushed
  rw [push_of_tail_some s data spurious ha]
  constructor
  · exact h.linked
  · exact Option.some_ne_none _
  · rw [contents_concat, hempty]
    exact List.cons_ne_nil _ _

theorem Stranded.push (h : Stranded s calls) (data : T) (spurious : ℕ) :
    Stranded (s.push data spurious) (calls ++ [.push data spurious]) := by
  obtain ⟨a, ha⟩ := Option.ne_none_iff_exists'.mp h.tail
  rw [push_of_tail_some s data spurious ha]
  constructor
  · exact h.head
  · exact Option.some_ne_none _
  · rw [contents_concat]
    exact List.append_ne_nil_of_right_ne_nil _ (List.cons_ne_nil _ _)

end Steps

/-- Every `pop` returns the oldest value left, or nothing when none is left, exactly when no `pop`
comes after a `push` into a queue that had been emptied. -/
theorem pop_returns_oldest_iff (calls : List (QueueCall T)) :
    (∀ done call, done ++ [call] <+: calls → ∀ spurious, call = .pop spurious →
      ((done.foldl step {}).pop spurious).1 = (contents done).head?) ↔
      ∀ done call, done ++ [call] <+: calls → ∀ spurious, call = .pop spurious →
        ¬Refilled done := by
  apply forall_history_iff (I := fun done => (¬Refilled done ∧
      ∃ nodes, Rep (done.foldl step {}) done nodes) ∨
    (Refilled done ∧ Stranded (done.foldl step {}) done))
  · exact .inl ⟨refilled_nil, [], rep_init⟩
  · rintro done call (⟨hrefill, nodes, hrep⟩ | ⟨hrefill, hstranded⟩)
    · rw [List.foldl_append]
      cases call with
      | push data spurious =>
        refine ⟨by simp, fun _ => ?_⟩
        rw [refilled_concat_push]
        by_cases hempty : contents done = [] ∧ Pushed done
        · exact .inr ⟨.inl hempty, hrep.refill data spurious hempty.1 hempty.2⟩
        · exact .inl ⟨not_or.mpr ⟨hempty, hrefill⟩, hrep.push data spurious hempty⟩
      | pop spurious =>
        rw [refilled_concat_pop]
        refine ⟨?_, fun _ => .inl ⟨hrefill, (hrep.pop spurious).2⟩⟩
        simpa [hrefill] using (hrep.pop spurious).1
    · rw [List.foldl_append]
      cases call with
      | push data spurious =>
        refine ⟨by simp, fun _ => .inr ⟨?_, hstranded.push data spurious⟩⟩
        rw [refilled_concat_push]
        exact .inr hrefill
      | pop spurious =>
        -- The values are out of reach.
        have hwrong : ((done.foldl step {}).pop spurious).1 ≠ (contents done).head? := by
          rw [pop_eq, hstranded.head]
          intro hnone
          exact hstranded.contents (List.head?_eq_none_iff.mp hnone.symm)
        constructor
        · simp [hwrong, hrefill]
        · intro hallowed
          exact (hallowed spurious rfl hrefill).elim

/-- Push, pop, push, pop: the second value is not found. -/
theorem second_fill_lost : ¬∀ done call,
    done ++ [call] <+: [.push 10 0, .pop 0, .push 20 0, .pop 0] →
    ∀ spurious, call = .pop spurious →
      ((done.foldl step {} : LockFreeQueueHft ℕ).pop spurious).1 = (contents done).head? := by
  intro hright
  have hlost := hright [.push 10 0, .pop 0, .push 20 0] (.pop 0) (List.prefix_refl _) 0 rfl
  cases hlost

end LockFreeQueueHft

end HighPerformance
