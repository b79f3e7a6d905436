import HighPerformance.FallibleRun
import HighPerformance.SinglyLinked

/-!
# The linked queue without a dummy node

`LockFreeQueue_Without_Dummy_Node` under one thread that calls `push` and one that
calls `pop`. An action is one access to a pointer or to the data of a node, or
an allocation or deallocation; all of them are sequentially consistent. The
addresses that `new` returns are chosen by the run and may have been in use
before.
-/

namespace HighPerformance
open FallibleRun SinglyLinked

/-- Where `push` is: not called, before the load of `tail_`, before the store that
makes the node reachable, before the store of `tail_`. -/
inductive DummylessProducer (T : Type) where
  | idle
  | loadTail (value : T) (newNode : ℕ)
  | link (value : T) (newNode : ℕ) (oldTail : Option ℕ)
  | storeTail (newNode : ℕ)

/-- Where `pop` is: not called, before the load of `next_`, before the store of null
into `tail_`, before the store of `head_`, before the copy of the data, before
the deletion. -/
inductive DummylessConsumer (T : Type) where
  | idle
  | readNext (oldHead : ℕ)
  | storeTail (oldHead : ℕ)
  | storeHead (oldHead : ℕ) (next : Option ℕ)
  | readData (oldHead : ℕ)
  | delete (oldHead : ℕ) (value : T)

/-- The queue and its two threads; the values in the order in which their nodes
were made reachable, and the values popped. -/
structure LockFreeQueueWithoutDummyNode (T : Type) where
  heap : ℕ → Option (Node T) := fun _ => none
  head : Option ℕ := none
  tail : Option ℕ := none
  producer : DummylessProducer T := .idle
  consumer : DummylessConsumer T := .idle
  pushed : List T := []
  popped : List T := []

/-- The thread that acts. A call of `push` that begins has `value` as its argument and
gets the memory at `address`, unless that is in use. -/
inductive DummylessThread (T : Type) where
  | producer (value : T) (address : ℕ)
  | consumer

inductive UseAfterFree where
  | useAfterFree
  deriving DecidableEq

namespace DummylessConsumer
variable {T : Type}

/-- The call has seen that its node is the last one, and `head_` still points at
the node. -/
def emptying : DummylessConsumer T → Bool
  | .storeTail _ | .storeHead _ none => true
  | _ => false

/-- The call has already stored null into `tail_`, and `head_` still points at the
node. -/
def drained : DummylessConsumer T → Bool
  | .storeHead _ none => true
  | _ => false

/-- The node that the call has taken off the list. -/
def taken : DummylessConsumer T → Option ℕ
  | .readData oldHead | .delete oldHead _ => some oldHead
  | _ => none

end DummylessConsumer

namespace LockFreeQueueWithoutDummyNode
variable {T : Type}

def node (s : LockFreeQueueWithoutDummyNode T) (address : ℕ) : Except UseAfterFree (Node T) :=
  match s.heap address with
  | some n => .ok n
  | none => .error .useAfterFree

def setNode (s : LockFreeQueueWithoutDummyNode T) (address : ℕ) (n : Option (Node T)) :
    LockFreeQueueWithoutDummyNode T :=
  { s with heap := Function.update s.heap address n }

def push (s : LockFreeQueueWithoutDummyNode T) (value : T) (address : ℕ) :
    Except UseAfterFree (LockFreeQueueWithoutDummyNode T) :=
  match s.producer with
  | .idle =>
      if (s.heap address).isSome then .ok s
      else .ok { s.setNode address (some ⟨value, none⟩) with producer := .loadTail value address }
  | .loadTail value newNode => .ok { s with producer := .link value newNode s.tail }
  | .link value newNode (some oldTail) => do
      let n ← s.node oldTail
      return { s.setNode oldTail (some { n with next := some newNode }) with
        producer := .storeTail newNode, pushed := s.pushed ++ [value] }
  | .link value newNode none =>
      .ok { s with
        head := some newNode, producer := .storeTail newNode, pushed := s.pushed ++ [value] }
  | .storeTail newNode => .ok { s with tail := some newNode, producer := .idle }

def pop (s : LockFreeQueueWithoutDummyNode T) :
    Except UseAfterFree (LockFreeQueueWithoutDummyNode T) :=
  match s.consumer with
  | .idle =>
      match s.head with
      | none => .ok s
      | some oldHead => .ok { s with consumer := .readNext oldHead }
  | .readNext oldHead => do
      let n ← s.node oldHead
      return { s with
        consumer :=
          if n.next.isNone then .storeTail oldHead else .storeHead oldHead n.next }
  | .storeTail oldHead => .ok { s with tail := none, consumer := .storeHead oldHead none }
  | .storeHead oldHead next => .ok { s with head := next, consumer := .readData oldHead }
  | .readData oldHead => do
      let n ← s.node oldHead
      return { s with consumer := .delete oldHead n.data }
  | .delete oldHead value =>
      .ok { s.setNode oldHead none with consumer := .idle, popped := s.popped ++ [value] }

def step (s : LockFreeQueueWithoutDummyNode T) :
    DummylessThread T → Except UseAfterFree (LockFreeQueueWithoutDummyNode T)
  | .producer value address => s.push value address
  | .consumer => s.pop

/-- When `push` makes its node reachable, `tail_` is still what it has loaded, and no
`pop` stands between having read a null `next_` and its store of `head_`. When
`pop` stores null into `tail_`, no `push` stands between its two stores. -/
def KeepsApart (s : LockFreeQueueWithoutDummyNode T) : DummylessThread T → Prop
  | .producer _ _ => ∀ value newNode oldTail, s.producer = .link value newNode oldTail →
      s.tail = oldTail ∧ s.consumer.emptying = false
  | .consumer => ∀ oldHead newNode, s.consumer = .storeTail oldHead →
      s.producer ≠ .storeTail newNode

instance (s : LockFreeQueueWithoutDummyNode T) : DecidablePred s.KeepsApart
  | .producer _ _ =>
      match h : s.producer with
      | .link _ _ oldTail =>
          decidable_of_iff (s.tail = oldTail ∧ s.consumer.emptying = false)
            (by simp [KeepsApart, h])
      | .idle | .loadTail _ _ | .storeTail _ => isTrue (by simp [KeepsApart, h])
  | .consumer =>
      match hc : s.consumer with
      | .storeTail _ =>
          match hp : s.producer with
          | .storeTail _ => isFalse (by simp [KeepsApart, hc, hp])
          | .idle | .loadTail _ _ | .link _ _ _ => isTrue (by simp [KeepsApart, hp])
      | .idle | .readNext _ | .storeHead _ _ | .readData _ | .delete _ _ =>
          isTrue (by simp [KeepsApart, hc])

/-- What is popped comes in the order of the pushes. While no call is in progress a
`pop` fails only when everything is popped, and otherwise the nodes reachable from
`head_` are those not popped yet, `tail_` pointing at the last of them. -/
structure LosesNothing (s : LockFreeQueueWithoutDummyNode T) : Prop where
  inOrder : s.popped <+: s.pushed
  emptied : s.producer = .idle → s.consumer = .idle → s.head = none → s.popped = s.pushed
  reachable : s.producer = .idle → s.consumer = .idle → s.head ≠ none →
    ∃ nodes, Linked s.heap s.head nodes ∧ s.popped ++ nodes.map Prod.snd = s.pushed ∧
      s.tail = last nodes

def ProducerOk (s : LockFreeQueueWithoutDummyNode T) (nodes : List (ℕ × T)) : Prop :=
  match s.producer with
  | .idle => True
  | .loadTail value newNode | .link value newNode _ =>
      s.heap newNode = some ⟨value, none⟩ ∧ newNode ∉ nodes.map Prod.fst ∧
        s.consumer.taken ≠ some newNode
  | .storeTail newNode => last nodes = some newNode ∧ s.consumer.drained = false

def ConsumerOk (s : LockFreeQueueWithoutDummyNode T) (nodes : List (ℕ × T)) : Prop :=
  match s.consumer with
  | .idle => s.popped ++ nodes.map Prod.snd = s.pushed
  | .readNext oldHead => s.popped ++ nodes.map Prod.snd = s.pushed ∧ s.head = some oldHead
  | .storeTail oldHead => s.popped ++ nodes.map Prod.snd = s.pushed ∧
      ∃ x, nodes = [(oldHead, x)]
  | .storeHead oldHead next => s.popped ++ nodes.map Prod.snd = s.pushed ∧
      ∃ x rest, nodes = (oldHead, x) :: rest ∧ next = first rest
  | .readData oldHead => oldHead ∉ nodes.map Prod.fst ∧ ∃ n, s.heap oldHead = some n ∧
      s.popped ++ n.data :: nodes.map Prod.snd = s.pushed
  | .delete oldHead value => oldHead ∉ nodes.map Prod.fst ∧ (s.heap oldHead).isSome ∧
      s.popped ++ value :: nodes.map Prod.snd = s.pushed

structure Rep (s : LockFreeQueueWithoutDummyNode T) (nodes : List (ℕ × T)) : Prop where
  linked : Linked s.heap s.head nodes
  nodup : (nodes.map Prod.fst).Nodup
  tail : (∀ newNode, s.producer ≠ .storeTail newNode) →
    s.tail = if s.consumer.drained then none else last nodes
  producer : ProducerOk s nodes
  consumer : ConsumerOk s nodes

section Steps
variable {s : LockFreeQueueWithoutDummyNode T} {nodes : List (ℕ × T)}

theorem rep_init : Rep ({} : LockFreeQueueWithoutDummyNode T) [] := by
  constructor
  · rfl
  · exact List.nodup_nil
  · intro _
    rfl
  · trivial
  · rfl

theorem Rep.losesNothing (h : Rep s nodes) : s.LosesNothing := by
  have hc := h.consumer
  constructor
  · unfold ConsumerOk at hc
    split at hc
    · exact ⟨_, hc⟩
    · exact ⟨_, hc.1⟩
    · exact ⟨_, hc.1⟩
    · exact ⟨_, hc.1⟩
    · obtain ⟨-, n, -, hpushed⟩ := hc
      exact ⟨_, hpushed⟩
    · exact ⟨_, hc.2.2⟩
  · intro _ hconsumer hhead
    simp only [ConsumerOk, hconsumer, h.linked.eq_nil_iff.mp hhead] at hc
    rw [← hc, List.map_nil, List.append_nil]
  · intro hproducer hconsumer _
    simp only [ConsumerOk, hconsumer] at hc
    refine ⟨nodes, h.linked, hc, ?_⟩
    have htail := h.tail (by simp [hproducer])
    rw [htail, hconsumer]
    rfl

theorem node_eq {address : ℕ} {n : Node T} (h : s.heap address = some n) :
    s.node address = .ok n := by
  simp only [node, h]

theorem ConsumerOk.of_push {t : LockFreeQueueWithoutDummyNode T} (h : ConsumerOk s nodes)
    (hc : t.consumer = s.consumer) (hpopped : t.popped = s.popped) (hpushed : t.pushed = s.pushed)
    (hhead : t.head = s.head) (hheap : ∀ a n, s.heap a = some n → t.heap a = some n) :
    ConsumerOk t nodes := by
  unfold ConsumerOk at h ⊢
  rw [hc, hpopped, hpushed, hhead]
  split at h
  · exact h
  · exact h
  · exact h
  · exact h
  · obtain ⟨hmem, n, hn, hp⟩ := h
    exact ⟨hmem, n, hheap _ n hn, hp⟩
  · obtain ⟨hmem, hlive, hp⟩ := h
    obtain ⟨n, hn⟩ := Option.isSome_iff_exists.mp hlive
    exact ⟨hmem, by rw [hheap _ n hn]; rfl, hp⟩

/-- A node is linked in behind the others while the consumer is not emptying the
list. -/
theorem ConsumerOk.concat {t : LockFreeQueueWithoutDummyNode T} {newNode : ℕ} {x : T}
    (h : ConsumerOk s nodes) (hc : t.consumer = s.consumer) (hpopped : t.popped = s.popped)
    (hpushed : t.pushed = s.pushed ++ [x]) (hhead : ∀ a, s.head = some a → t.head = some a)
    (hemptying : s.consumer.emptying = false) (hnew : s.consumer.taken ≠ some newNode)
    (hheap : ∀ a, s.consumer.taken = some a → t.heap a = s.heap a) :
    ConsumerOk t (nodes ++ [(newNode, x)]) := by
  have happend : ∀ vs : List T, vs ++ nodes.map Prod.snd = s.pushed →
      vs ++ (nodes ++ [(newNode, x)]).map Prod.snd = t.pushed := by
    intro vs hvs
    rw [hpushed, ← hvs, List.map_append, List.append_assoc]
    rfl
  have hmem : ∀ a, s.consumer.taken = some a → a ∉ nodes.map Prod.fst →
      a ∉ (nodes ++ [(newNode, x)]).map Prod.fst := by
    intro a ha hnot
    rw [List.map_append, List.mem_append, not_or]
    refine ⟨hnot, ?_⟩
    simp only [List.map_singleton, List.mem_singleton]
    rintro rfl
    exact hnew ha
  unfold ConsumerOk at h ⊢
  rw [hc, hpopped]
  cases hs : s.consumer with
  | idle =>
    simp only [hs] at h ⊢
    exact happend _ h
  | readNext oldHead =>
    simp only [hs] at h ⊢
    exact ⟨happend _ h.1, hhead _ h.2⟩
  | storeTail oldHead =>
    rw [hs] at hemptying
    cases hemptying
  | storeHead oldHead next =>
    simp only [hs] at h ⊢
    obtain ⟨hp, y, rest, rfl, rfl⟩ := h
    refine ⟨happend _ hp, y, rest ++ [(newNode, x)], rfl, ?_⟩
    cases rest with
    | nil =>
      rw [hs] at hemptying
      cases hemptying
    | cons n rest => rfl
  | readData oldHead =>
    rw [hs] at hmem hheap
    simp only [hs] at h ⊢
    obtain ⟨hnot, n, hn, hp⟩ := h
    refine ⟨hmem _ rfl hnot, n, by rw [hheap _ rfl, hn], ?_⟩
    rw [← List.singleton_append, ← List.append_assoc] at hp ⊢
    exact happend _ hp
  | delete oldHead value =>
    rw [hs] at hmem hheap
    simp only [hs] at h ⊢
    obtain ⟨hnot, hlive, hp⟩ := h
    refine ⟨hmem _ rfl hnot, by rw [hheap _ rfl]; exact hlive, ?_⟩
    rw [← List.singleton_append, ← List.append_assoc] at hp ⊢
    exact happend _ hp

theorem ConsumerOk.taken_live (h : ConsumerOk s nodes) {a : ℕ}
    (ha : s.consumer.taken = some a) : a ∉ nodes.map Prod.fst ∧ (s.heap a).isSome := by
  unfold ConsumerOk at h
  cases hs : s.consumer with
  | readData oldHead =>
    simp only [hs] at h
    rw [hs] at ha
    cases ha
    obtain ⟨hnot, n, hn, -⟩ := h
    exact ⟨hnot, by rw [hn]; rfl⟩
  | delete oldHead value =>
    simp only [hs] at h
    rw [hs] at ha
    cases ha
    exact ⟨h.1, h.2.1⟩
  | _ =>
    rw [hs] at ha
    cases ha

theorem Rep.push_idle (h : Rep s nodes) {value : T} {address : ℕ} (hs : s.producer = .idle) :
    ∃ t, s.push value address = .ok t ∧ Rep t nodes := by
  by_cases hused : (s.heap address).isSome = true
  · exact ⟨s, by simp only [push, hs, hused, if_true], h⟩
  · have hfree : s.heap address = none := Option.not_isSome_iff_eq_none.mp hused
    refine ⟨{ s.setNode address (some ⟨value, none⟩) with producer := .loadTail value address },
      by simp [push, hs, hfree], ?_⟩
    have hnot := h.linked.not_mem hfree
    constructor
    · exact h.linked.update hnot _
    · exact h.nodup
    · intro _
      exact h.tail (by simp [hs])
    · refine ⟨Function.update_self _ _ _, hnot, fun htaken => ?_⟩
      exact hused (h.consumer.taken_live htaken).2
    · refine h.consumer.of_push rfl rfl rfl rfl ?_
      intro a n hn
      have hne : a ≠ address := by
        rintro rfl
        rw [hfree] at hn
        cases hn
      exact (Function.update_of_ne hne _ _).trans hn

theorem Rep.push_loadTail (h : Rep s nodes) {value x : T} {address newNode : ℕ}
    (hs : s.producer = .loadTail x newNode) :
    ∃ t, s.push value address = .ok t ∧ Rep t nodes := by
  have hp := h.producer
  simp only [ProducerOk, hs] at hp
  refine ⟨{ s with producer := .link x newNode s.tail }, by simp only [push, hs], ?_⟩
  constructor
  · exact h.linked
  · exact h.nodup
  · intro _
    exact h.tail (by simp [hs])
  · exact hp
  · exact h.consumer.of_push rfl rfl rfl rfl fun _ _ hn => hn

theorem Rep.push_link (h : Rep s nodes) {value x : T} {address newNode : ℕ} {oldTail : Option ℕ}
    (hs : s.producer = .link x newNode oldTail) (htail : s.tail = oldTail)
    (hemptying : s.consumer.emptying = false) :
    ∃ t, s.push value address = .ok t ∧ Rep t (nodes ++ [(newNode, x)]) := by
  have hp := h.producer
  simp only [ProducerOk, hs] at hp
  obtain ⟨hnew, hnot, htaken⟩ := hp
  have hdrained : s.consumer.drained = false := by
    cases hc : s.consumer with
    | storeHead oldHead next =>
      rw [hc] at hemptying
      cases next with
      | none => cases hemptying
      | some n => rfl
    | _ => rfl
  have hlast : oldTail = last nodes := by
    rw [← htail, h.tail (by simp [hs]), hdrained]
    rfl
  have hnodup : ((nodes ++ [(newNode, x)]).map Prod.fst).Nodup := by
    rw [List.map_append, List.nodup_append]
    refine ⟨h.nodup, List.nodup_singleton _, ?_⟩
    intro a ha b hb hab
    have hb' : b = newNode := List.mem_singleton.mp hb
    exact hnot (hb' ▸ hab ▸ ha)
  cases oldTail with
  | none =>
    have hnil : nodes = [] := last_eq_none_iff.mp hlast.symm
    subst hnil
    have hhead : s.head = none := h.linked
    refine ⟨{ s with
      head := some newNode, producer := .storeTail newNode, pushed := s.pushed ++ [x] },
      by simp only [push, hs], ?_⟩
    constructor
    · exact ⟨rfl, none, hnew, rfl⟩
    · exact hnodup
    · intro hno
      exact (hno newNode rfl).elim
    · exact ⟨last_concat, hdrained⟩
    · refine h.consumer.concat rfl rfl rfl ?_ hemptying htaken fun _ _ => rfl
      intro a ha
      rw [hhead] at ha
      cases ha
  | some a =>
    obtain ⟨front, y, rfl⟩ := exists_of_last hlast.symm
    have hnode := h.linked.last_node
    refine ⟨{ s.setNode a (some ⟨y, some newNode⟩) with
      producer := .storeTail newNode, pushed := s.pushed ++ [x] }, ?_, ?_⟩
    · simp only [push, hs, node_eq hnode]
      rfl
    constructor
    · exact h.linked.concat h.nodup hnot hnew
    · exact hnodup
    · intro hno
      exact (hno newNode rfl).elim
    · exact ⟨last_concat, hdrained⟩
    · refine h.consumer.concat rfl rfl rfl (fun _ ha => ha) hemptying htaken ?_
      intro b hb
      apply Function.update_of_ne
      rintro rfl
      exact (h.consumer.taken_live hb).1 (by simp)

theorem Rep.push_storeTail (h : Rep s nodes) {value : T} {address newNode : ℕ}
    (hs : s.producer = .storeTail newNode) :
    ∃ t, s.push value address = .ok t ∧ Rep t nodes := by
  have hp := h.producer
  simp only [ProducerOk, hs] at hp
  refine ⟨{ s with tail := some newNode, producer := .idle }, by simp only [push, hs], ?_⟩
  constructor
  · exact h.linked
  · exact h.nodup
  · intro _
    change some newNode = if s.consumer.drained then none else last nodes
    rw [hp.1, hp.2]
    rfl
  · trivial
  · exact h.consumer.of_push rfl rfl rfl rfl fun _ _ hn => hn

theorem Rep.push (h : Rep s nodes) (value : T) (address : ℕ)
    (hapart : KeepsApart s (.producer value address)) :
    ∃ t nodes', s.push value address = .ok t ∧ Rep t nodes' := by
  cases hs : s.producer with
  | idle =>
    obtain ⟨t, ht, hrep⟩ := h.push_idle hs
    exact ⟨t, nodes, ht, hrep⟩
  | loadTail x newNode =>
    obtain ⟨t, ht, hrep⟩ := h.push_loadTail hs
    exact ⟨t, nodes, ht, hrep⟩
  | link x newNode oldTail =>
    obtain ⟨htail, hemptying⟩ := hapart x newNode oldTail hs
    obtain ⟨t, ht, hrep⟩ := h.push_link hs htail hemptying
    exact ⟨t, _, ht, hrep⟩
  | storeTail newNode =>
    obtain ⟨t, ht, hrep⟩ := h.push_storeTail hs
    exact ⟨t, nodes, ht, hrep⟩

theorem ProducerOk.of_pop {t : LockFreeQueueWithoutDummyNode T} {nodes' : List (ℕ × T)}
    (h : ProducerOk s nodes) (hp : t.producer = s.producer)
    (hheap : ∀ a, s.consumer.taken ≠ some a → t.heap a = s.heap a)
    (hmem : ∀ a, a ∉ nodes.map Prod.fst → a ∉ nodes'.map Prod.fst)
    (htaken : ∀ a, a ∉ nodes.map Prod.fst → s.consumer.taken ≠ some a →
      t.consumer.taken ≠ some a)
    (hlast : ∀ newNode, s.producer = .storeTail newNode → last nodes = some newNode →
      s.consumer.drained = false → last nodes' = some newNode ∧ t.consumer.drained = false) :
    ProducerOk t nodes' := by
  unfold ProducerOk at h ⊢
  rw [hp]
  split at h
  · trivial
  · exact ⟨by rw [hheap _ h.2.2]; exact h.1, hmem _ h.2.1, htaken _ h.2.1 h.2.2⟩
  · exact ⟨by rw [hheap _ h.2.2]; exact h.1, hmem _ h.2.1, htaken _ h.2.1 h.2.2⟩
  · next newNode hs => exact hlast newNode hs h.1 h.2

theorem Rep.withConsumer (h : Rep s nodes) {consumer : DummylessConsumer T}
    (htaken : consumer.taken = s.consumer.taken)
    (hdrained : consumer.drained = s.consumer.drained)
    (hok : ConsumerOk { s with consumer := consumer } nodes) :
    Rep { s with consumer := consumer } nodes := by
  constructor
  · exact h.linked
  · exact h.nodup
  · intro hno
    change s.tail = if consumer.drained then none else last nodes
    rw [hdrained]
    exact h.tail hno
  · refine h.producer.of_pop rfl (fun _ _ => rfl) (fun _ ha => ha) (fun a _ ha => ?_)
      (fun newNode _ hlast hd => ?_)
    · change consumer.taken ≠ some a
      rwa [htaken]
    · exact ⟨hlast, hdrained.trans hd⟩
  · exact hok

theorem Rep.pop_idle (h : Rep s nodes) (hs : s.consumer = .idle) :
    ∃ t, s.pop = .ok t ∧ Rep t nodes := by
  have hc := h.consumer
  simp only [ConsumerOk, hs] at hc
  cases hhead : s.head with
  | none => exact ⟨s, by simp only [pop, hs, hhead], h⟩
  | some oldHead =>
    exact ⟨{ s with consumer := .readNext oldHead }, by simp only [pop, hs, hhead],
      h.withConsumer (by rw [hs]; rfl) (by rw [hs]; rfl) ⟨hc, hhead⟩⟩

theorem Rep.pop_readNext (h : Rep s nodes) {oldHead : ℕ} (hs : s.consumer = .readNext oldHead) :
    ∃ t, s.pop = .ok t ∧ Rep t nodes := by
  have hc := h.consumer
  simp only [ConsumerOk, hs] at hc
  have hlinked := h.linked
  rw [hc.2] at hlinked
  obtain ⟨x, rest, rfl⟩ := hlinked.cons_of_some
  obtain ⟨-, next, hnode, hrest⟩ := hlinked
  cases next with
  | none =>
    have hnil := hrest.eq_nil_iff.mp rfl
    subst hnil
    refine ⟨{ s with consumer := .storeTail oldHead }, ?_,
      h.withConsumer (by rw [hs]; rfl) (by rw [hs]; rfl) ⟨hc.1, x, rfl⟩⟩
    simp only [pop, hs, node_eq hnode]
    rfl
  | some n =>
    refine ⟨{ s with consumer := .storeHead oldHead (some n) }, ?_,
      h.withConsumer (by rw [hs]; rfl) (by rw [hs]; rfl)
        ⟨hc.1, x, rest, rfl, hrest.first_eq.symm⟩⟩
    simp only [pop, hs, node_eq hnode]
    rfl

theorem Rep.pop_storeTail (h : Rep s nodes) {oldHead : ℕ} (hs : s.consumer = .storeTail oldHead)
    (hproducer : ∀ newNode, s.producer ≠ .storeTail newNode) :
    ∃ t, s.pop = .ok t ∧ Rep t nodes := by
  have hc := h.consumer
  simp only [ConsumerOk, hs] at hc
  obtain ⟨hpushed, x, rfl⟩ := hc
  refine ⟨{ s with tail := none, consumer := .storeHead oldHead none }, by simp only [pop, hs], ?_⟩
  constructor
  · exact h.linked
  · exact h.nodup
  · intro _
    rfl
  · refine h.producer.of_pop rfl (fun _ _ => rfl) (fun _ ha => ha) (fun a _ _ => ?_)
      (fun newNode hno => ?_)
    · change none ≠ some a
      exact Option.some_ne_none a |>.symm
    · exact (hproducer newNode hno).elim
  · exact ⟨hpushed, x, [], rfl, rfl⟩

theorem Rep.pop_storeHead (h : Rep s nodes) {oldHead : ℕ} {next : Option ℕ}
    (hs : s.consumer = .storeHead oldHead next) :
    ∃ t nodes', s.pop = .ok t ∧ Rep t nodes' := by
  have hc := h.consumer
  simp only [ConsumerOk, hs] at hc
  obtain ⟨hpushed, x, rest, rfl, rfl⟩ := hc
  obtain ⟨-, after, hnode, hrest⟩ := h.linked
  have hnodup := h.nodup
  rw [List.map_cons, List.nodup_cons] at hnodup
  have hlast : first rest ≠ none → last ((oldHead, x) :: rest) = last rest := by
    intro hfirst
    apply last_cons
    rintro rfl
    exact hfirst rfl
  refine ⟨{ s with head := first rest, consumer := .readData oldHead }, rest,
    by simp only [pop, hs], ?_⟩
  constructor
  · change Linked s.heap (first rest) rest
    rw [hrest.first_eq]
    exact hrest
  · exact hnodup.2
  · intro hno
    have htail := h.tail hno
    change s.tail = last rest
    rw [htail, hs]
    cases rest with
    | nil => rfl
    | cons n rest => exact hlast (by simp [first])
  · refine h.producer.of_pop rfl (fun _ _ => rfl) (fun a ha => ?_) (fun a ha _ => ?_)
      (fun newNode _ hnew hd => ?_)
    · exact fun hmem => ha (List.mem_cons_of_mem _ hmem)
    · rintro heq
      cases heq
      exact ha List.mem_cons_self
    · rw [hs] at hd
      refine ⟨?_, rfl⟩
      rw [← hlast, hnew]
      intro hfirst
      rw [hfirst] at hd
      cases hd
  · refine ⟨hnodup.1, ⟨x, after⟩, hnode, ?_⟩
    rw [← hpushed]
    rfl

theorem Rep.pop_readData (h : Rep s nodes) {oldHead : ℕ} (hs : s.consumer = .readData oldHead) :
    ∃ t, s.pop = .ok t ∧ Rep t nodes := by
  have hc := h.consumer
  simp only [ConsumerOk, hs] at hc
  obtain ⟨hnot, n, hnode, hpushed⟩ := hc
  refine ⟨{ s with consumer := .delete oldHead n.data }, ?_,
    h.withConsumer (by rw [hs]; rfl) (by rw [hs]; rfl) ⟨hnot, by rw [hnode]; rfl, hpushed⟩⟩
  simp only [pop, hs, node_eq hnode]
  rfl

theorem Rep.pop_delete (h : Rep s nodes) {oldHead : ℕ} {value : T}
    (hs : s.consumer = .delete oldHead value) : ∃ t, s.pop = .ok t ∧ Rep t nodes := by
  have hc := h.consumer
  simp only [ConsumerOk, hs] at hc
  obtain ⟨hnot, -, hpushed⟩ := hc
  refine ⟨{ s.setNode oldHead none with consumer := .idle, popped := s.popped ++ [value] },
    by simp only [pop, hs], ?_⟩
  constructor
  · exact h.linked.update hnot none
  · exact h.nodup
  · intro hno
    have htail := h.tail hno
    rwa [hs] at htail
  · refine h.producer.of_pop rfl (fun a ha => ?_) (fun _ ha => ha) (fun a _ _ => ?_)
      (fun newNode _ hnew _ => ⟨hnew, rfl⟩)
    · apply Function.update_of_ne
      rintro rfl
      rw [hs] at ha
      exact ha rfl
    · change none ≠ some a
      exact Option.some_ne_none a |>.symm
  · change s.popped ++ [value] ++ nodes.map Prod.snd = s.pushed
    rw [← hpushed, List.append_assoc]
    rfl

theorem Rep.pop (h : Rep s nodes) (hapart : KeepsApart s .consumer) :
    ∃ t nodes', s.pop = .ok t ∧ Rep t nodes' := by
  cases hs : s.consumer with
  | idle =>
    obtain ⟨t, ht, hrep⟩ := h.pop_idle hs
    exact ⟨t, nodes, ht, hrep⟩
  | readNext oldHead =>
    obtain ⟨t, ht, hrep⟩ := h.pop_readNext hs
    exact ⟨t, nodes, ht, hrep⟩
  | storeTail oldHead =>
    obtain ⟨t, ht, hrep⟩ := h.pop_storeTail hs fun newNode => hapart oldHead newNode hs
    exact ⟨t, nodes, ht, hrep⟩
  | storeHead oldHead next => exact h.pop_storeHead hs
  | readData oldHead =>
    obtain ⟨t, ht, hrep⟩ := h.pop_readData hs
    exact ⟨t, nodes, ht, hrep⟩
  | delete oldHead value =>
    obtain ⟨t, ht, hrep⟩ := h.pop_delete hs
    exact ⟨t, nodes, ht, hrep⟩

theorem Rep.step (h : Rep s nodes) (a : DummylessThread T) (hapart : KeepsApart s a) :
    ∃ t nodes', step s a = .ok t ∧ Rep t nodes' := by
  cases a with
  | producer value address => exact h.push value address hapart
  | consumer => exact h.pop hapart

end Steps

/-- In a run that meets `KeepsApart` no node is used after its deletion, and no state loses a
value. -/
theorem run_losesNothing (schedule : List (DummylessThread T))
    (hapart : Meets step KeepsApart {} schedule) :
    ∀ done, done <+: schedule → ∃ s, run step {} done = .ok s ∧ s.LosesNothing := by
  intro done hdone
  have hrun := forall_run_ok_of_meets (P := fun s => ∃ nodes, Rep s nodes) ⟨[], rep_init⟩ hapart
    (fun s a h hmeets => by
      obtain ⟨nodes, hrep⟩ := h
      obtain ⟨t, nodes', ht, hrep'⟩ := hrep.step a hmeets
      exact ⟨t, ht, nodes', hrep'⟩) done hdone
  obtain ⟨s, hs, nodes, hrep⟩ := hrun
  exact ⟨s, hs, hrep.losesNothing⟩

/-- The second node is linked in while the first is being popped, and the memory of the first is
used again. -/
theorem linked_in_time_loses_nothing : ∃ s,
    run step ({} : LockFreeQueueWithoutDummyNode ℕ)
      [.producer 10 0, .producer 10 0, .producer 10 0, .producer 10 0, .consumer,
        .producer 20 1, .producer 20 1, .producer 20 1, .consumer, .producer 20 1, .consumer,
        .consumer, .consumer, .consumer, .consumer, .consumer, .consumer, .consumer, .consumer,
        .producer 30 0, .producer 30 0, .producer 30 0, .producer 30 0] = .ok s ∧
      s.LosesNothing := by
  exact run_losesNothing _ (by decide) _ (List.prefix_refl _)

/-- The second `push` loads `tail_`, and `pop` finds the first node to be the last before the
second is linked to it. Then both calls end. -/
theorem late_link_loses : ¬∃ s,
    run step ({} : LockFreeQueueWithoutDummyNode ℕ)
      [.producer 10 0, .producer 10 0, .producer 10 0, .producer 10 0, .producer 20 1,
        .producer 20 1, .consumer, .consumer, .consumer, .consumer, .producer 20 1,
        .producer 20 1, .consumer, .consumer] = .ok s ∧ s.LosesNothing := by
  rintro ⟨s, hs, hloses⟩
  cases hs
  have hpopped := hloses.emptied rfl rfl rfl
  cases hpopped

end LockFreeQueueWithoutDummyNode

end HighPerformance
