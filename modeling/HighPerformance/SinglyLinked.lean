import Mathlib.Data.List.Nodup
import Mathlib.Data.Nat.Notation
import Mathlib.Logic.Function.Basic

/-!
# Singly linked lists in a heap

A heap gives a node to each address in use. `Linked heap start nodes` says that the
nodes reached from `start` through `next` are exactly `nodes`, each with its address
and its data. A node is taken off at the front and linked in at the end.
-/

namespace HighPerformance.SinglyLinked

structure Node (T : Type) where
  data : T
  next : Option ℕ

variable {T : Type} {heap heap' : ℕ → Option (Node T)} {start next : Option ℕ} {a b : ℕ} {x y : T}
  {nodes rest : List (ℕ × T)}

def Linked (heap : ℕ → Option (Node T)) : Option ℕ → List (ℕ × T) → Prop
  | start, [] => start = none
  | start, (a, x) :: rest => start = some a ∧ ∃ next, heap a = some ⟨x, next⟩ ∧ Linked heap next rest

def first (nodes : List (ℕ × T)) : Option ℕ := nodes.head?.map Prod.fst

def last (nodes : List (ℕ × T)) : Option ℕ := nodes.getLast?.map Prod.fst

@[simp] theorem first_nil : first ([] : List (ℕ × T)) = none := rfl

@[simp] theorem last_nil : last ([] : List (ℕ × T)) = none := rfl

@[simp] theorem first_cons : first ((a, x) :: rest) = some a := rfl

@[simp] theorem last_concat : last (nodes ++ [(a, x)]) = some a := by
  rw [last, List.getLast?_concat, Option.map_some]

theorem last_eq_none_iff : last nodes = none ↔ nodes = [] := by
  rw [last, Option.map_eq_none_iff, List.getLast?_eq_none_iff]

theorem exists_of_last (h : last nodes = some a) : ∃ front x, nodes = front ++ [(a, x)] := by
  obtain ⟨⟨b, x⟩, hlast, rfl⟩ := Option.map_eq_some_iff.mp h
  obtain ⟨front, hfront⟩ := List.getLast?_eq_some_iff.mp hlast
  exact ⟨front, x, hfront⟩

theorem last_cons (hrest : rest ≠ []) : last ((a, x) :: rest) = last rest := by
  cases rest with
  | nil => exact (hrest rfl).elim
  | cons n rest => rw [last, last, List.getLast?_cons_cons]

namespace Linked

theorem first_eq (h : Linked heap start nodes) : first nodes = start := by
  cases nodes with
  | nil => exact h.symm
  | cons n rest => exact h.1.symm

theorem eq_nil_iff (h : Linked heap start nodes) : start = none ↔ nodes = [] := by
  cases nodes with
  | nil => simp [show start = none from h]
  | cons n rest => simp [h.1]

theorem cons_of_some (h : Linked heap (some a) nodes) :
    ∃ x rest, nodes = (a, x) :: rest := by
  cases nodes with
  | nil => cases h
  | cons n rest =>
    obtain ⟨b, x⟩ := n
    cases h.1
    exact ⟨x, rest, rfl⟩

/-- A list sees only its own nodes. -/
theorem frame (h : Linked heap start nodes) (hsame : ∀ a ∈ nodes.map Prod.fst, heap' a = heap a) :
    Linked heap' start nodes := by
  induction nodes generalizing start with
  | nil => exact h
  | cons n rest ih =>
    obtain ⟨hstart, next, hnode, hrest⟩ := h
    refine ⟨hstart, next, ?_, ih hrest fun a ha => hsame a (List.mem_cons_of_mem _ ha)⟩
    rw [hsame n.1 List.mem_cons_self, hnode]

theorem update (h : Linked heap start nodes) (ha : a ∉ nodes.map Prod.fst)
    (node : Option (Node T)) : Linked (Function.update heap a node) start nodes := by
  apply h.frame
  intro b hb
  apply Function.update_of_ne
  rintro rfl
  exact ha hb

theorem live (h : Linked heap start nodes) (ha : a ∈ nodes.map Prod.fst) :
    ∃ node, heap a = some node := by
  induction nodes generalizing start with
  | nil => cases ha
  | cons n rest ih =>
    obtain ⟨-, next, hnode, hrest⟩ := h
    rcases List.mem_cons.mp ha with rfl | hmem
    · exact ⟨_, hnode⟩
    · exact ih hrest hmem

theorem not_mem (h : Linked heap start nodes) (hfree : heap a = none) :
    a ∉ nodes.map Prod.fst := by
  intro ha
  obtain ⟨node, hnode⟩ := h.live ha
  rw [hfree] at hnode
  cases hnode

theorem last_node (h : Linked heap start (nodes ++ [(a, x)])) : heap a = some ⟨x, none⟩ := by
  induction nodes generalizing start with
  | nil =>
    obtain ⟨-, next, hnode, hrest⟩ := h
    rw [hnode, show next = none from hrest]
  | cons n nodes ih =>
    obtain ⟨-, next, -, hrest⟩ := h
    exact ih hrest

theorem concat (h : Linked heap start (nodes ++ [(a, x)]))
    (hnodup : ((nodes ++ [(a, x)]).map Prod.fst).Nodup)
    (hb : b ∉ (nodes ++ [(a, x)]).map Prod.fst) (hnew : heap b = some ⟨y, none⟩) :
    Linked (Function.update heap a (some ⟨x, some b⟩)) start (nodes ++ [(a, x)] ++ [(b, y)]) := by
  induction nodes generalizing start with
  | nil =>
    have hne : b ≠ a := by simpa using hb
    refine ⟨h.1, some b, Function.update_self _ _ _, rfl, none, ?_, rfl⟩
    rw [Function.update_of_ne hne, hnew]
  | cons n nodes ih =>
    obtain ⟨hstart, next, hnode, hrest⟩ := h
    have hne : n.1 ≠ a := by
      rintro rfl
      simp at hnodup
    rw [List.cons_append, List.map_cons, List.nodup_cons] at hnodup
    rw [List.cons_append, List.map_cons, List.mem_cons, not_or] at hb
    refine ⟨hstart, next, ?_, ih hrest hnodup.2 hb.2⟩
    rw [Function.update_of_ne hne, hnode]

end Linked

end HighPerformance.SinglyLinked
