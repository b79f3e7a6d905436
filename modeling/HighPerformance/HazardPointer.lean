import Mathlib.Data.List.Nodup
import Mathlib.Data.Nat.Notation

/-!
# The scan of the hazard pointers

`LockFreeStack::retire_node` and `scan` of `hazard_pointer.cpp`. A node is given by its
address, and an entry of the table of hazard pointers is null or an address. The
deletions are recorded in order; a node that occurs twice among them is deleted
twice. The iterator of the loop is the cut between `kept` and `rest`.

The loop that deletes stands inside the loop that walks the list, and `to_delete` is
not emptied.
-/

namespace HighPerformance.HazardPointer

def hpMax : ℕ := 2

def threads : ℕ := 4

def retireThreshold : ℕ := 10

/-- `hp_list`, of which the first `threads * hpMax` entries exist. -/
abbrev Table := ℕ → Option ℕ

/-- What a scan leaves in `retired_list`, and its deletions. -/
structure Scan where
  retiredList : List ℕ
  deleted : List ℕ
  deriving DecidableEq

def protectedPtrs (hpList : Table) : List ℕ := (List.range (threads * hpMax)).filterMap hpList

/-- The `while` loop from the iterator on. -/
def scanLoop (protectedPtrs kept : List ℕ) : List ℕ → List ℕ → List ℕ → Scan
  | [], _, deleted => { retiredList := kept, deleted := deleted }
  | p :: rest, toDelete, deleted =>
      if p ∈ protectedPtrs then
        scanLoop protectedPtrs (kept ++ [p]) rest toDelete (deleted ++ toDelete)
      else scanLoop protectedPtrs kept rest (toDelete ++ [p]) (deleted ++ (toDelete ++ [p]))

def scan (hpList : Table) (retiredList : List ℕ) : Scan :=
  scanLoop (protectedPtrs hpList) [] retiredList [] []

def retireNode (hpList : Table) (retiredList : List ℕ) (node : ℕ) : Scan :=
  if retireThreshold ≤ (retiredList ++ [node]).length then scan hpList (retiredList ++ [node])
  else { retiredList := retiredList ++ [node], deleted := [] }

/-- Each retired node that no hazard pointer points at is deleted once and nothing
else is, and the other retired nodes are left in their order. -/
structure FreesOnce (hpList : Table) (retiredList : List ℕ) (s : Scan) : Prop where
  deleted : ∀ p, s.deleted.count p =
    if p ∈ retiredList ∧ p ∉ protectedPtrs hpList then 1 else 0
  retiredList : s.retiredList = retiredList.filter (· ∈ protectedPtrs hpList)

/-- How often the loop deletes `p` if it finds it in `rest`: once for each node from `p`
on. -/
def deletions (protectedPtrs : List ℕ) (p : ℕ) : List ℕ → ℕ
  | [] => 0
  | q :: rest =>
      (if q = p ∧ q ∉ protectedPtrs then rest.length + 1 else 0) + deletions protectedPtrs p rest

section Loop
variable {ps kept rest toDelete deleted : List ℕ} {p q : ℕ}

theorem scanLoop_retiredList : (scanLoop ps kept rest toDelete deleted).retiredList =
    kept ++ rest.filter (· ∈ ps) := by
  induction rest generalizing kept toDelete deleted with
  | nil => rw [scanLoop, List.filter_nil, List.append_nil]
  | cons q rest ih =>
    rw [scanLoop]
    split
    · next hq =>
      rw [ih, List.filter_cons_of_pos (by simpa using hq), List.append_assoc,
        List.singleton_append]
    · next hq => rw [ih, List.filter_cons_of_neg (by simpa using hq)]

theorem scanLoop_count : (scanLoop ps kept rest toDelete deleted).deleted.count p =
    deleted.count p + toDelete.count p * rest.length + deletions ps p rest := by
  induction rest generalizing kept toDelete deleted with
  | nil => simp [scanLoop, deletions]
  | cons q rest ih =>
    rw [scanLoop, deletions, List.length_cons, Nat.mul_succ]
    split
    · next hq =>
      rw [ih, List.count_append, if_neg fun h => h.2 hq]
      omega
    · next hq =>
      rw [ih, List.count_append, List.count_append, List.count_singleton, Nat.add_mul]
      by_cases hqp : q = p
      · simp only [hqp, beq_self_eq_true, if_true, true_and, hqp ▸ hq, not_false_eq_true]
        omega
      · simp only [hqp, beq_iff_eq, if_false, false_and]
        omega

theorem deletions_of_not_mem (hp : p ∉ rest) : deletions ps p rest = 0 := by
  induction rest with
  | nil => rfl
  | cons q rest ih =>
    rw [List.mem_cons, not_or] at hp
    rw [deletions, ih hp.2, if_neg fun h => hp.1 h.1.symm]

theorem deletions_cons_of_protected (hq : q ∈ ps) :
    deletions ps p (q :: rest) = deletions ps p rest := by
  rw [deletions, if_neg fun h => h.2 hq, Nat.zero_add]

theorem deletions_cons_self (hq : q ∉ ps) (hrest : q ∉ rest) :
    deletions ps q (q :: rest) = rest.length + 1 := by
  rw [deletions, if_pos ⟨rfl, hq⟩, deletions_of_not_mem hrest, Nat.add_zero]

/-- Only the last node can be deleted just once. -/
theorem deletions_once_iff (hnodup : rest.Nodup) :
    (∀ p, deletions ps p rest = if p ∈ rest ∧ p ∉ ps then 1 else 0) ↔
      ∀ p ∈ rest.dropLast, p ∈ ps := by
  induction rest with
  | nil => simp [deletions]
  | cons q rest ih =>
    obtain ⟨hq, hnodup⟩ := List.nodup_cons.mp hnodup
    cases rest with
    | nil =>
      have hone : ∀ p, deletions ps p [q] = if p ∈ [q] ∧ p ∉ ps then 1 else 0 := by
        intro p
        simp only [deletions, List.mem_singleton, List.length_nil, Nat.add_zero]
        by_cases hqp : q = p
        · simp [hqp]
        · have hpq : ¬p = q := fun h => hqp h.symm
          simp [hqp, hpq]
      simp [hone]
    | cons r rest =>
      rw [List.dropLast_cons_of_ne_nil (List.cons_ne_nil _ _), List.forall_mem_cons]
      by_cases hprotected : q ∈ ps
      · rw [← ih hnodup]
        simp only [hprotected, true_and]
        refine forall_congr' fun p => ?_
        rw [deletions_cons_of_protected hprotected]
        by_cases hpq : p = q
        · subst hpq
          simp [hprotected]
        · simp [hpq]
      · -- The node is deleted again when the loop comes to its successor.
        simp only [hprotected, false_and, iff_false]
        intro hall
        have hcount := hall q
        rw [deletions_cons_self hprotected hq, List.length_cons,
          if_pos ⟨List.mem_cons_self, hprotected⟩] at hcount
        omega

end Loop

/-- Whatever the table, the scan ends, keeps the protected nodes in their order and deletes none of
them. -/
theorem scan_keeps (hpList : Table) (retiredList : List ℕ) :
    (scan hpList retiredList).retiredList = retiredList.filter (· ∈ protectedPtrs hpList) :=
  scanLoop_retiredList

/-- The scan deletes each unprotected node once exactly when it finds at most the last node
unprotected. -/
theorem scan_freesOnce_iff (hpList : Table) (retiredList : List ℕ) (hnodup : retiredList.Nodup) :
    FreesOnce hpList retiredList (scan hpList retiredList) ↔
      ∀ p ∈ retiredList.dropLast, p ∈ protectedPtrs hpList := by
  rw [← deletions_once_iff hnodup]
  have hcount : ∀ p, (scan hpList retiredList).deleted.count p =
      deletions (protectedPtrs hpList) p retiredList := by
    intro p
    rw [scan, scanLoop_count]
    simp
  constructor
  · intro h p
    rw [← hcount]
    exact h.deleted p
  · intro h
    refine ⟨fun p => ?_, scan_keeps hpList retiredList⟩
    rw [hcount]
    exact h p

/-- At the threshold, everything retired before must still be protected. -/
theorem retireNode_freesOnce_iff (hpList : Table) (retiredList : List ℕ) (node : ℕ)
    (hnodup : (retiredList ++ [node]).Nodup)
    (hfull : retireThreshold ≤ (retiredList ++ [node]).length) :
    FreesOnce hpList (retiredList ++ [node]) (retireNode hpList retiredList node) ↔
      ∀ p ∈ retiredList, p ∈ protectedPtrs hpList := by
  rw [retireNode, if_pos hfull, scan_freesOnce_iff hpList _ hnodup, List.dropLast_concat]

/-- Only the node just retired may be found unprotected. -/
theorem retired_last_freesOnce :
    FreesOnce (fun i => if i = 0 then some 10 else none) [10, 20]
      (scan (fun i => if i = 0 then some 10 else none) [10, 20]) :=
  (scan_freesOnce_iff _ [10, 20] (by decide)).mpr (by decide)

/-- Ten nodes are retired and none is protected: the first one is deleted ten times. -/
theorem first_node_freed_again :
    ¬FreesOnce (fun _ => none) [1, 2, 3, 4, 5, 6, 7, 8, 9, 10]
      (scan (fun _ => none) [1, 2, 3, 4, 5, 6, 7, 8, 9, 10]) := by
  intro h
  have hcount := h.deleted 1
  revert hcount
  decide

end HighPerformance.HazardPointer
