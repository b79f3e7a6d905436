import HighPerformance.FallibleRun
import HighPerformance.MemPool
import HighPerformance.PriceLevels

/-!
# Runs of a memory pool

A run is a list of calls on a pool of `n` blocks; `live` are the pointers that its calls have
returned and that have not been given back. The blocks in use are always the live ones
(`PoolRun.Rep`), so a call returns a block that nobody holds, and only a pool with at most one
free block can stop with "Memory pool out of space.": `allocate` looks for the next free block
before it returns.
-/

namespace HighPerformance
open FallibleRun

inductive PoolCall (α : Type) where
  | allocate (a : α)
  | deallocate (i : Ptr)

/-- The number of live blocks after the call when `k` were live before it. -/
def PoolCall.liveAfter {α : Type} (k : ℕ) : PoolCall α → ℕ
  | .allocate _ => k + 1
  | .deallocate _ => k - 1

structure PoolRun (α : Type) where
  pool : MemPool α
  live : List Ptr := []

namespace PoolRun
variable {α : Type}

/-- A new pool of `n` blocks. -/
def start (α : Type) [Inhabited α] (n : ℕ) : PoolRun α := { pool := .init n }

def step (s : PoolRun α) : PoolCall α → Except Fault (PoolRun α)
  | .allocate a => do
      let (i, pool) ← s.pool.allocate a
      return { pool, live := i :: s.live }
  | .deallocate i => do
      let pool ← s.pool.deallocate i
      return { pool, live := s.live.erase i }

/-- Only live pointers are given back. -/
def DeallocatesLive (s : PoolRun α) : PoolCall α → Prop
  | .allocate _ => True
  | .deallocate i => i ∈ s.live

instance (s : PoolRun α) : DecidablePred s.DeallocatesLive
  | .allocate _ => inferInstanceAs (Decidable True)
  | .deallocate i => inferInstanceAs (Decidable (i ∈ s.live))

/-- How many blocks are live after these calls. -/
def liveCount (calls : List (PoolCall α)) : ℕ := calls.foldl PoolCall.liveAfter 0

/-- What holds between the calls, and what the next call does. -/
structure Sound (n : ℕ) (s : PoolRun α) : Prop where
  size : s.pool.size = n
  next_lt : s.pool.nextFreeIndex < n
  next_free : s.pool.isFree s.pool.nextFreeIndex = true
  allocate : ∀ a, (∃ i q, s.pool.allocate a = .ok (i, q) ∧ i < n ∧ i ∉ s.live) ∨
    s.pool.allocate a = .error MemPool.outOfSpace
  deallocate : ∀ i ∈ s.live, ∃ q, s.pool.deallocate i = .ok q ∧
    ∀ j, q.isFree j = true ↔ j = i ∨ s.pool.isFree j = true

/-- The invariant of a run. -/
structure Rep (n : ℕ) (s : PoolRun α) : Prop where
  size : s.pool.size = n
  holds : s.pool.Holds s.live
  nodup : s.live.Nodup

section Steps
variable {n : ℕ} {s : PoolRun α} {i : Ptr}

theorem rep_start [Inhabited α] (hn : 1 ≤ n) : Rep n (start α n) where
  size := rfl
  holds := MemPool.holds_init hn
  nodup := List.nodup_nil

theorem Rep.length_lt (h : Rep n s) : s.live.length < n :=
  h.size ▸ h.holds.length_lt h.nodup

theorem Rep.allocate (h : Rep n s) (a : α) :
    (∃ i q, s.pool.allocate a = .ok (i, q) ∧ i ∉ s.live ∧ Rep n { pool := q, live := i :: s.live }) ∨
      (s.pool.allocate a = .error MemPool.outOfSpace ∧ n ≤ s.live.length + 1) := by
  rcases h.holds.allocate_spec a with ⟨i, q, hq, hfresh, hholds, hsize, -, -⟩ | ⟨herr, hfull⟩
  · left
    exact ⟨i, q, hq, hfresh, hsize.trans h.size, hholds, List.nodup_cons.mpr ⟨hfresh, h.nodup⟩⟩
  · right
    exact ⟨herr, h.size ▸ hfull⟩

theorem Rep.deallocate (h : Rep n s) (hi : i ∈ s.live) :
    ∃ q, s.pool.deallocate i = .ok q ∧ Rep n { pool := q, live := s.live.erase i } := by
  have hlive : ∀ j, j ∈ s.live.erase i ↔ j ∈ s.live ∧ j ≠ i := by
    intro j
    rw [h.nodup.mem_erase_iff, and_comm]
  obtain ⟨q, hq, hholds, hsize, -⟩ := h.holds.deallocate_spec hi hlive
  exact ⟨q, hq, hsize.trans h.size, hholds, h.nodup.erase i⟩

theorem Rep.isFree_iff (h : Rep n s) (j : Ptr) : s.pool.isFree j = true ↔ j ∉ s.live := by
  rw [← h.holds.busy j]
  simp

theorem Rep.sound (h : Rep n s) : Sound n s where
  size := h.size
  next_lt := h.size ▸ h.holds.inv.next_lt
  next_free := h.holds.inv.next_free
  allocate := by
    intro a
    rcases h.allocate a with ⟨i, q, hq, hfresh, hrep⟩ | ⟨herr, -⟩
    · left
      exact ⟨i, q, hq, hrep.size ▸ hrep.holds.lt i List.mem_cons_self, hfresh⟩
    · exact .inr herr
  deallocate := by
    intro i hi
    obtain ⟨q, hq, hrep⟩ := h.deallocate hi
    refine ⟨q, hq, fun j => ?_⟩
    rw [hrep.isFree_iff j, h.isFree_iff j, h.nodup.mem_erase_iff]
    tauto

end Steps

section Runs
variable {n : ℕ} {calls done : List (PoolCall α)}

theorem liveCount_concat (done : List (PoolCall α)) (c : PoolCall α) :
    liveCount (done ++ [c]) = c.liveAfter (liveCount done) := List.foldl_concat ..

theorem liveCount_replicate (k : ℕ) (a : α) :
    liveCount (List.replicate k (.allocate a)) = k := by
  induction k with
  | zero => rfl
  | succ k ih => rw [List.replicate_succ', liveCount_concat, ih, PoolCall.liveAfter]

theorem meets_replicate (k : ℕ) (a : α) (s : PoolRun α) :
    Meets step DeallocatesLive s (List.replicate k (.allocate a)) := by
  induction k generalizing s with
  | zero => trivial
  | succ k ih => exact ⟨trivial, fun t _ => ih t⟩

/-- A run of calls that give back live pointers only keeps the invariant, or finds at most one
free block. -/
theorem run_rep [Inhabited α] (hn : 1 ≤ n) (hcalls : Meets step DeallocatesLive (start α n) calls) :
    (∃ s, run step (start α n) calls = .ok s ∧ Rep n s ∧ s.live.length = liveCount calls) ∨
      (run step (start α n) calls = .error MemPool.outOfSpace ∧
        ∃ done, done <+: calls ∧ n ≤ liveCount done) := by
  have hrun := run_progress_history
    (E := fun e => e = MemPool.outOfSpace ∧ ∃ done, done <+: calls ∧ n ≤ liveCount done)
    (Q := fun done s => Rep n s ∧ s.live.length = liveCount done)
    ⟨rep_start hn, rfl⟩ hcalls ?_
  · rcases hrun with hok | ⟨e, herr, rfl, hfull⟩
    · exact .inl hok
    · exact .inr ⟨herr, hfull⟩
  · intro done c s hpre hQ hlive
    obtain ⟨hrep, hcount⟩ := hQ
    cases c with
    | allocate a =>
      have hnext : liveCount (done ++ [.allocate a]) = s.live.length + 1 := by
        rw [liveCount_concat, hcount, PoolCall.liveAfter]
      rcases hrep.allocate a with ⟨i, q, hq, -, hrep'⟩ | ⟨herr, hfull⟩
      · left
        refine ⟨{ pool := q, live := i :: s.live }, ?_, hrep', hnext.symm⟩
        simp only [step, hq]
        rfl
      · right
        refine ⟨_, ?_, rfl, done ++ [.allocate a], hpre, hnext ▸ hfull⟩
        simp only [step, herr]
        rfl
    | deallocate i =>
      obtain ⟨q, hq, hrep'⟩ := hrep.deallocate hlive
      left
      refine ⟨{ pool := q, live := s.live.erase i }, ?_, hrep', ?_⟩
      · simp only [step, hq]
        rfl
      · rw [liveCount_concat, ← hcount, PoolCall.liveAfter]
        exact List.length_erase_of_mem hlive

theorem run_replicate [Inhabited α] (hn : 1 ≤ n) (a : α) :
    run step (start α n) (List.replicate n (.allocate a)) = .error MemPool.outOfSpace := by
  rcases run_rep hn (meets_replicate n a _) with ⟨s, -, hrep, hcount⟩ | ⟨herr, -⟩
  · rw [liveCount_replicate] at hcount
    exact absurd hrep.length_lt (by omega)
  · exact herr

end Runs

/-- The pool never hands out a live block, in any run that gives back live pointers only. -/
theorem run_sound [Inhabited α] {n : ℕ} (hn : 1 ≤ n) {calls : List (PoolCall α)}
    (hcalls : Meets step DeallocatesLive (start α n) calls) :
    (∀ done, done <+: calls →
      (∃ s, run step (start α n) done = .ok s ∧ Sound n s) ∨
        run step (start α n) done = .error MemPool.outOfSpace) ∧
    ∀ (p : MemPool α) (i fuel : ℕ), i < p.size → p.size ≤ fuel →
      (∃ j, p.searchFree i fuel i = .ok j ∧ j < p.size ∧ p.isFree j = true) ∨
        (p.searchFree i fuel i = .error MemPool.outOfSpace ∧
          ∀ j, j < p.size → p.isFree j = false) := by
  constructor
  · intro done hdone
    rcases run_rep hn (hcalls.of_prefix hdone) with ⟨s, hs, hrep, -⟩ | ⟨herr, -⟩
    · exact .inl ⟨s, hs, hrep.sound⟩
    · exact .inr herr
  · intro p i fuel hi hfuel
    exact p.searchFree_self hi hfuel

/-- Three blocks; the search for the fourth `allocate` goes past the end of the vector. -/
theorem three_blocks_sound :
    (∀ done, done <+: [.allocate 7, .allocate 8, .deallocate 0, .allocate 9] →
      (∃ s, run step (start ℕ 3) done = .ok s ∧ Sound 3 s) ∨
        run step (start ℕ 3) done = .error MemPool.outOfSpace) ∧
    ∀ (p : MemPool ℕ) (i fuel : ℕ), i < p.size → p.size ≤ fuel →
      (∃ j, p.searchFree i fuel i = .ok j ∧ j < p.size ∧ p.isFree j = true) ∨
        (p.searchFree i fuel i = .error MemPool.outOfSpace ∧
          ∀ j, j < p.size → p.isFree j = false) :=
  run_sound (by decide) (by decide)

/-- A pool of `n` blocks serves exactly the runs in which fewer than `n` blocks are live. -/
theorem run_serves_iff [Inhabited α] {n : ℕ} (hn : 1 ≤ n) {calls : List (PoolCall α)}
    (hcalls : Meets step DeallocatesLive (start α n) calls) :
    (∀ done, done <+: calls → ∃ s, run step (start α n) done = .ok s) ↔
      ∀ done, done <+: calls → liveCount done < n := by
  constructor
  · intro hall done hdone
    obtain ⟨s, hs⟩ := hall done hdone
    rcases run_rep hn (hcalls.of_prefix hdone) with ⟨t, -, hrep, hcount⟩ | ⟨herr, -⟩
    · rw [← hcount]
      exact hrep.length_lt
    · rw [hs] at herr
      cases herr
  · intro hfew done hdone
    rcases run_rep hn (hcalls.of_prefix hdone) with ⟨s, hs, -⟩ | ⟨-, full, hfull, hle⟩
    · exact ⟨s, hs⟩
    · have hlt := hfew full (hfull.trans hdone)
      omega

/-- With two blocks, one at a time. -/
theorem one_of_two_blocks_served :
    (∀ done, done <+: [.allocate 7, .deallocate 0, .allocate 8, .deallocate 1, .allocate 9] →
      ∃ s, run step (start ℕ 2) done = .ok s) ∧
    ¬ ∀ done, done <+: [.allocate 7, .deallocate 0, .allocate 8, .allocate 9] →
      ∃ s, run step (start ℕ 2) done = .ok s := by
  constructor
  · apply (run_serves_iff (by decide) (by decide)).mpr
    intro done hdone
    rw [← List.mem_inits] at hdone
    revert done
    decide
  · rw [run_serves_iff (by decide) (by decide)]
    intro hfew
    exact absurd (hfew _ (List.prefix_refl _)) (by decide)

/-- Taking all the blocks of the pool in which a book keeps its price levels. -/
theorem full_level_pool_stops :
    ¬ ∀ (n : ℕ) (calls : List (PoolCall OrdersAtPrice)), 1 ≤ n →
      Meets step DeallocatesLive (start OrdersAtPrice n) calls →
      (∀ done, done <+: calls → liveCount done ≤ n) →
        ∀ done, done <+: calls → ∃ s, run step (start OrdersAtPrice n) done = .ok s := by
  intro h
  have hn : 1 ≤ meMaxPriceLevels := by decide
  have hmost : ∀ done : List (PoolCall OrdersAtPrice),
      done <+: List.replicate meMaxPriceLevels (.allocate {}) →
        liveCount done ≤ meMaxPriceLevels := by
    intro done hdone
    obtain ⟨hlen, heq⟩ := List.prefix_replicate_iff.mp hdone
    rw [heq, liveCount_replicate]
    exact hlen
  obtain ⟨s, hs⟩ := h meMaxPriceLevels _ hn (meets_replicate _ {} _) hmost _ (List.prefix_refl _)
  rw [run_replicate hn] at hs
  cases hs

end PoolRun

end HighPerformance
