import HighPerformance.Types
import Mathlib.Data.List.Nodup
import Mathlib.Data.List.Perm.Subperm
import Mathlib.Data.List.Range
import Mathlib.Logic.Function.Basic
import Mathlib.Tactic.Ring

/-!
# The memory pool

`MemPool` hands out the blocks of one vector. A pointer is the index of its
block. Deallocation only sets the block's flag: the object stays readable, as
it does in the source, so following a stale pointer is defined and reads what
was last written there.
-/

namespace HighPerformance

/-- A pointer into a pool: the index of the block it points to. -/
abbrev Ptr := ℕ

structure ObjectBlock (α : Type) where
  object : α
  isFree : Bool := true

structure MemPool (α : Type) where
  size : ℕ
  store : Ptr → ObjectBlock α
  nextFreeIndex : ℕ := 0

namespace MemPool
variable {α : Type}

/-- `MemPool(num_elems)`: every block default-constructed and free. -/
def init (num : ℕ) [Inhabited α] : MemPool α := { size := num, store := fun _ => ⟨default, true⟩ }

def outOfSpace : Fault := .assertion "Memory pool out of space."

/-- The loop of `updateNextFreeIndex` from index `i`. -/
def searchFree (p : MemPool α) (initial : ℕ) : ℕ → ℕ → Except Fault ℕ
  | 0, _ => .error .diverges
  | fuel + 1, i =>
      if (p.store i).isFree then .ok i
      else
        let i := if i + 1 = p.size then 0 else i + 1
        if initial = i then .error outOfSpace else searchFree p initial fuel i

def updateNextFreeIndex (p : MemPool α) : Except Fault (MemPool α) := do
  let i ← searchFree p p.nextFreeIndex (p.size + 1) p.nextFreeIndex
  return { p with nextFreeIndex := i }

/-- `allocate`: construct the object in the block at `nextFreeIndex`, then look
for the next free block. -/
def allocate (p : MemPool α) (a : α) : Except Fault (Ptr × MemPool α) := do
  let i := p.nextFreeIndex
  assert (p.store i).isFree ("Expected free ObjectBlock at index: " ++ toString i)
  let q ← updateNextFreeIndex { p with store := Function.update p.store i ⟨a, false⟩ }
  return (i, q)

def deallocate (p : MemPool α) (i : Ptr) : Except Fault (MemPool α) := do
  assert (decide (i < p.size)) "Element being deallocated does not belong to this Memory pool."
  assert (!(p.store i).isFree) ("Expected ObjectBlock at index: " ++ toString i)
  return { p with store := Function.update p.store i { p.store i with isFree := true } }

/-- Reading through a pointer. -/
def get (p : MemPool α) (i : Ptr) : α := (p.store i).object

/-- Writing through a pointer. -/
def modify (p : MemPool α) (i : Ptr) (f : α → α) : MemPool α :=
  { p with store := Function.update p.store i { p.store i with object := f (p.store i).object } }

def isFree (p : MemPool α) (i : Ptr) : Bool := (p.store i).isFree

section Access
variable (p : MemPool α) (i j : Ptr) (f : α → α)

@[simp] theorem get_modify_self : (p.modify i f).get i = f (p.get i) := by
  simp [modify, get]

@[simp] theorem get_modify_ne {i j : Ptr} (h : j ≠ i) : (p.modify i f).get j = p.get j := by
  simp [modify, get, h]

theorem get_modify : (p.modify i f).get j = if j = i then f (p.get j) else p.get j := by
  by_cases h : j = i
  · subst h; simp
  · simp [h]

@[simp] theorem isFree_modify : (p.modify i f).isFree j = p.isFree j := by
  by_cases h : j = i
  · subst h; simp [modify, isFree]
  · simp [modify, isFree, h]

@[simp] theorem size_modify : (p.modify i f).size = p.size := rfl
@[simp] theorem nextFreeIndex_modify : (p.modify i f).nextFreeIndex = p.nextFreeIndex := rfl

@[simp] theorem isFree_init (num : ℕ) [Inhabited α] : (init num : MemPool α).isFree i = true := rfl

end Access

/-- Between calls the next free index designates a free block. -/
structure Inv (p : MemPool α) : Prop where
  next_lt : p.nextFreeIndex < p.size
  next_free : p.isFree p.nextFreeIndex = true

theorem inv_init {num : ℕ} [Inhabited α] (h : 0 < num) : (init num : MemPool α).Inv := ⟨h, rfl⟩

theorem Inv.modify {p : MemPool α} (h : p.Inv) (i : Ptr) (f : α → α) : (p.modify i f).Inv :=
  ⟨h.next_lt, by simpa using h.next_free⟩

/-- Cyclic distance from `i` forward to `initial`: how far the search may go. -/
def remaining (size initial i : ℕ) : ℕ := if i < initial then initial - i else size - i + initial

theorem remaining_last {size i initial : ℕ} (hj : (if i + 1 = size then 0 else i + 1) = initial) :
    remaining size initial i = 1 := by
  unfold remaining
  split at hj <;> split <;> omega

theorem remaining_step {size initial i j : ℕ} (hi : i < size) (h₀ : initial < size)
    (hj : (if i + 1 = size then 0 else i + 1) = j) (hne : initial ≠ j) :
    remaining size initial i = remaining size initial j + 1 := by
  unfold remaining
  split at hj <;> split <;> split <;> omega

/-- A search that starts within its fuel ends at a free index or finds that the
whole turn is taken. -/
theorem searchFree_spec (p : MemPool α) {initial i fuel : ℕ} (hi : i < p.size)
    (h₀ : initial < p.size) (hfuel : remaining p.size initial i ≤ fuel) :
    (∃ j, searchFree p initial fuel i = .ok j ∧ j < p.size ∧ p.isFree j = true) ∨
      (searchFree p initial fuel i = .error outOfSpace ∧
        ∀ k, k < remaining p.size initial i → p.isFree ((i + k) % p.size) = false) := by
  induction fuel generalizing i with
  | zero =>
    exfalso
    unfold remaining at hfuel
    split at hfuel <;> omega
  | succ fuel ih =>
    unfold searchFree
    by_cases hfree : (p.store i).isFree = true
    · left
      exact ⟨i, by simp [hfree], hi, hfree⟩
    · have hbusy : p.isFree i = false := by simpa [isFree] using hfree
      have hmod : (i + 0) % p.size = i := Nat.mod_eq_of_lt hi
      simp only [hfree, Bool.false_eq_true, ↓reduceIte]
      generalize hj : (if i + 1 = p.size then 0 else i + 1) = j
      have hstep : (i + 1) % p.size = j := by
        rw [← hj]
        split
        · next he => rw [he, Nat.mod_self]
        · exact Nat.mod_eq_of_lt (by omega)
      have hjs : j < p.size := hstep ▸ Nat.mod_lt _ (by omega)
      split
      · next hend =>
        right
        refine ⟨rfl, fun k hk => ?_⟩
        have hk0 : k = 0 := by
          rw [← hend] at hj
          have hone := remaining_last hj
          omega
        rw [hk0, hmod]
        exact hbusy
      · next hne =>
        have hrem := remaining_step hi h₀ hj hne
        rcases ih hjs (by omega) with hok | ⟨herr, hall⟩
        · exact .inl hok
        · refine .inr ⟨herr, fun k hk => ?_⟩
          rcases k with _ | k
          · rw [hmod]; exact hbusy
          · have := hall k (by omega)
            rwa [← hstep, Nat.mod_add_mod, Nat.add_assoc, Nat.add_comm 1 k] at this

theorem exists_turn {size i j : ℕ} (hi : i < size) (hj : j < size) :
    ∃ k < size, (i + k) % size = j := by
  refine ⟨(j + (size - i)) % size, Nat.mod_lt _ (by omega), ?_⟩
  have hsum : i + (j + (size - i)) = j + size := by omega
  rw [Nat.add_mod_mod, hsum, Nat.add_mod_right, Nat.mod_eq_of_lt hj]

theorem remaining_self (size i : ℕ) (hi : i < size) : remaining size i i = size := by
  simp only [remaining, lt_self_iff_false, ↓reduceIte]
  omega

/-- The search from any index of any pool ends within `size` tests: at a free block, or because
there is none. -/
theorem searchFree_self (p : MemPool α) {i fuel : ℕ} (hi : i < p.size) (hfuel : p.size ≤ fuel) :
    (∃ j, searchFree p i fuel i = .ok j ∧ j < p.size ∧ p.isFree j = true) ∨
      (searchFree p i fuel i = .error outOfSpace ∧ ∀ j, j < p.size → p.isFree j = false) := by
  have hrem := remaining_self p.size i hi
  rcases searchFree_spec p hi hi (hrem ▸ hfuel) with hok | ⟨herr, hall⟩
  · exact .inl hok
  · right
    refine ⟨herr, fun j hj => ?_⟩
    obtain ⟨k, hk, rfl⟩ := exists_turn hi hj
    exact hall k (by rw [hrem]; exact hk)

/-- `allocate` succeeds into a good pool, returning a block that was free, or
every other block is taken and it stops with the text for an exhausted pool. -/
theorem allocate_spec {p : MemPool α} (hp : p.Inv) (a : α) :
    (∃ q, allocate p a = .ok (p.nextFreeIndex, q) ∧ q.Inv ∧ q.size = p.size ∧
      q.store = Function.update p.store p.nextFreeIndex ⟨a, false⟩) ∨
    (allocate p a = .error outOfSpace ∧
      ∀ j, j < p.size → j ≠ p.nextFreeIndex → p.isFree j = false) := by
  have hfree : (p.store p.nextFreeIndex).isFree = true := hp.next_free
  set q : MemPool α := { p with store := Function.update p.store p.nextFreeIndex ⟨a, false⟩ }
    with hq
  rcases searchFree_self q hp.next_lt (Nat.le_succ _) with ⟨j, hj, hlt, hf⟩ | ⟨herr, hall⟩
  · left
    refine ⟨{ q with nextFreeIndex := j }, ?_, ⟨hlt, hf⟩, rfl, rfl⟩
    simp only [allocate, hfree, assert_true, updateNextFreeIndex, ← hq]
    rw [hj]; rfl
  · right
    refine ⟨?_, fun j hj hne => ?_⟩
    · simp only [allocate, hfree, assert_true, updateNextFreeIndex, ← hq]
      rw [herr]; rfl
    · have hbusy := hall j hj
      simpa [isFree, hq, hne] using hbusy

theorem deallocate_spec {p : MemPool α} {i : Ptr} (hi : i < p.size) (hl : p.isFree i = false) :
    ∃ q, deallocate p i = .ok q ∧ q.size = p.size ∧ q.nextFreeIndex = p.nextFreeIndex ∧
      q.store = Function.update p.store i { p.store i with isFree := true } := by
  have hl' : (p.store i).isFree = false := hl
  refine ⟨{ p with store := Function.update p.store i { p.store i with isFree := true } },
    ?_, rfl, rfl, rfl⟩
  simp [deallocate, hi, hl', bind, Except.bind, pure, Except.pure]

theorem allocate_eq_ok {p q : MemPool α} {a : α} {i : Ptr} (h : allocate p a = .ok (i, q)) :
    p.isFree i = true ∧ q.size = p.size ∧ q.store = Function.update p.store i ⟨a, false⟩ := by
  obtain ⟨_, hfree, h⟩ := bind_eq_ok.mp h
  obtain ⟨r, hr, h⟩ := bind_eq_ok.mp h
  obtain ⟨j, -, hr⟩ := bind_eq_ok.mp hr
  cases h
  cases hr
  exact ⟨assert_eq_ok.mp hfree, rfl, rfl⟩

theorem deallocate_eq_ok {p q : MemPool α} {i : Ptr} (h : deallocate p i = .ok q) :
    i < p.size ∧ p.isFree i = false ∧ q.size = p.size ∧
      q.store = Function.update p.store i { p.store i with isFree := true } := by
  obtain ⟨_, hsize, h⟩ := bind_eq_ok.mp h
  obtain ⟨_, hbusy, h⟩ := bind_eq_ok.mp h
  cases h
  have hlt := assert_eq_ok.mp hsize
  have hused := assert_eq_ok.mp hbusy
  exact ⟨by simpa using hlt, by simpa [isFree] using hused, rfl, rfl⟩

/-- The blocks in use are exactly those of `live`. -/
structure Holds (p : MemPool α) (live : List Ptr) : Prop where
  inv : p.Inv
  busy : ∀ i, p.isFree i = false ↔ i ∈ live
  lt : ∀ i ∈ live, i < p.size

theorem holds_init {num : ℕ} [Inhabited α] (h : 0 < num) : (init num : MemPool α).Holds [] :=
  ⟨inv_init h, fun _ => by simp, fun _ hi => by simp at hi⟩

section Holds
variable {p : MemPool α} {live live' : List Ptr} {i : Ptr}

theorem Holds.congr (h : p.Holds live) (hl : ∀ i, i ∈ live' ↔ i ∈ live) : p.Holds live' :=
  ⟨h.inv, fun i => (h.busy i).trans (hl i).symm, fun i hi => h.lt i ((hl i).mp hi)⟩

theorem Holds.modify (h : p.Holds live) (i : Ptr) (f : α → α) : (p.modify i f).Holds live :=
  ⟨h.inv.modify i f, fun j => by rw [isFree_modify]; exact h.busy j, h.lt⟩

theorem Holds.of_flags {q : MemPool α} (h : p.Holds live) (hsize : q.size = p.size)
    (hnext : q.nextFreeIndex = p.nextFreeIndex) (hfree : ∀ i, q.isFree i = p.isFree i) :
    q.Holds live := by
  constructor
  · exact ⟨by rw [hsize, hnext]; exact h.inv.next_lt, by rw [hnext, hfree]; exact h.inv.next_free⟩
  · intro i
    rw [hfree]
    exact h.busy i
  · intro i hi
    rw [hsize]
    exact h.lt i hi

/-- A pool holds distinct blocks of its range, and never the next free one. -/
theorem Holds.length_lt (h : p.Holds live) (hn : live.Nodup) : live.length < p.size := by
  have hnext : p.nextFreeIndex ∉ live := by
    rw [← h.busy, h.inv.next_free]
    simp
  have hsub : p.nextFreeIndex :: live ⊆ List.range p.size := by
    intro i hi
    rcases List.mem_cons.mp hi with rfl | hi
    · exact List.mem_range.mpr h.inv.next_lt
    · exact List.mem_range.mpr (h.lt i hi)
  have hle := ((List.nodup_cons.mpr ⟨hnext, hn⟩).subperm hsub).length_le
  rw [List.length_range] at hle
  exact hle

theorem Holds.length_le (h : p.Holds live) (hn : live.Nodup) : live.length ≤ p.size :=
  Nat.le_of_lt (h.length_lt hn)

/-- An exhausted pool has at most one block that is not in use. -/
theorem Holds.allocate_spec (h : p.Holds live) (a : α) :
    (∃ i q, allocate p a = .ok (i, q) ∧ i ∉ live ∧ q.Holds (i :: live) ∧ q.size = p.size ∧
      q.get i = a ∧ ∀ j, j ≠ i → q.get j = p.get j) ∨
    (allocate p a = .error outOfSpace ∧ p.size ≤ live.length + 1) := by
  have hnext : p.nextFreeIndex ∉ live := by
    rw [← h.busy, h.inv.next_free]
    simp
  rcases MemPool.allocate_spec h.inv a with ⟨q, hq, hinv, hsize, hstore⟩ | ⟨herr, hbusy⟩
  · left
    refine ⟨p.nextFreeIndex, q, hq, hnext, ?_, hsize, ?_, ?_⟩
    · constructor
      · exact hinv
      · intro i
        by_cases hi : i = p.nextFreeIndex
        · simp [isFree, hstore, hi]
        · have := h.busy i
          simp only [isFree] at this
          simp [isFree, hstore, hi, this]
      · intro i hi
        rw [hsize]
        rcases List.mem_cons.mp hi with rfl | hi
        · exact h.inv.next_lt
        · exact h.lt i hi
    · simp [get, hstore]
    · intro j hj
      simp [get, hstore, hj]
  · right
    refine ⟨herr, ?_⟩
    -- every index but the next free one is held
    have hsub : (List.range p.size).erase p.nextFreeIndex ⊆ live := by
      intro j hj
      rw [List.nodup_range.mem_erase_iff] at hj
      exact (h.busy j).mp (hbusy j (List.mem_range.mp hj.2) hj.1)
    have hle := ((List.nodup_range.erase p.nextFreeIndex).subperm hsub).length_le
    have hlen := List.length_erase_of_mem (List.mem_range.mpr h.inv.next_lt)
    rw [List.length_range] at hlen
    omega

theorem Holds.deallocate_spec (h : p.Holds live) (hi : i ∈ live)
    (hl : ∀ j, j ∈ live' ↔ j ∈ live ∧ j ≠ i) :
    ∃ q, deallocate p i = .ok q ∧ q.Holds live' ∧ q.size = p.size ∧ ∀ j, q.get j = p.get j := by
  obtain ⟨q, hq, hsize, hnext, hstore⟩ :=
    MemPool.deallocate_spec (h.lt i hi) ((h.busy i).mpr hi)
  refine ⟨q, hq, ?_, hsize, ?_⟩
  · constructor
    · have hne : p.nextFreeIndex ≠ i := by
        intro he
        have hbusy := (h.busy i).mpr hi
        rw [← he, h.inv.next_free] at hbusy
        simp at hbusy
      constructor
      · rw [hsize, hnext]; exact h.inv.next_lt
      · have hfree := h.inv.next_free
        simp only [isFree] at hfree
        simp [isFree, hstore, hnext, hne, hfree]
    · intro j
      rw [hl]
      by_cases hj : j = i
      · simp [isFree, hstore, hj]
      · have hjl := h.busy j
        simp only [isFree] at hjl
        simp [isFree, hstore, hj, hjl]
    · intro j hj
      rw [hsize]
      exact h.lt j ((hl j).mp hj).1
  · intro j
    by_cases hj : j = i
    · simp [get, hstore, hj]
    · simp [get, hstore, hj]

end Holds

end MemPool

end HighPerformance
