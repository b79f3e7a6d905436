import Mathlib.Data.List.Chain
import Mathlib.Data.List.Nodup
import Mathlib.Data.List.Rotate

/-!
# Circular doubly linked lists

A heap of nodes is seen only through two partial functions, the forward and the
backward link of a node. `Ring next prev l` says that the nodes of `l`, in this
order, are closed into one circular doubly linked list. The empty list is a
ring: callers keep a null entry pointer for it.

Every surgery of a doubly linked ring is one of three rules up to rotation:
`Ring.frame` (no link of the ring is touched), `Ring.append` (a node is linked
between the last node and the first one) and `Ring.unlink` (the first node is
taken out). Each rule asks only for the values of the new links, so it does not
depend on the order in which a program writes them.
-/

namespace HighPerformance.CircularList

variable {α : Type*}

/-- `b` follows `a`: the two stored links agree. -/
def Linked (next prev : α → Option α) (a b : α) : Prop :=
  next a = some b ∧ prev b = some a

/-- The nodes of `l` form a closed ring in this order. -/
def Ring (next prev : α → Option α) : List α → Prop
  | [] => True
  | a :: l => (a :: l).Nodup ∧ List.IsChain (Linked next prev) (a :: l ++ [a])

/-- The nodes met from `a` along `next` until the link back to `first`. -/
def walk [DecidableEq α] (next : α → Option α) (first : α) : ℕ → α → List α
  | 0, _ => []
  | fuel + 1, a =>
      match next a with
      | none => [a]
      | some b => if b = first then [a] else a :: walk next first fuel b

section Segments
variable {next prev next' prev' : α → Option α}

/-- A segment reads the forward link of every node but its last one and the
backward link of every node but its first one. -/
theorem chain_frame {l : List α} (h : l.IsChain (Linked next prev))
    (hn : ∀ a ∈ l.dropLast, next' a = next a) (hp : ∀ b ∈ l.tail, prev' b = prev b) :
    l.IsChain (Linked next' prev') := by
  induction l with
  | nil => exact .nil
  | cons a l ih =>
    cases l with
    | nil => exact .singleton a
    | cons b l =>
      rw [List.isChain_cons_cons] at h ⊢
      have hab : Linked next' prev' a b :=
        ⟨(hn a (by simp)).trans h.1.1, (hp b (by simp)).trans h.1.2⟩
      refine ⟨hab, ih h.2 (fun c hc => hn c ?_) (fun c hc => hp c ?_)⟩
      · rw [List.dropLast_cons_of_ne_nil (by simp)]
        exact List.mem_cons_of_mem _ hc
      · exact List.mem_cons_of_mem _ hc

end Segments

section Reading
variable {next prev : α → Option α} {a b : α} {l u v : List α}

theorem Ring.nodup (h : Ring next prev l) : l.Nodup := by
  cases l with
  | nil => exact .nil
  | cons a l => exact h.1

theorem Ring.chain (h : Ring next prev (a :: l)) :
    List.IsChain (Linked next prev) (a :: l ++ [a]) := h.2

/-- A ring may be entered at any of its nodes. -/
theorem Ring.rotate (h : Ring next prev (u ++ v)) : Ring next prev (v ++ u) := by
  cases u with
  | nil => simpa using h
  | cons a u =>
    cases v with
    | nil => simpa using h
    | cons b v =>
      have hnd : (b :: v ++ a :: u).Nodup := List.nodup_append_comm.mp h.1
      refine ⟨hnd, ?_⟩
      have hc : List.IsChain (Linked next prev) ((a :: u) ++ b :: (v ++ [a])) := by
        simpa using h.2
      obtain ⟨hu, hv⟩ := List.isChain_split.mp hc
      have hj : List.IsChain (Linked next prev) ((b :: v) ++ a :: (u ++ [b])) :=
        List.isChain_split.mpr ⟨by simpa using hv, by simpa using hu⟩
      simpa using hj

theorem Ring.next_cons_cons (h : Ring next prev (a :: b :: l)) : next a = some b := by
  have hc := h.2
  rw [List.cons_append, List.cons_append, List.isChain_cons_cons] at hc
  exact hc.1.1

theorem Ring.prev_head (h : Ring next prev (a :: l)) :
    prev a = some ((a :: l).getLast (by simp)) := by
  have hc := h.2
  obtain ⟨m, z, hz⟩ : ∃ m z, a :: l = m ++ [z] :=
    ⟨_, _, (List.dropLast_append_getLast (List.cons_ne_nil a l)).symm⟩
  rw [hz, List.append_assoc, List.singleton_append, List.isChain_append] at hc
  have hlast : (a :: l).getLast (by simp) = z := by simp [hz]
  rw [hlast]
  exact (List.isChain_cons_cons.mp hc.2.1).1.2

theorem Ring.next_last (h : Ring next prev (a :: l)) :
    next ((a :: l).getLast (by simp)) = some a := by
  have hc := h.2
  obtain ⟨m, z, hz⟩ : ∃ m z, a :: l = m ++ [z] :=
    ⟨_, _, (List.dropLast_append_getLast (List.cons_ne_nil a l)).symm⟩
  rw [hz, List.append_assoc, List.singleton_append, List.isChain_append] at hc
  have hlast : (a :: l).getLast (by simp) = z := by simp [hz]
  rw [hlast]
  exact (List.isChain_cons_cons.mp hc.2.1).1.1

theorem Ring.next_singleton (h : Ring next prev [a]) : next a = some a := h.next_last

theorem Ring.prev_singleton (h : Ring next prev [a]) : prev a = some a := h.prev_head

theorem Ring.prev_ne_self (h : Ring next prev (a :: b :: l)) : prev a ≠ some a := by
  rw [h.prev_head]
  intro he
  have hlast : (a :: b :: l).getLast (by simp) = (b :: l).getLast (by simp) :=
    List.getLast_cons (by simp)
  rw [hlast, Option.some.injEq] at he
  exact (List.nodup_cons.mp h.1).1 (he ▸ List.getLast_mem _)

theorem Ring.next_ne_self (h : Ring next prev (a :: b :: l)) : next a ≠ some a := by
  rw [h.next_cons_cons]
  intro he
  rw [Option.some.injEq] at he
  exact (List.nodup_cons.mp h.1).1 (he ▸ List.mem_cons_self)

theorem Ring.next_mem (h : Ring next prev l) (ha : a ∈ l) : ∃ b ∈ l, next a = some b := by
  obtain ⟨u, v, rfl⟩ := List.append_of_mem ha
  have hr := h.rotate
  rw [List.cons_append] at hr
  rcases hv : v ++ u with _ | ⟨b, w⟩
  · rw [hv] at hr
    exact ⟨a, by simp, hr.next_singleton⟩
  · rw [hv] at hr
    have hb : b ∈ v ++ u := by simp [hv]
    refine ⟨b, ?_, hr.next_cons_cons⟩
    rcases List.mem_append.mp hb with hb | hb <;> simp [hb]

theorem Ring.prev_mem (h : Ring next prev l) (ha : a ∈ l) : ∃ b ∈ l, prev a = some b := by
  obtain ⟨u, v, rfl⟩ := List.append_of_mem ha
  have hr := h.rotate
  rw [List.cons_append] at hr
  have hm : (a :: (v ++ u)).getLast (by simp) ∈ a :: (v ++ u) := List.getLast_mem _
  refine ⟨_, ?_, hr.prev_head⟩
  rcases List.mem_cons.mp hm with he | he
  · rw [he]; exact ha
  · rcases List.mem_append.mp he with he | he <;> simp [he]

/-- The walk along a segment that is closed by `first` collects the segment. -/
theorem walk_segment [DecidableEq α] {first : α} {fuel : ℕ}
    (hc : List.IsChain (Linked next prev) (a :: l ++ [first])) (hf : first ∉ l)
    (hlen : l.length < fuel) : walk next first fuel a = a :: l := by
  induction l generalizing a fuel with
  | nil =>
    obtain ⟨fuel, rfl⟩ := Nat.exists_eq_succ_of_ne_zero (Nat.ne_of_gt hlen)
    have hn : next a = some first := (List.isChain_cons_cons.mp hc).1.1
    simp [walk, hn]
  | cons b l ih =>
    obtain ⟨fuel, rfl⟩ := Nat.exists_eq_succ_of_ne_zero (Nat.ne_of_gt (Nat.zero_lt_of_lt hlen))
    rw [List.cons_append, List.cons_append, List.isChain_cons_cons] at hc
    have hbf : b ≠ first := fun he => hf (by simp [he])
    have hrest : walk next first fuel b = b :: l :=
      ih hc.2 (fun hm => hf (List.mem_cons_of_mem _ hm)) (by simpa using hlen)
    simp [walk, hc.1.1, hbf, hrest]

/-- One full turn visits every node of the ring once, in order. -/
theorem Ring.walk_eq [DecidableEq α] {fuel : ℕ} (h : Ring next prev (a :: l))
    (hlen : l.length < fuel) : walk next a fuel a = a :: l :=
  walk_segment h.2 (List.nodup_cons.mp h.1).1 hlen

end Reading

section Surgery
variable {next prev next' prev' : α → Option α} {a b x : α} {l : List α}

theorem Ring.frame (h : Ring next prev l) (hn : ∀ c ∈ l, next' c = next c)
    (hp : ∀ c ∈ l, prev' c = prev c) : Ring next' prev' l := by
  cases l with
  | nil => trivial
  | cons a l =>
    refine ⟨h.1, chain_frame h.2 (fun c hc => hn c ?_) (fun c hc => hp c ?_)⟩
    · rwa [List.dropLast_concat] at hc
    · rcases List.mem_append.mp (by simpa using hc : c ∈ l ++ [a]) with hc | hc
      · exact List.mem_cons_of_mem _ hc
      · simp_all

theorem Ring.singleton (hn : next a = some a) (hp : prev a = some a) : Ring next prev [a] :=
  ⟨List.nodup_singleton a, by simp [Linked, hn, hp]⟩

/-- Linking `x` between the last node and the entry. -/
theorem Ring.append (h : Ring next prev (a :: l)) (hx : x ∉ a :: l)
    (hnx : next' x = some a) (hpx : prev' x = prev a)
    (hnl : ∀ c ∈ a :: l, prev a = some c → next' c = some x) (hpa : prev' a = some x)
    (hn : ∀ c ∈ a :: l, prev a ≠ some c → next' c = next c)
    (hp : ∀ c ∈ l, prev' c = prev c) : Ring next' prev' (a :: l ++ [x]) := by
  have hlast := h.prev_head
  obtain ⟨m, z, hz⟩ : ∃ m z, a :: l = m ++ [z] :=
    ⟨_, _, (List.dropLast_append_getLast (List.cons_ne_nil a l)).symm⟩
  have hlz : (a :: l).getLast (by simp) = z := by simp [hz]
  rw [hlz] at hlast
  have hmem : ∀ c, c ∈ m ++ [z] → c ∈ a :: l := fun c hc => by rwa [hz]
  have hnd := h.1
  -- only the last node gets a new forward link, only the entry a new backward one
  have hseg : List.IsChain (Linked next' prev') (a :: l) := by
    refine chain_frame (h.2.left_of_append) (fun c hc => ?_) (fun c hc => hp c (by simpa using hc))
    rw [hz, List.dropLast_concat] at hc
    refine hn c (hmem c (by simp [hc])) (fun he => ?_)
    rw [hlast, Option.some.injEq] at he
    rw [hz, List.nodup_append] at hnd
    exact hnd.2.2 c hc z (by simp) he.symm
  have hzx : Linked next' prev' z x := ⟨hnl z (hmem z (by simp)) hlast, hpx.trans hlast⟩
  have hxa : Linked next' prev' x a := ⟨hnx, hpa⟩
  have hnodup : (a :: l ++ [x]).Nodup := by
    rw [List.nodup_append]
    exact ⟨h.1, List.nodup_singleton x, fun c hc d hd he => hx (by simp_all)⟩
  have hchain : List.IsChain (Linked next' prev') (a :: l ++ [x] ++ [a]) := by
    rw [hz] at hseg ⊢
    rw [List.append_assoc, List.append_assoc]
    exact List.isChain_split.mpr ⟨hseg, by simp [hzx, hxa]⟩
  exact ⟨hnodup, hchain⟩

/-- Taking the entry out of a ring of two or more nodes. -/
theorem Ring.unlink (h : Ring next prev (x :: a :: l))
    (hnl : ∀ c ∈ a :: l, prev x = some c → next' c = some a) (hpa : prev' a = prev x)
    (hn : ∀ c ∈ a :: l, prev x ≠ some c → next' c = next c)
    (hp : ∀ c ∈ l, prev' c = prev c) : Ring next' prev' (a :: l) := by
  have hlast := h.prev_head
  rw [List.getLast_cons (by simp)] at hlast
  obtain ⟨m, z, hz⟩ : ∃ m z, a :: l = m ++ [z] :=
    ⟨_, _, (List.dropLast_append_getLast (List.cons_ne_nil a l)).symm⟩
  have hlz : (a :: l).getLast (by simp) = z := by simp [hz]
  rw [hlz] at hlast
  have hmem : ∀ c, c ∈ m ++ [z] → c ∈ a :: l := fun c hc => by rwa [hz]
  have hnd := (List.nodup_cons.mp h.1).2
  have hc : List.IsChain (Linked next prev) (a :: l) :=
    (List.isChain_cons_cons.mp h.2).2.left_of_append
  have hseg : List.IsChain (Linked next' prev') (a :: l) := by
    refine chain_frame hc (fun c hc => ?_) (fun c hc => hp c (by simpa using hc))
    rw [hz, List.dropLast_concat] at hc
    refine hn c (hmem c (by simp [hc])) (fun he => ?_)
    rw [hlast, Option.some.injEq] at he
    rw [hz, List.nodup_append] at hnd
    exact hnd.2.2 c hc z (by simp) he.symm
  have hza : Linked next' prev' z a :=
    ⟨hnl z (hmem z (by simp)) hlast, hpa.trans hlast⟩
  refine ⟨(List.nodup_cons.mp h.1).2, ?_⟩
  rw [hz] at hseg ⊢
  rw [List.append_assoc]
  exact List.isChain_split.mpr ⟨hseg, by simp [hza]⟩

end Surgery

end HighPerformance.CircularList
