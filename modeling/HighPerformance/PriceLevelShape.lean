import HighPerformance.PriceLevelLinks
import Mathlib.Algebra.Order.Group.Nat
import Mathlib.Data.List.Perm.Basic
import Mathlib.Data.List.TakeWhile

/-!
# The book as two sorted lists of levels

A `Shape` is what a `LevelBook` stands for: for each side its price levels, best
first, and for each level its orders, oldest first. `Shaped b S pend` says that
the pools, links and pointers of `b` store exactly `S`; `pend` are the order
blocks in use that are on no level, which is the state of affairs inside
`addOrder` and `removeOrder`. `Indexed` is the same for the table of live orders.
-/

namespace HighPerformance
open CircularList

/-- An order on the ring of a level. -/
structure Resting (ι : Type) where
  addr : Ptr
  ident : ι
  side : Side
  qty : ℕ
  priority : ℕ

structure PriceLevel (ι : Type) where
  addr : Ptr
  side : Side
  price : ℕ
  orders : List (Resting ι)

/-- The levels of the bids (`true`) and of the asks (`false`). -/
abbrev Shape (ι : Type) := Bool → List (PriceLevel ι)

def sideOf (d : Bool) : Side := if d then .buy else .sell

@[simp] theorem sideOf_beq_buy (d : Bool) : (sideOf d == .buy) = d := by cases d <;> rfl

/-- Closer to the front of side `d`. -/
def better (d : Bool) (p q : ℕ) : Prop := if d then q < p else p < q

theorem better_irrefl (d : Bool) (p : ℕ) : ¬better d p p := by
  cases d <;> simp [better]

theorem better_trans {d : Bool} {p q r : ℕ} (h : better d p q) (h' : better d q r) :
    better d p r := by
  cases d <;> simp [better] at * <;> omega

theorem better_of_ne {d : Bool} {p q : ℕ} (h : ¬better d p q) (hne : p ≠ q) : better d q p := by
  cases d <;> simp [better] at * <;> omega

theorem behind_sideOf (d : Bool) (price target : ℕ) :
    behind (sideOf d) price target = true ↔ better d target price := by
  cases d <;> simp [behind, sideOf, better]

namespace Shape
variable {ι : Type}

def levels (S : Shape ι) : List (PriceLevel ι) := S true ++ S false

def orders (S : Shape ι) : List (Resting ι) := S.levels.flatMap (·.orders)

/-- The orders at a price, oldest first. -/
def ordersAt (ls : List (PriceLevel ι)) (price : ℕ) : List (Resting ι) :=
  (ls.filter fun L => L.price = price).flatMap (·.orders)

def contents (S : Shape ι) (d : Bool) (price : ℕ) : List (Resting ι) := ordersAt (S d) price

def set (S : Shape ι) (d : Bool) (ls : List (PriceLevel ι)) : Shape ι := Function.update S d ls

def stays (N M : PriceLevel ι) : Bool := behind N.side N.price M.price

/-- The orders of a side with their prices, in the order in which they trade. -/
def queue (ls : List (PriceLevel ι)) : List (ℕ × Resting ι) :=
  ls.flatMap fun L => L.orders.map fun o => (L.price, o)

/-- A level with other orders; without orders it is gone. -/
def refill (L : PriceLevel ι) (os : List (Resting ι)) : List (PriceLevel ι) :=
  if os = [] then [] else [{ L with orders := os }]

/-- The new level stands behind the better ones. -/
def placeLevel (N : PriceLevel ι) (ls : List (PriceLevel ι)) : List (PriceLevel ι) :=
  ls.takeWhile (stays N) ++ N :: ls.dropWhile (stays N)

/-- Every order is a buy or a sell. -/
def Sided (S : Shape ι) : Prop := ∀ o ∈ S.orders, o.side = .buy ∨ o.side = .sell

section Lists
variable {S : Shape ι} {d e : Bool} {ls : List (PriceLevel ι)} {L N : PriceLevel ι} {price : ℕ}

@[simp] theorem set_same : S.set d ls d = ls := by simp [set]
@[simp] theorem set_not : S.set d ls (!d) = S (!d) := by simp [set]
theorem set_ne (h : e ≠ d) : S.set d ls e = S e := by simp [set, h]

theorem forall_side {P : Bool → Prop} (d : Bool) (h : P d) (h' : P (!d)) (e : Bool) : P e := by
  by_cases he : e = d
  · rwa [he]
  · have hed : e = !d := by cases e <;> cases d <;> simp_all
    rwa [hed]

theorem mem_levels : L ∈ S.levels ↔ ∃ d, L ∈ S d := by
  simp [levels, Bool.exists_bool, or_comm]

theorem levels_perm (S : Shape ι) (d : Bool) : S.levels.Perm (S d ++ S (!d)) := by
  cases d
  · exact List.perm_append_comm
  · exact List.Perm.refl _

theorem levels_set_perm : (S.set d ls).levels.Perm (ls ++ S (!d)) := by
  simpa using (S.set d ls).levels_perm d

theorem orders_perm (S : Shape ι) (d : Bool) :
    S.orders.Perm ((S d).flatMap (·.orders) ++ (S (!d)).flatMap (·.orders)) := by
  rw [← List.flatMap_append]
  exact (S.levels_perm d).flatMap_right _

theorem mem_orders {o : Resting ι} : o ∈ S.orders ↔ ∃ d, ∃ L ∈ S d, o ∈ L.orders := by
  simp only [orders, List.mem_flatMap, mem_levels]
  constructor
  · rintro ⟨L, ⟨d, hL⟩, ho⟩
    exact ⟨d, L, hL, ho⟩
  · rintro ⟨d, L, hL, ho⟩
    exact ⟨L, ⟨d, hL⟩, ho⟩

theorem mem_contents {o : Resting ι} :
    o ∈ S.contents d price ↔ ∃ L ∈ S d, L.price = price ∧ o ∈ L.orders := by
  simp only [contents, ordersAt, List.mem_flatMap, List.mem_filter, decide_eq_true_eq, and_assoc]

theorem mem_orders_iff_contents {o : Resting ι} :
    o ∈ S.orders ↔ ∃ d price, o ∈ S.contents d price := by
  simp only [mem_orders, mem_contents]
  constructor
  · rintro ⟨d, L, hL, ho⟩
    exact ⟨d, L.price, L, hL, rfl, ho⟩
  · rintro ⟨d, -, L, hL, -, ho⟩
    exact ⟨d, L, hL, ho⟩

theorem contents_set : (S.set d ls).contents e price =
    if e = d then ordersAt ls price else S.contents e price := by
  by_cases h : e = d
  · subst h
    simp [contents]
  · simp [contents, set_ne h, h]

theorem placeLevel_perm : (placeLevel N ls).Perm (N :: ls) := by
  unfold placeLevel
  refine List.perm_middle.trans (.cons _ ?_)
  rw [List.takeWhile_append_dropWhile]

theorem mem_placeLevel : L ∈ placeLevel N ls ↔ L = N ∨ L ∈ ls := by
  rw [placeLevel_perm.mem_iff, List.mem_cons]

/-- Placing keeps a side sorted. The levels in front are better than the new
one; the first one behind is worse, and so are those after it. -/
theorem placeLevel_sorted (h : (ls.map (·.price)).Pairwise (better d))
    (hN : N.side = sideOf d ∨ ls = []) (hne : ∀ M ∈ ls, M.price ≠ N.price) :
    ((placeLevel N ls).map (·.price)).Pairwise (better d) := by
  unfold placeLevel
  induction ls with
  | nil => simp
  | cons M ls ih =>
    have hside : N.side = sideOf d := by simpa using hN
    have hstays : stays N M = true ↔ better d M.price N.price := by
      rw [stays, hside]
      exact behind_sideOf _ _ _
    simp only [List.map_cons, List.pairwise_cons, List.mem_map, forall_exists_index, and_imp,
      forall_apply_eq_imp_iff₂] at h
    have hls : ∀ M' ∈ ls, M'.price ≠ N.price := fun M' hM' => hne M' (List.mem_cons_of_mem _ hM')
    by_cases hM : stays N M = true
    · have hbetter : better d M.price N.price := hstays.mp hM
      have hmem : ∀ M' ∈ ls.takeWhile (stays N) ++ N :: ls.dropWhile (stays N),
          better d M.price M'.price := by
        intro M' hM'
        rcases mem_placeLevel.mp hM' with rfl | hM'
        · exact hbetter
        · exact h.1 M' hM'
      rw [List.takeWhile_cons_of_pos hM, List.dropWhile_cons_of_pos hM, List.cons_append,
        List.map_cons, List.pairwise_cons]
      constructor
      · simpa only [List.mem_map, forall_exists_index, and_imp,
          forall_apply_eq_imp_iff₂] using hmem
      · exact ih h.2 (.inl hside) hls
    · have hworse : better d N.price M.price :=
        better_of_ne (fun hb => hM (hstays.mpr hb)) (hne M (by simp))
      rw [List.takeWhile_cons_of_neg hM, List.dropWhile_cons_of_neg hM, List.nil_append]
      simp only [List.map_cons, List.pairwise_cons, List.mem_cons, List.mem_map, forall_eq_or_imp,
        forall_exists_index, and_imp, forall_apply_eq_imp_iff₂]
      exact ⟨⟨hworse, fun M' hM' => better_trans hworse (h.1 M' hM')⟩, h⟩

theorem prices_nodup (h : (ls.map (·.price)).Pairwise (better d)) : (ls.map (·.price)).Nodup := by
  apply h.imp
  intro p q hb he
  exact better_irrefl d p (he ▸ hb)

@[simp] theorem queue_append {u w : List (PriceLevel ι)} : queue (u ++ w) = queue u ++ queue w := by
  simp [queue]

@[simp] theorem queue_cons :
    queue (L :: ls) = (L.orders.map fun o => (L.price, o)) ++ queue ls := by
  simp [queue]

@[simp] theorem queue_nil : queue ([] : List (PriceLevel ι)) = [] := rfl

@[simp] theorem queue_refill {os : List (Resting ι)} :
    queue (refill L os) = os.map fun o => (L.price, o) := by
  by_cases h : os = []
  · simp [refill, h]
  · simp [refill, h]

theorem queue_eq_nil (hne : ∀ L ∈ ls, L.orders ≠ []) (h : queue ls = []) : ls = [] := by
  cases ls with
  | nil => rfl
  | cons L ls =>
    rw [queue_cons, List.append_eq_nil_iff, List.map_eq_nil_iff] at h
    exact (hne L (by simp) h.1).elim

theorem queue_eq_cons {o : Resting ι} {q : List (ℕ × Resting ι)} (hne : ∀ L ∈ ls, L.orders ≠ [])
    (h : queue ls = (price, o) :: q) : ∃ L w y, ls = L :: w ∧ L.orders = o :: y ∧
      L.price = price ∧ q = (y.map fun z => (L.price, z)) ++ queue w := by
  cases ls with
  | nil => cases h
  | cons L w =>
    cases ho : L.orders with
    | nil => exact (hne L (by simp) ho).elim
    | cons z y =>
      rw [queue_cons, ho, List.map_cons, List.cons_append, List.cons.injEq, Prod.mk.injEq] at h
      obtain ⟨⟨hp, rfl⟩, hq⟩ := h
      exact ⟨L, w, y, rfl, ho, hp, hq.symm⟩

theorem ordersAt_eq_queue :
    ordersAt ls price = ((queue ls).filter fun x => x.1 = price).map Prod.snd := by
  induction ls with
  | nil => rfl
  | cons L ls ih =>
    rw [queue_cons, List.filter_append, List.map_append, ← ih]
    by_cases hp : L.price = price
    · simp [ordersAt, hp, List.filter_map, Function.comp_def]
    · simp [ordersAt, hp, List.filter_map, Function.comp_def]

theorem queue_orders : (queue ls).map Prod.snd = ls.flatMap (·.orders) := by
  simp [queue, List.map_flatMap, Function.comp_def]

theorem length_queue : (queue ls).length = (ls.flatMap (·.orders)).length := by
  rw [← queue_orders, List.length_map]

/-- Along the queue of a sorted side prices never get better. -/
theorem queue_sorted (h : (ls.map (·.price)).Pairwise (better d)) :
    (queue ls).Pairwise fun x y => ¬better d y.1 x.1 := by
  induction ls with
  | nil => simp
  | cons L ls ih =>
    rw [List.map_cons, List.pairwise_cons] at h
    rw [queue_cons, List.pairwise_append]
    refine ⟨?_, ih h.2, ?_⟩
    · rw [List.pairwise_map]
      exact List.pairwise_of_forall fun x y => better_irrefl d L.price
    · intro x hx y hy hb
      obtain ⟨o, -, rfl⟩ := List.mem_map.mp hx
      obtain ⟨M, hM, hy⟩ := List.mem_flatMap.mp hy
      obtain ⟨o', -, rfl⟩ := List.mem_map.mp hy
      have hLM := h.1 M.price (List.mem_map_of_mem hM)
      exact better_irrefl d _ (better_trans hb hLM)

theorem ordersAt_append {u w : List (PriceLevel ι)} :
    ordersAt (u ++ w) price = ordersAt u price ++ ordersAt w price := by
  simp [ordersAt]

theorem ordersAt_eq_nil (h : ∀ M ∈ ls, M.price ≠ price) : ordersAt ls price = [] := by
  unfold ordersAt
  rw [List.filter_eq_nil_iff.mpr (fun M hM => by simpa using h M hM), List.flatMap_nil]

theorem ordersAt_middle {u w : List (PriceLevel ι)} (hne : ∀ M ∈ u ++ w, M.price ≠ L.price) :
    ordersAt (u ++ L :: w) price = if price = L.price then L.orders else ordersAt (u ++ w) price := by
  have hcons : ordersAt (L :: w) price =
      (if price = L.price then L.orders else []) ++ ordersAt w price := by
    by_cases hp : L.price = price
    · simp [ordersAt, hp]
    · simp [ordersAt, hp, Ne.symm hp]
  rw [ordersAt_append, hcons, ordersAt_append]
  split
  · next hp =>
    subst hp
    rw [ordersAt_eq_nil fun M hM => hne M (by simp [hM]),
      ordersAt_eq_nil fun M hM => hne M (by simp [hM])]
    simp
  · simp

theorem placeLevel_addr {κ : Type} {b : LevelBook ι κ}
    (h : ∀ M ∈ ls, (b.level M.addr).price = M.price) :
    (placeLevel N ls).map (·.addr) =
      LevelBook.placed b N.side N.price N.addr (ls.map (·.addr)) := by
  have hstays : ∀ M ∈ ls, stays N M = behind N.side N.price (b.level M.addr).price := by
    intro M hM
    rw [h M hM]
    rfl
  unfold placeLevel LevelBook.placed
  induction ls with
  | nil => rfl
  | cons M ls ih =>
    have hM := hstays M (by simp)
    have ih := ih (fun M hM => h M (by simp [hM])) (fun M hM => hstays M (by simp [hM]))
    rw [List.map_cons, List.takeWhile_cons, List.takeWhile_cons, List.dropWhile_cons,
      List.dropWhile_cons, ← hM]
    cases stays N M with
    | false => simp
    | true => simpa using ih

theorem ne_price_of_split {u w : List (PriceLevel ι)}
    (h : ((u ++ L :: w).map (·.price)).Pairwise (better d)) :
    ∀ M ∈ u ++ w, M.price ≠ L.price := by
  have hnd := (prices_nodup h)
  rw [(List.perm_middle.map _).nodup_iff, List.map_cons, List.nodup_cons] at hnd
  intro M hM he
  exact hnd.1 (he ▸ List.mem_map_of_mem hM)

theorem ordersAt_placeLevel (hne : ∀ M ∈ ls, M.price ≠ N.price) :
    ordersAt (placeLevel N ls) price = if price = N.price then N.orders else ordersAt ls price := by
  unfold placeLevel
  rw [ordersAt_middle, List.takeWhile_append_dropWhile]
  rwa [List.takeWhile_append_dropWhile]

end Lists

end Shape

/-- Level `L` of side `d` as the pools store it. -/
structure LevelRep {ι κ : Type} (b : LevelBook ι κ) (d : Bool) (L : PriceLevel ι) : Prop where
  data : b.levelData L.addr = (L.side, L.price, (L.orders.map (·.addr)).head?)
  side : (L.side == .buy) = d
  nonempty : L.orders ≠ []
  ring : Ring b.nextOrder b.prevOrder (L.orders.map (·.addr))
  orders : ∀ o ∈ L.orders,
    o.side = L.side ∧ b.orderData o.addr = (o.ident, o.side, L.price, o.qty, o.priority)

/-- The levels themselves: rings, best pointers, price table and pool. -/
structure LevelsRep {ι κ : Type} (b : LevelBook ι κ) (S : Shape ι) : Prop where
  best : ∀ d, b.best d = ((S d).map (·.addr)).head?
  ring : ∀ d, Ring b.nextEntry b.prevEntry ((S d).map (·.addr))
  sorted : ∀ d, ((S d).map (·.price)).Pairwise (better d)
  priceLt : ∀ d, ∀ L ∈ S d, L.price < meMaxPriceLevels
  nodup : (S.levels.map (·.addr)).Nodup
  priceTable : ∀ i l, b.priceOrdersAtPrices i = some l ↔ ∃ L ∈ S.levels, L.addr = l ∧ L.price = i
  pool : b.ordersAtPricePool.Holds (S.levels.map (·.addr))
  poolSize : b.ordersAtPricePool.size = meMaxPriceLevels

structure Shaped {ι κ : Type} (b : LevelBook ι κ) (S : Shape ι) (pend : List Ptr) : Prop where
  levels : LevelsRep b S
  level : ∀ d, ∀ L ∈ S d, LevelRep b d L
  nodup : (pend ++ S.orders.map (·.addr)).Nodup
  pool : b.orderPool.Holds (pend ++ S.orders.map (·.addr))
  poolSize : b.orderPool.size = meMaxOrderIds

/-- The table of live orders has exactly the orders of the shape. -/
def Indexed {ι κ : Type} (k : BookKind ι κ) (b : LevelBook ι κ) (S : Shape ι) : Prop :=
  ∀ id p, b.idToOrder id = some p ↔ ∃ o ∈ S.orders, o.addr = p ∧ k.key o.ident = id

namespace LevelBook
variable {ι κ : Type}

/-- The levels met from the best one along `next_entry_`. -/
def readLevels (b : LevelBook ι κ) (d : Bool) : List Ptr :=
  match b.best d with
  | none => []
  | some l => walk b.nextEntry l b.ordersAtPricePool.size l

/-- The orders met from the first one of a level along `next_order_`. -/
def readOrders (b : LevelBook ι κ) (l : Ptr) : List Ptr :=
  match (b.level l).firstOrder with
  | none => []
  | some p => walk b.nextOrder p b.orderPool.size p

end LevelBook

/-- The first comparison of the search agrees with the later ones, or cannot
lead it past the only level. -/
def SearchStarts {ι κ : Type} (k : BookKind ι κ) (side : Side) (price : ℕ)
    (ls : List (PriceLevel ι)) : Prop :=
  ∀ M w, ls = M :: w →
    k.startsAfter side price M.price = behind side price M.price ∨
      w = [] ∧ k.startsAfter side price M.price = true

section Frames
variable {ι κ : Type} {b b' : LevelBook ι κ} {S S' : Shape ι} {pend pend' : List Ptr} {d : Bool}
  {L : PriceLevel ι} {ls : List (PriceLevel ι)}

/-- `b'` stores the order block `q` as `b` does. -/
structure SameOrder (b b' : LevelBook ι κ) (q : Ptr) : Prop where
  next : b'.nextOrder q = b.nextOrder q
  prev : b'.prevOrder q = b.prevOrder q
  data : b'.orderData q = b.orderData q

/-- `b'` keeps the levels as `b` does, up to the orders on them. -/
structure SameLevels (b b' : LevelBook ι κ) : Prop where
  best : ∀ d, b'.best d = b.best d
  next : ∀ l, b'.nextEntry l = b.nextEntry l
  prev : ∀ l, b'.prevEntry l = b.prevEntry l
  priceTable : b'.priceOrdersAtPrices = b.priceOrdersAtPrices
  poolSize : b'.ordersAtPricePool.size = b.ordersAtPricePool.size
  poolNext : b'.ordersAtPricePool.nextFreeIndex = b.ordersAtPricePool.nextFreeIndex
  poolFree : ∀ l, b'.ordersAtPricePool.isFree l = b.ordersAtPricePool.isFree l

theorem LevelRep.frame (h : LevelRep b d L) (hdata : b'.levelData L.addr = b.levelData L.addr)
    (hord : ∀ o ∈ L.orders, SameOrder b b' o.addr) : LevelRep b' d L := by
  constructor
  · rw [hdata]
    exact h.data
  · exact h.side
  · exact h.nonempty
  · apply h.ring.frame
    · intro c hc
      obtain ⟨o, ho, rfl⟩ := List.mem_map.mp hc
      exact (hord o ho).next
    · intro c hc
      obtain ⟨o, ho, rfl⟩ := List.mem_map.mp hc
      exact (hord o ho).prev
  · intro o ho
    rw [(hord o ho).data]
    exact h.orders o ho

/-- The levels depend on the shape only through their addresses and prices. -/
theorem LevelsRep.congr (h : LevelsRep b S) (hs : SameLevels b b')
    (hk : ∀ d, (S' d).map (fun L => (L.addr, L.price)) = (S d).map fun L => (L.addr, L.price)) :
    LevelsRep b' S' := by
  have haddr : ∀ d, (S' d).map (·.addr) = (S d).map (·.addr) := by
    intro d
    simpa [Function.comp_def] using congrArg (List.map Prod.fst) (hk d)
  have hprice : ∀ d, (S' d).map (·.price) = (S d).map (·.price) := by
    intro d
    simpa [Function.comp_def] using congrArg (List.map Prod.snd) (hk d)
  have haddrs : S'.levels.map (·.addr) = S.levels.map (·.addr) := by
    simp only [Shape.levels, List.map_append, haddr]
  have hkeys : S'.levels.map (fun L => (L.addr, L.price)) =
      S.levels.map fun L => (L.addr, L.price) := by
    simp only [Shape.levels, List.map_append, hk]
  constructor
  · intro d
    rw [hs.best, haddr]
    exact h.best d
  · intro d
    rw [haddr]
    exact (h.ring d).frame (fun c _ => hs.next c) (fun c _ => hs.prev c)
  · intro d
    rw [hprice]
    exact h.sorted d
  · intro d L hL
    have hm : L.price ∈ (S d).map (·.price) := by
      rw [← hprice]
      exact List.mem_map_of_mem hL
    obtain ⟨M, hM, he⟩ := List.mem_map.mp hm
    rw [← he]
    exact h.priceLt d M hM
  · rw [haddrs]
    exact h.nodup
  · intro i l
    have hmem : ∀ T : Shape ι, (∃ L ∈ T.levels, L.addr = l ∧ L.price = i) ↔
        (l, i) ∈ T.levels.map fun L => (L.addr, L.price) := by
      intro T
      simp only [List.mem_map, Prod.mk.injEq]
    rw [hs.priceTable, h.priceTable, hmem, hmem, hkeys]
  · rw [haddrs]
    exact h.pool.of_flags hs.poolSize hs.poolNext hs.poolFree
  · rw [hs.poolSize]
    exact h.poolSize

theorem Shaped.update (h : Shaped b S pend) (hlevels : LevelsRep b' (S.set d ls))
    (hnew : ∀ L ∈ ls, LevelRep b' d L) (hold : ∀ L ∈ S (!d), LevelRep b' (!d) L)
    (hperm : (pend' ++ (ls.flatMap (·.orders)).map (·.addr)).Perm
      (pend ++ ((S d).flatMap (·.orders)).map (·.addr)))
    (hsize : b'.orderPool.size = b.orderPool.size)
    (hnext : b'.orderPool.nextFreeIndex = b.orderPool.nextFreeIndex)
    (hfree : ∀ q, b'.orderPool.isFree q = b.orderPool.isFree q) :
    Shaped b' (S.set d ls) pend' := by
  have hall : (pend' ++ (S.set d ls).orders.map (·.addr)).Perm
      (pend ++ S.orders.map (·.addr)) := by
    have h₁ := ((S.set d ls).orders_perm d).map (·.addr)
    have h₂ := (S.orders_perm d).map (·.addr)
    rw [Shape.set_same, Shape.set_not, List.map_append] at h₁
    rw [List.map_append] at h₂
    refine (h₁.append_left _).trans (List.Perm.trans ?_ (h₂.symm.append_left _))
    rw [← List.append_assoc, ← List.append_assoc]
    exact hperm.append_right _
  constructor
  · exact hlevels
  · intro e L hL
    by_cases he : e = d
    · subst he
      rw [Shape.set_same] at hL
      exact hnew L hL
    · have hed : e = !d := by cases e <;> cases d <;> simp_all
      subst hed
      rw [Shape.set_not] at hL
      exact hold L hL
  · exact hall.nodup_iff.mpr h.nodup
  · exact (h.pool.congr fun i => hall.mem_iff).of_flags hsize hnext hfree
  · rw [hsize]
    exact h.poolSize

/-- The table of live orders is no part of what `Shaped` looks at. -/
theorem Shaped.setIds (h : Shaped b S pend) (t : κ → Option Ptr) :
    Shaped { b with idToOrder := t } S pend := by
  constructor
  · exact h.levels.congr ⟨fun _ => rfl, fun _ => rfl, fun _ => rfl, rfl, rfl, rfl, fun _ => rfl⟩
      fun _ => rfl
  · intro d L hL
    exact (h.level d L hL).frame rfl fun _ _ => ⟨rfl, rfl, rfl⟩
  · exact h.nodup
  · exact h.pool
  · exact h.poolSize

/-- Blocks outside the shape may be taken or given back. -/
theorem Shaped.setPool {q : MemPool (BookOrder ι)} (h : Shaped b S pend)
    (hnodup : (pend' ++ S.orders.map (·.addr)).Nodup)
    (hholds : q.Holds (pend' ++ S.orders.map (·.addr))) (hsize : q.size = b.orderPool.size)
    (hget : ∀ p ∈ S.orders.map (·.addr), q.get p = b.orderPool.get p) :
    Shaped { b with orderPool := q } S pend' := by
  have horder : ∀ d, ∀ L ∈ S d, ∀ o ∈ L.orders,
      SameOrder b { b with orderPool := q } o.addr := by
    intro d L hL o ho
    have hq := hget o.addr (List.mem_map_of_mem (Shape.mem_orders.mpr ⟨d, L, hL, ho⟩))
    constructor
    · exact congrArg (·.nextOrder) hq
    · exact congrArg (·.prevOrder) hq
    · simp only [LevelBook.orderData, LevelBook.order, hq]
  constructor
  · exact h.levels.congr ⟨fun _ => rfl, fun _ => rfl, fun _ => rfl, rfl, rfl, rfl, fun _ => rfl⟩
      fun _ => rfl
  · intro d L hL
    exact (h.level d L hL).frame rfl (horder d L hL)
  · exact hnodup
  · exact hholds
  · exact hsize.trans h.poolSize

theorem Shaped.level_side (h : Shaped b S pend) (hs : S.Sided) (hL : L ∈ S d) :
    L.side = sideOf d := by
  have hrep := h.level d L hL
  obtain ⟨o, ho⟩ := List.exists_mem_of_ne_nil _ hrep.nonempty
  have hside := (hrep.orders o ho).1
  have hdir := hrep.side
  rcases hs o (Shape.mem_orders.mpr ⟨d, L, hL, ho⟩) with hb | hb
  · rw [← hside, hb] at hdir ⊢
    rw [← hdir]
    rfl
  · rw [← hside, hb] at hdir ⊢
    rw [← hdir]
    rfl

theorem LevelsRep.contents_eq (h : LevelsRep b S) (hL : L ∈ S d) :
    S.contents d L.price = L.orders := by
  obtain ⟨u, w, hS⟩ := List.append_of_mem hL
  rw [Shape.contents, hS, Shape.ordersAt_middle (Shape.ne_price_of_split (hS ▸ h.sorted d)),
    if_pos rfl]

theorem Shaped.orders_addr_inj {x y : Resting ι} (h : Shaped b S pend) (hx : x ∈ S.orders)
    (hy : y ∈ S.orders) (he : x.addr = y.addr) : x = y :=
  List.inj_on_of_nodup_map (List.nodup_append.mp h.nodup).2.1 hx hy he

theorem Shaped.length_levels_le (h : Shaped b S pend) (d : Bool) :
    (S d).length ≤ b.ordersAtPricePool.size := by
  have hle := h.levels.pool.length_le h.levels.nodup
  have hperm := (S.levels_perm d).length_eq
  rw [List.length_map] at hle
  rw [List.length_append] at hperm
  omega

theorem Shaped.length_orders_le (h : Shaped b S pend) : S.orders.length ≤ b.orderPool.size := by
  have hle := h.pool.length_le h.nodup
  rw [List.length_append, List.length_map] at hle
  omega

theorem Shaped.readLevels_eq (h : Shaped b S pend) (d : Bool) :
    b.readLevels d = (S d).map (·.addr) := by
  have hbest := h.levels.best d
  have hring := h.levels.ring d
  have hlen := h.length_levels_le d
  unfold LevelBook.readLevels
  cases hS : S d with
  | nil =>
    rw [hS] at hbest
    rw [hbest]
    rfl
  | cons L w =>
    rw [hS] at hbest hring hlen
    rw [hbest]
    apply hring.walk_eq
    rw [List.length_map]
    exact hlen

theorem LevelRep.firstOrder (h : LevelRep b d L) :
    (b.level L.addr).firstOrder = (L.orders.map (·.addr)).head? :=
  congrArg (fun x => x.2.2) h.data

theorem LevelRep.price (h : LevelRep b d L) : (b.level L.addr).price = L.price :=
  congrArg (fun x => x.2.1) h.data

theorem Shaped.length_level_le (h : Shaped b S pend) (hL : L ∈ S d) :
    L.orders.length ≤ b.orderPool.size := by
  refine le_trans ?_ h.length_orders_le
  apply List.Sublist.length_le
  rw [Shape.orders, List.flatMap_def]
  exact List.sublist_flatten_of_mem (List.mem_map_of_mem (Shape.mem_levels.mpr ⟨d, hL⟩))

theorem Shaped.readOrders_eq (h : Shaped b S pend) (hL : L ∈ S d) :
    b.readOrders L.addr = L.orders.map (·.addr) := by
  have hrep := h.level d L hL
  have hring := hrep.ring
  have hlen := h.length_level_le hL
  unfold LevelBook.readOrders
  rw [hrep.firstOrder]
  cases ho : L.orders with
  | nil => exact (hrep.nonempty ho).elim
  | cons o y =>
    rw [ho] at hring hlen
    apply hring.walk_eq
    rw [List.length_map]
    exact hlen

end Frames

section Init
variable {ι κ : Type}

@[simp] theorem Shape.levels_nil : Shape.levels (fun _ => ([] : List (PriceLevel ι))) = [] := rfl
@[simp] theorem Shape.orders_nil : Shape.orders (fun _ => ([] : List (PriceLevel ι))) = [] := rfl

variable [Inhabited ι]

theorem shaped_init : Shaped (LevelBook.init : LevelBook ι κ) (fun _ => []) [] := by
  constructor
  · constructor
    · intro d
      cases d <;> rfl
    · intro d
      trivial
    · intro d
      exact List.Pairwise.nil
    · intro d L hL
      simp at hL
    · rw [Shape.levels_nil]
      exact List.nodup_nil
    · intro i l
      rw [Shape.levels_nil]
      simp [LevelBook.init]
    · rw [Shape.levels_nil]
      exact MemPool.holds_init (by decide)
    · rfl
  · intro d L hL
    simp at hL
  · rw [Shape.orders_nil]
    exact List.nodup_nil
  · rw [Shape.orders_nil]
    exact MemPool.holds_init (by decide)
  · rfl

theorem indexed_init (k : BookKind ι κ) :
    Indexed k (LevelBook.init : LevelBook ι κ) (fun _ => []) := by
  intro id p
  rw [Shape.orders_nil]
  simp [LevelBook.init]

end Init

end HighPerformance
