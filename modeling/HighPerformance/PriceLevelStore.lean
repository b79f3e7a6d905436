import HighPerformance.PriceLevelFrames

/-!
# Levels without their places

`Stored b ls pend` says that `b` has the levels `ls`, each with its ring of
orders and under its price in the table. The links between the levels are left
open and prices are arbitrary, so the levels may be those of one side only, or
those of a book whose rings of levels are out of order. `Complete` says that
the pools and the table have nothing else.

The results are about calls that return; `Stored.splice` is the rule behind all
of them.
-/

namespace HighPerformance
open CircularList LevelBook

/-- The levels `ls` in any order; `pend` are order blocks that are on no level. -/
structure Stored {ι κ : Type} (b : LevelBook ι κ) (ls : List (PriceLevel ι)) (pend : List Ptr) :
    Prop where
  level : ∀ L ∈ ls, LevelRep b (L.side == .buy) L
  nodup : (ls.map (·.addr)).Nodup
  table : ∀ L ∈ ls, b.getOrdersAtPrice L.price = some L.addr
  levelUse : ∀ L ∈ ls, b.ordersAtPricePool.isFree L.addr = false
  orderNodup : (pend ++ (ls.flatMap (·.orders)).map (·.addr)).Nodup
  orderUse : ∀ p ∈ pend ++ (ls.flatMap (·.orders)).map (·.addr), b.orderPool.isFree p = false

/-- Nothing else is in use or in the table. -/
structure Complete {ι κ : Type} (b : LevelBook ι κ) (ls : List (PriceLevel ι)) (pend : List Ptr) :
    Prop where
  levels : ∀ l, b.ordersAtPricePool.isFree l = false → ∃ L ∈ ls, L.addr = l
  orders : ∀ p, b.orderPool.isFree p = false → p ∈ pend ++ (ls.flatMap (·.orders)).map (·.addr)
  table : ∀ i l, b.priceOrdersAtPrices i = some l →
    ∃ L ∈ ls, L.addr = l ∧ priceToIndex L.price = i

/-- `b'` keeps the level `M`, its orders and its entry in the table. -/
structure KeepsLevel {ι κ : Type} (b b' : LevelBook ι κ) (M : PriceLevel ι) : Prop where
  data : b'.levelData M.addr = b.levelData M.addr
  table : b'.getOrdersAtPrice M.price = b.getOrdersAtPrice M.price
  free : b'.ordersAtPricePool.isFree M.addr = b.ordersAtPricePool.isFree M.addr
  orders : ∀ o ∈ M.orders, SameOrder b b' o.addr

def Resting.setQty {ι : Type} (p : Ptr) (qty : ℕ) (z : Resting ι) : Resting ι :=
  if z.addr = p then { z with qty := qty } else z

def PriceLevel.setQty {ι : Type} (p : Ptr) (qty : ℕ) (L : PriceLevel ι) : PriceLevel ι :=
  { L with orders := L.orders.map (Resting.setQty p qty) }

section Rules
variable {ι κ : Type} {b b' : LevelBook ι κ} {ls ms : List (PriceLevel ι)}
  {pend pend' : List Ptr} {L M : PriceLevel ι} {o : Resting ι}

theorem Stored.perm (h : Stored b ls pend) (hp : ms.Perm ls) : Stored b ms pend := by
  have horders : (pend ++ (ms.flatMap (·.orders)).map (·.addr)).Perm
      (pend ++ (ls.flatMap (·.orders)).map (·.addr)) :=
    ((hp.flatMap_right _).map _).append_left pend
  constructor
  · exact fun L hL => h.level L (hp.mem_iff.mp hL)
  · exact (hp.map _).nodup_iff.mpr h.nodup
  · exact fun L hL => h.table L (hp.mem_iff.mp hL)
  · exact fun L hL => h.levelUse L (hp.mem_iff.mp hL)
  · exact horders.nodup_iff.mpr h.orderNodup
  · exact fun p hp => h.orderUse p (horders.mem_iff.mp hp)

theorem Complete.perm (h : Complete b ls pend) (hp : ms.Perm ls) : Complete b ms pend := by
  have horders : (pend ++ (ms.flatMap (·.orders)).map (·.addr)).Perm
      (pend ++ (ls.flatMap (·.orders)).map (·.addr)) :=
    ((hp.flatMap_right _).map _).append_left pend
  constructor
  · intro l hl
    obtain ⟨L, hL, he⟩ := h.levels l hl
    exact ⟨L, hp.mem_iff.mpr hL, he⟩
  · exact fun p hp => horders.mem_iff.mpr (h.orders p hp)
  · intro i l hl
    obtain ⟨L, hL, he⟩ := h.table i l hl
    exact ⟨L, hp.mem_iff.mpr hL, he⟩

theorem Stored.addr_ne (h : Stored b (L :: ls) pend) (hM : M ∈ ls) : M.addr ≠ L.addr := by
  have hnd := h.nodup
  rw [List.map_cons, List.nodup_cons] at hnd
  intro he
  exact hnd.1 (he ▸ List.mem_map_of_mem hM)

/-- Levels of two different blocks have different entries in the table. -/
theorem Stored.index_ne (h : Stored b (L :: ls) pend) (hM : M ∈ ls) :
    priceToIndex M.price ≠ priceToIndex L.price := by
  intro he
  have hL := h.table L (by simp)
  have hM' := h.table M (by simp [hM])
  rw [getOrdersAtPrice, he, ← getOrdersAtPrice, hL, Option.some.injEq] at hM'
  exact h.addr_ne hM hM'.symm

theorem Stored.notMem_of_rest (old : List (PriceLevel ι)) (h : Stored b (old ++ ls) pend)
    (hM : M ∈ ls) (ho : o ∈ M.orders) :
    o.addr ∉ pend ++ (old.flatMap (·.orders)).map (·.addr) := by
  have hnd := h.orderNodup
  rw [List.flatMap_append, List.map_append, ← List.append_assoc, List.nodup_append] at hnd
  intro hm
  exact hnd.2.2 _ hm _ (List.mem_map_of_mem (List.mem_flatMap.mpr ⟨M, hM, ho⟩)) rfl

/-- The levels `old` are replaced by `new`, and the others are kept. -/
theorem Stored.splice (old new : List (PriceLevel ι)) (h : Stored b (old ++ ls) pend)
    (hrep : ∀ L ∈ new, LevelRep b' (L.side == .buy) L)
    (htable : ∀ L ∈ new, b'.getOrdersAtPrice L.price = some L.addr)
    (huse : ∀ L ∈ new, b'.ordersAtPricePool.isFree L.addr = false)
    (hnodup : (new.map (·.addr)).Nodup) (hfar : ∀ L ∈ new, ∀ M ∈ ls, M.addr ≠ L.addr)
    (hkeep : ∀ M ∈ ls, KeepsLevel b b' M)
    (hperm : (pend' ++ (new.flatMap (·.orders)).map (·.addr)).Perm
      (pend ++ (old.flatMap (·.orders)).map (·.addr)))
    (hfree : ∀ q, b'.orderPool.isFree q = b.orderPool.isFree q) :
    Stored b' (new ++ ls) pend' := by
  have hall : (pend' ++ ((new ++ ls).flatMap (·.orders)).map (·.addr)).Perm
      (pend ++ ((old ++ ls).flatMap (·.orders)).map (·.addr)) := by
    simp only [List.flatMap_append, List.map_append, ← List.append_assoc]
    exact hperm.append_right _
  have hin : ∀ M ∈ ls, M ∈ old ++ ls := fun M hM => List.mem_append_right _ hM
  constructor
  · intro L hL
    rcases List.mem_append.mp hL with hL | hL
    · exact hrep L hL
    · exact (h.level L (hin L hL)).frame (hkeep L hL).data (hkeep L hL).orders
  · have hnd := h.nodup
    rw [List.map_append, List.nodup_append] at hnd ⊢
    refine ⟨hnodup, hnd.2.1, ?_⟩
    intro c hc e he hce
    obtain ⟨L, hL, rfl⟩ := List.mem_map.mp hc
    obtain ⟨M, hM, rfl⟩ := List.mem_map.mp he
    exact hfar L hL M hM hce.symm
  · intro L hL
    rcases List.mem_append.mp hL with hL | hL
    · exact htable L hL
    · rw [(hkeep L hL).table]
      exact h.table L (hin L hL)
  · intro L hL
    rcases List.mem_append.mp hL with hL | hL
    · exact huse L hL
    · rw [(hkeep L hL).free]
      exact h.levelUse L (hin L hL)
  · exact hall.nodup_iff.mpr h.orderNodup
  · intro p hp
    rw [hfree]
    exact h.orderUse p (hall.mem_iff.mp hp)

theorem Complete.splice (old new : List (PriceLevel ι)) (h : Complete b (old ++ ls) pend)
    (hlevels : ∀ l, b'.ordersAtPricePool.isFree l = false →
      (∃ L ∈ new, L.addr = l) ∨
        b.ordersAtPricePool.isFree l = false ∧ ∀ L ∈ old, L.addr ≠ l)
    (htable : ∀ i l, b'.priceOrdersAtPrices i = some l →
      (∃ L ∈ new, L.addr = l ∧ priceToIndex L.price = i) ∨
        b.priceOrdersAtPrices i = some l ∧ ∀ L ∈ old, priceToIndex L.price ≠ i)
    (hperm : (pend' ++ (new.flatMap (·.orders)).map (·.addr)).Perm
      (pend ++ (old.flatMap (·.orders)).map (·.addr)))
    (hfree : ∀ q, b'.orderPool.isFree q = b.orderPool.isFree q) :
    Complete b' (new ++ ls) pend' := by
  have hall : (pend' ++ ((new ++ ls).flatMap (·.orders)).map (·.addr)).Perm
      (pend ++ ((old ++ ls).flatMap (·.orders)).map (·.addr)) := by
    simp only [List.flatMap_append, List.map_append, ← List.append_assoc]
    exact hperm.append_right _
  constructor
  · intro l hl
    rcases hlevels l hl with ⟨L, hL, he⟩ | ⟨hold, hne⟩
    · exact ⟨L, List.mem_append_left _ hL, he⟩
    · obtain ⟨L, hL, he⟩ := h.levels l hold
      rcases List.mem_append.mp hL with hL | hL
      · exact (hne L hL he).elim
      · exact ⟨L, List.mem_append_right _ hL, he⟩
  · intro p hp
    rw [hfree] at hp
    exact hall.mem_iff.mpr (h.orders p hp)
  · intro i l hl
    rcases htable i l hl with ⟨L, hL, he⟩ | ⟨hold, hne⟩
    · exact ⟨L, List.mem_append_left _ hL, he⟩
    · obtain ⟨L, hL, he, hi⟩ := h.table i l hold
      rcases List.mem_append.mp hL with hL | hL
      · exact (hne L hL hi).elim
      · exact ⟨L, List.mem_append_right _ hL, he, hi⟩

end Rules

section Edits
variable {ι κ : Type} {k : BookKind ι κ} {b b' : LevelBook ι κ} {ls : List (PriceLevel ι)}
  {pend pend' : List Ptr} {L : PriceLevel ι} {o : Resting ι} {x y : List (Resting ι)} {l p : Ptr}
  {side : Side} {price : ℕ}

theorem getOrdersAtPrice_update {i : ℕ} {v : Option Ptr}
    (h : b'.priceOrdersAtPrices = Function.update b.priceOrdersAtPrices i v) (q : ℕ) :
    b'.getOrdersAtPrice q = if priceToIndex q = i then v else b.getOrdersAtPrice q := by
  rw [getOrdersAtPrice, h, Function.update_apply]
  rfl

theorem Stored.freeLevel (h : Stored b (L :: ls) pend) (hone : L.orders = [o])
    (hf : LevelFreed b b' L.addr L.price) : Stored b' ls (o.addr :: pend) := by
  apply Stored.splice [L] [] h
  · simp
  · simp
  · simp
  · simp
  · simp
  · intro M hM
    constructor
    · exact hf.data _
    · rw [getOrdersAtPrice_update hf.table, if_neg (h.index_ne hM)]
    · rw [hf.free, if_neg (h.addr_ne hM)]
    · exact fun z _ => SameOrder.of_pool hf.orderPool _
  · simp only [List.flatMap_cons, List.flatMap_nil, hone, List.append_nil, List.map_cons,
      List.map_nil]
    exact (List.perm_append_singleton _ _).symm
  · intro q
    rw [hf.orderPool]

theorem Complete.freeLevel (h : Complete b (L :: ls) pend) (hone : L.orders = [o])
    (hf : LevelFreed b b' L.addr L.price) : Complete b' ls (o.addr :: pend) := by
  apply Complete.splice [L] [] h
  · intro l hl
    rw [hf.free] at hl
    right
    split at hl
    · cases hl
    · next hne => exact ⟨hl, by simpa using Ne.symm hne⟩
  · intro i l hl
    rw [hf.table, Function.update_apply] at hl
    right
    split at hl
    · cases hl
    · next hne => exact ⟨hl, by simpa using Ne.symm hne⟩
  · simp only [List.flatMap_cons, List.flatMap_nil, hone, List.append_nil, List.map_cons,
      List.map_nil]
    exact (List.perm_append_singleton _ _).symm
  · intro q
    rw [hf.orderPool]

/-- An edit of the links between the orders of one level, from `L` to `M`. -/
structure LevelEdited (b b' : LevelBook ι κ) (L M : PriceLevel ι) (pend : List Ptr) : Prop
    extends OrderEdit b b' where
  addr : M.addr = L.addr
  price : M.price = L.price
  data : ∀ m, m ≠ L.addr → b'.levelData m = b.levelData m
  rep : LevelRep b' (M.side == .buy) M
  frame : ∀ q ∉ pend ++ L.orders.map (·.addr), SameOrder b b' q

theorem Stored.editLevel {M : PriceLevel ι} (h : Stored b (L :: ls) pend)
    (he : LevelEdited b b' L M pend)
    (hperm : (pend' ++ M.orders.map (·.addr)).Perm (pend ++ L.orders.map (·.addr))) :
    Stored b' (M :: ls) pend' := by
  have htable : ∀ q, b'.getOrdersAtPrice q = b.getOrdersAtPrice q := by
    intro q
    rw [getOrdersAtPrice, he.priceTable]
    rfl
  apply Stored.splice [L] [M] h
  · intro N hN
    rw [List.mem_singleton.mp hN]
    exact he.rep
  · intro N hN
    rw [List.mem_singleton.mp hN, he.addr, he.price, htable]
    exact h.table L (by simp)
  · intro N hN
    rw [List.mem_singleton.mp hN, he.addr, he.poolFree]
    exact h.levelUse L (by simp)
  · exact List.nodup_singleton _
  · intro N hN K hK
    rw [List.mem_singleton.mp hN, he.addr]
    exact h.addr_ne hK
  · intro N hN
    constructor
    · exact he.data _ (h.addr_ne hN)
    · exact htable _
    · exact he.poolFree _
    · intro z hz
      apply he.frame
      have hfar := Stored.notMem_of_rest [L] h hN hz
      simpa only [List.flatMap_cons, List.flatMap_nil, List.append_nil] using hfar
  · simpa only [List.flatMap_cons, List.flatMap_nil, List.append_nil] using hperm
  · exact he.orderFree

theorem Complete.editLevel {M : PriceLevel ι} (h : Complete b (L :: ls) pend)
    (hs : Stored b (L :: ls) pend) (he : LevelEdited b b' L M pend)
    (hperm : (pend' ++ M.orders.map (·.addr)).Perm (pend ++ L.orders.map (·.addr))) :
    Complete b' (M :: ls) pend' := by
  apply Complete.splice [L] [M] h
  · intro l hl
    rw [he.poolFree] at hl
    by_cases hlL : L.addr = l
    · exact .inl ⟨M, by simp, he.addr.trans hlL⟩
    · exact .inr ⟨hl, by simpa using hlL⟩
  · intro i l hl
    rw [he.priceTable] at hl
    by_cases hi : priceToIndex L.price = i
    · left
      have hL := hs.table L (by simp)
      rw [getOrdersAtPrice, hi, hl, Option.some.injEq] at hL
      exact ⟨M, by simp, he.addr.trans hL.symm, by rw [he.price, hi]⟩
    · exact .inr ⟨hl, by simpa using hi⟩
  · simpa only [List.flatMap_cons, List.flatMap_nil, List.append_nil] using hperm
  · exact he.orderFree

theorem LevelRep.orderFields (h : LevelRep b (L.side == .buy) L) (ho : o ∈ L.orders) :
    (b.order o.addr).ident = o.ident ∧ (b.order o.addr).side = L.side ∧
      (b.order o.addr).price = L.price ∧ (b.order o.addr).qty = o.qty ∧
      (b.order o.addr).priority = o.priority := by
  obtain ⟨hside, hdata⟩ := h.orders o ho
  simp only [orderData, Prod.mk.injEq] at hdata
  rw [← hside]
  exact hdata

theorem unlinkOrder_edited (pend : List Ptr) (h : LevelRep b (L.side == .buy) L)
    (hxy : L.orders = x ++ o :: y) (hne : x ++ y ≠ []) :
    ∃ b', unlinkOrder b o.addr (some L.addr) = .ok b' ∧
      LevelEdited b b' L { L with orders := x ++ y } pend := by
  obtain ⟨b', hok, hedit, hrep, hdata, hframe⟩ := h.unlinkOrder_ok hxy hne
  refine ⟨b', hok, ?_⟩
  constructor
  · exact hedit
  · rfl
  · rfl
  · exact hdata
  · exact hrep
  · exact fun q hq => hframe q fun hm => hq (List.mem_append_right _ hm)

/-- An order leaves its level, which goes when it was the only one. -/
theorem Stored.leaveLevel (h : Stored b (L :: ls) pend) (hxy : L.orders = x ++ o :: y)
    (hok : leaveLevel b o.addr = .ok b') :
    Stored b' (Shape.refill L (x ++ y) ++ ls) (o.addr :: pend) ∧
      (Complete b (L :: ls) pend →
        Complete b' (Shape.refill L (x ++ y) ++ ls) (o.addr :: pend)) := by
  have hrep := h.level L (by simp)
  obtain ⟨-, hside, hprice, -, -⟩ := hrep.orderFields (o := o) (by simp [hxy])
  have htable := h.table L (by simp)
  simp only [LevelBook.leaveLevel, hside, hprice, htable] at hok
  by_cases hne : x ++ y = []
  · rw [if_pos ((hrep.alone_iff hxy).mpr hne)] at hok
    have hone : L.orders = [o] := by
      obtain ⟨rfl, rfl⟩ := List.append_eq_nil_iff.mp hne
      exact hxy
    have hfreed := removeOrdersAtPrice_eq_ok htable hok
    rw [Shape.refill, if_pos hne, List.nil_append]
    exact ⟨h.freeLevel hone hfreed, fun hc => hc.freeLevel hone hfreed⟩
  · rw [if_neg fun hself => hne ((hrep.alone_iff hxy).mp hself)] at hok
    obtain ⟨b₁, hok₁, hedit⟩ := unlinkOrder_edited pend hrep hxy hne
    rw [hok₁] at hok
    cases hok
    rw [Shape.refill, if_neg hne, List.singleton_append]
    exact ⟨h.editLevel hedit (LevelRep.leave_perm pend hxy),
      fun hc => hc.editLevel h hedit (LevelRep.leave_perm pend hxy)⟩

theorem Stored.appendOrder (h : Stored b (L :: ls) (o.addr :: pend)) (hside : o.side = L.side)
    (ho : b.orderData o.addr = (o.ident, o.side, L.price, o.qty, o.priority))
    (hok : appendOrder b o.addr L.addr = .ok b') :
    Stored b' ({ L with orders := L.orders ++ [o] } :: ls) pend ∧
      (Complete b (L :: ls) (o.addr :: pend) →
        Complete b' ({ L with orders := L.orders ++ [o] } :: ls) pend) := by
  have hrep := h.level L (by simp)
  have hnd := h.orderNodup
  rw [List.flatMap_cons, List.map_append, List.cons_append, List.nodup_cons] at hnd
  have hfresh : o.addr ∉ L.orders.map (·.addr) := by
    intro hm
    exact hnd.1 (by simp only [List.mem_append]; exact .inr (.inl hm))
  obtain ⟨b₁, hok₁, hedit, hrep', hdata, hframe⟩ := hrep.appendOrder_ok hfresh hside ho
  rw [hok₁] at hok
  cases hok
  have hedited : LevelEdited b b' L { L with orders := L.orders ++ [o] } (o.addr :: pend) := by
    constructor
    · exact hedit
    · rfl
    · rfl
    · exact fun m _ => hdata m
    · exact hrep'
    · intro q hq
      apply hframe
      simp only [List.mem_cons, List.mem_append, List.cons_append] at hq ⊢
      tauto
  have hperm := LevelRep.append_perm (L := L) (o := o) pend
  exact ⟨h.editLevel hedited hperm, fun hc => hc.editLevel h hedited hperm⟩

theorem Stored.openLevel (h : Stored b ls (o.addr :: pend)) (hnone : b.getOrdersAtPrice price = none)
    (hopen : LevelOpened b b' l o price) : Stored b' (⟨l, o.side, price, [o]⟩ :: ls) pend := by
  have hne : ∀ M ∈ ls, M.addr ≠ l := by
    intro M hM he
    have huse := h.levelUse M hM
    rw [he, hopen.fresh] at huse
    cases huse
  have hnd := h.orderNodup
  rw [List.cons_append, List.nodup_cons] at hnd
  apply Stored.splice [] [⟨l, o.side, price, [o]⟩] h
  · intro N hN
    rw [List.mem_singleton.mp hN]
    exact hopen.rep
  · intro N hN
    rw [List.mem_singleton.mp hN, getOrdersAtPrice_update hopen.table, if_pos rfl]
  · intro N hN
    rw [List.mem_singleton.mp hN, hopen.free, if_pos rfl]
  · exact List.nodup_singleton _
  · intro N hN M hM
    rw [List.mem_singleton.mp hN]
    exact hne M hM
  · intro M hM
    constructor
    · exact hopen.data _ (hne M hM)
    · rw [getOrdersAtPrice_update hopen.table, if_neg]
      intro hi
      have hM' := h.table M hM
      rw [getOrdersAtPrice, hi, ← getOrdersAtPrice, hnone] at hM'
      cases hM'
    · rw [hopen.free, if_neg (hne M hM)]
    · intro z hz
      apply hopen.frame
      intro he
      apply hnd.1
      rw [← he]
      exact List.mem_append_right _ (List.mem_map_of_mem (List.mem_flatMap.mpr ⟨M, hM, hz⟩))
  · simp only [List.flatMap_cons, List.flatMap_nil, List.append_nil, List.map_cons, List.map_nil]
    exact List.perm_append_singleton _ _
  · exact hopen.orderFree

theorem Complete.openLevel (h : Complete b ls (o.addr :: pend))
    (hopen : LevelOpened b b' l o price) : Complete b' (⟨l, o.side, price, [o]⟩ :: ls) pend := by
  apply Complete.splice [] [⟨l, o.side, price, [o]⟩] h
  · intro m hm
    rw [hopen.free] at hm
    split at hm
    · next hml => exact .inl ⟨⟨l, o.side, price, [o]⟩, by simp, hml.symm⟩
    · exact .inr ⟨hm, by simp⟩
  · intro i m hm
    rw [hopen.table, Function.update_apply] at hm
    split at hm
    · next hi =>
      cases hm
      exact .inl ⟨⟨l, o.side, price, [o]⟩, by simp, rfl, hi.symm⟩
    · exact .inr ⟨hm, by simp⟩
  · simp only [List.flatMap_cons, List.flatMap_nil, List.append_nil, List.map_cons, List.map_nil]
    exact List.perm_append_singleton _ _
  · exact hopen.orderFree

/-- A new order at a price whose level, if there is one, is its own. -/
theorem Stored.joinLevel (h : Stored b ls (o.addr :: pend)) (hc : Complete b ls (o.addr :: pend))
    (ho : b.orderData o.addr = (o.ident, o.side, price, o.qty, o.priority))
    (hown : ∀ L ∈ ls, b.getOrdersAtPrice price = some L.addr → L.price = price ∧ L.side = o.side)
    (hok : joinLevel k b o.addr = .ok b') : ∃ ms, Stored b' ms pend ∧ Complete b' ms pend := by
  have hprice : (b.order o.addr).price = price := congrArg (fun x => x.2.2.1) ho
  rw [LevelBook.joinLevel, hprice] at hok
  cases hget : b.getOrdersAtPrice price with
  | none =>
    rw [hget] at hok
    obtain ⟨l, hopen⟩ := openLevel_eq_ok ho hok
    exact ⟨_, h.openLevel hget hopen, hc.openLevel hopen⟩
  | some l =>
    rw [hget] at hok
    obtain ⟨L, hL, rfl, -⟩ := hc.table _ l hget
    obtain ⟨hLp, hLs⟩ := hown L hL hget
    obtain ⟨u, w, rfl⟩ := List.append_of_mem hL
    rw [← hLp] at ho
    have hfront : Stored b (L :: (u ++ w)) (o.addr :: pend) := h.perm List.perm_middle.symm
    obtain ⟨hs', hc'⟩ := hfront.appendOrder hLs.symm ho hok
    exact ⟨_, hs', hc' (hc.perm List.perm_middle.symm)⟩

end Edits

section Fields
variable {ι κ : Type} {b b' : LevelBook ι κ} {ls : List (PriceLevel ι)} {pend pend' : List Ptr}
  {L : PriceLevel ι} {d : Bool} {p : Ptr} {qty : ℕ} {pool : MemPool (BookOrder ι)}

@[simp] theorem Resting.setQty_addr (z : Resting ι) : (z.setQty p qty).addr = z.addr := by
  unfold Resting.setQty
  split <;> rfl

@[simp] theorem Resting.setQty_ident (z : Resting ι) : (z.setQty p qty).ident = z.ident := by
  unfold Resting.setQty
  split <;> rfl

@[simp] theorem Resting.setQty_side (z : Resting ι) : (z.setQty p qty).side = z.side := by
  unfold Resting.setQty
  split <;> rfl

@[simp] theorem PriceLevel.setQty_addrs (L : PriceLevel ι) :
    (L.setQty p qty).orders.map (·.addr) = L.orders.map (·.addr) := by
  simp [PriceLevel.setQty, Function.comp_def]

theorem orderData_setQty (b : LevelBook ι κ) (z : Resting ι) (price : ℕ)
    (h : b.orderData z.addr = (z.ident, z.side, price, z.qty, z.priority)) :
    (b.setQty p qty).orderData z.addr = ((z.setQty p qty).ident, (z.setQty p qty).side, price,
      (z.setQty p qty).qty, (z.setQty p qty).priority) := by
  simp only [orderData, Prod.mk.injEq] at h
  simp only [LevelBook.setQty, orderData, order_modifyOrder, Resting.setQty]
  by_cases hz : z.addr = p
  · simp only [hz, if_true] at h ⊢
    simp [h]
  · simp only [hz, if_false]
    simp [h]

theorem LevelRep.setQty (h : LevelRep b d L) : LevelRep (b.setQty p qty) d (L.setQty p qty) := by
  have hlinks : ∀ q, (b.setQty p qty).nextOrder q = b.nextOrder q ∧
      (b.setQty p qty).prevOrder q = b.prevOrder q := by
    intro q
    simp only [nextOrder, prevOrder, LevelBook.setQty, order_modifyOrder]
    split <;> exact ⟨rfl, rfl⟩
  constructor
  · rw [PriceLevel.setQty_addrs]
    exact h.data
  · exact h.side
  · simp [PriceLevel.setQty, h.nonempty]
  · rw [PriceLevel.setQty_addrs]
    apply h.ring.frame
    · exact fun c _ => (hlinks c).1
    · exact fun c _ => (hlinks c).2
  · intro z hz
    obtain ⟨y, hy, rfl⟩ := List.mem_map.mp hz
    obtain ⟨hside, hdata⟩ := h.orders y hy
    rw [Resting.setQty_addr]
    exact ⟨(Resting.setQty_side y).trans hside, orderData_setQty b y _ hdata⟩

theorem setQty_addrs (ls : List (PriceLevel ι)) :
    ((ls.map (PriceLevel.setQty p qty)).flatMap (·.orders)).map (·.addr) =
      (ls.flatMap (·.orders)).map (·.addr) := by
  simp [List.map_flatMap, List.flatMap_map]

theorem isFree_setQty (b : LevelBook ι κ) (q : Ptr) :
    (b.setQty p qty).orderPool.isFree q = b.orderPool.isFree q := by
  simp [LevelBook.setQty, modifyOrder]

theorem Stored.setQty (h : Stored b ls pend) (p : Ptr) (qty : ℕ) :
    Stored (b.setQty p qty) (ls.map (PriceLevel.setQty p qty)) pend := by
  constructor
  · intro L hL
    obtain ⟨M, hM, rfl⟩ := List.mem_map.mp hL
    exact (h.level M hM).setQty
  · rw [List.map_map]
    exact h.nodup
  · intro L hL
    obtain ⟨M, hM, rfl⟩ := List.mem_map.mp hL
    exact h.table M hM
  · intro L hL
    obtain ⟨M, hM, rfl⟩ := List.mem_map.mp hL
    exact h.levelUse M hM
  · rw [setQty_addrs]
    exact h.orderNodup
  · rw [setQty_addrs]
    intro q hq
    rw [isFree_setQty]
    exact h.orderUse q hq

theorem Complete.setQty (h : Complete b ls pend) (p : Ptr) (qty : ℕ) :
    Complete (b.setQty p qty) (ls.map (PriceLevel.setQty p qty)) pend := by
  constructor
  · intro l hl
    obtain ⟨L, hL, he⟩ := h.levels l hl
    exact ⟨_, List.mem_map_of_mem hL, he⟩
  · rw [setQty_addrs]
    intro q hq
    rw [isFree_setQty] at hq
    exact h.orders q hq
  · intro i l hl
    obtain ⟨L, hL, he⟩ := h.table i l hl
    exact ⟨_, List.mem_map_of_mem hL, he⟩

/-- Blocks outside the levels may be taken or given back. -/
theorem Stored.setPool (h : Stored b ls pend) (t : κ → Option Ptr)
    (hnodup : (pend' ++ (ls.flatMap (·.orders)).map (·.addr)).Nodup)
    (huse : ∀ q ∈ pend' ++ (ls.flatMap (·.orders)).map (·.addr), pool.isFree q = false)
    (hget : ∀ q ∈ (ls.flatMap (·.orders)).map (·.addr), pool.get q = b.orderPool.get q) :
    Stored { b with idToOrder := t, orderPool := pool } ls pend' := by
  have horder : ∀ L ∈ ls, ∀ o ∈ L.orders,
      SameOrder b { b with idToOrder := t, orderPool := pool } o.addr := by
    intro L hL o ho
    have hq := hget o.addr (List.mem_map_of_mem (List.mem_flatMap.mpr ⟨L, hL, ho⟩))
    constructor
    · exact congrArg (·.nextOrder) hq
    · exact congrArg (·.prevOrder) hq
    · simp only [orderData, order, hq]
  constructor
  · exact fun L hL => (h.level L hL).frame rfl (horder L hL)
  · exact h.nodup
  · exact h.table
  · exact h.levelUse
  · exact hnodup
  · exact huse

theorem Complete.setPool (h : Complete b ls pend) (t : κ → Option Ptr)
    (hall : ∀ q, pool.isFree q = false → q ∈ pend' ++ (ls.flatMap (·.orders)).map (·.addr)) :
    Complete { b with idToOrder := t, orderPool := pool } ls pend' :=
  ⟨h.levels, hall, h.table⟩

theorem Stored.deallocate (h : Stored b ls (p :: pend)) (t : κ → Option Ptr)
    (hpool : b.orderPool.deallocate p = .ok pool) :
    Stored { b with idToOrder := t, orderPool := pool } ls pend ∧
      (Complete b ls (p :: pend) →
        Complete { b with idToOrder := t, orderPool := pool } ls pend) := by
  obtain ⟨-, -, -, hstore⟩ := MemPool.deallocate_eq_ok hpool
  have hfree : ∀ q, pool.isFree q = if q = p then true else b.orderPool.isFree q := by
    intro q
    simp only [MemPool.isFree, hstore, Function.update_apply]
    split <;> rfl
  have hget : ∀ q, pool.get q = b.orderPool.get q := by
    intro q
    simp only [MemPool.get, hstore, Function.update_apply]
    split
    · next hq => rw [hq]
    · rfl
  have hnd := h.orderNodup
  rw [List.cons_append, List.nodup_cons] at hnd
  constructor
  · apply h.setPool
    · exact hnd.2
    · intro q hq
      have hne : q ≠ p := by
        rintro rfl
        exact hnd.1 hq
      rw [hfree, if_neg hne]
      exact h.orderUse q (List.mem_cons_of_mem _ hq)
    · exact fun q _ => hget q
  · intro hc
    apply hc.setPool
    intro q hq
    rw [hfree] at hq
    split at hq
    · cases hq
    · next hne => exact (List.mem_cons.mp (hc.orders q hq)).resolve_left hne

theorem Stored.allocate {a : BookOrder ι} (h : Stored b ls pend)
    (hpool : b.orderPool.allocate a = .ok (p, pool)) :
    Stored { b with orderPool := pool } ls (p :: pend) ∧
      (Complete b ls pend → Complete { b with orderPool := pool } ls (p :: pend)) ∧
      pool.get p = a := by
  obtain ⟨hp, -, hstore⟩ := MemPool.allocate_eq_ok hpool
  have hfree : ∀ q, pool.isFree q = if q = p then false else b.orderPool.isFree q := by
    intro q
    simp only [MemPool.isFree, hstore, Function.update_apply]
    split <;> rfl
  have hfresh : p ∉ pend ++ (ls.flatMap (·.orders)).map (·.addr) := by
    intro hm
    rw [h.orderUse p hm] at hp
    cases hp
  refine ⟨?_, ?_, ?_⟩
  · apply h.setPool b.idToOrder
    · exact List.nodup_cons.mpr ⟨hfresh, h.orderNodup⟩
    · intro q hq
      rw [hfree]
      split
      · rfl
      · next hne => exact h.orderUse q ((List.mem_cons.mp hq).resolve_left hne)
    · intro q hq
      have hne : q ≠ p := by
        rintro rfl
        exact hfresh (List.mem_append_right _ hq)
      simp only [MemPool.get, hstore, Function.update_of_ne hne]
  · intro hc
    apply hc.setPool b.idToOrder
    intro q hq
    rw [hfree] at hq
    split at hq
    · next he => exact List.mem_cons.mpr (.inl he)
    · exact List.mem_cons_of_mem _ (hc.orders q hq)
  · simp only [MemPool.get, hstore, Function.update_self]

end Fields

end HighPerformance
