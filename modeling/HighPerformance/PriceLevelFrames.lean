import HighPerformance.PriceLevelEdits

/-!
# What a returning call leaves alone

The other results about price levels start from a book whose rings are in
order. The ones here do not: the links may lead anywhere, also to blocks that
have been given back. A call that returns has still written links only, so the
tables, the pools' flags and the data of orders and levels are known.
-/

namespace HighPerformance.LevelBook

variable {ι κ : Type}

/-- `b'` has the same orders in use as `b`, with the same data, and the same
table of live orders. -/
structure KeepsOrders (b b' : LevelBook ι κ) : Prop where
  idToOrder : b'.idToOrder = b.idToOrder
  size : b'.orderPool.size = b.orderPool.size
  free : ∀ q, b'.orderPool.isFree q = b.orderPool.isFree q
  data : ∀ q, b'.orderData q = b.orderData q

section Frames
variable {k : BookKind ι κ} {b b' b'' : LevelBook ι κ} {l p t : Ptr} {d : Bool} {price : ℕ}
  {side : Side} {q : Option Ptr}

theorem KeepsOrders.trans (h : KeepsOrders b b') (h' : KeepsOrders b' b'') : KeepsOrders b b'' where
  idToOrder := h'.idToOrder.trans h.idToOrder
  size := h'.size.trans h.size
  free q := (h'.free q).trans (h.free q)
  data q := (h'.data q).trans (h.data q)

theorem KeepsOrders.ident (h : KeepsOrders b b') (p : Ptr) : (b'.order p).ident = (b.order p).ident :=
  congrArg Prod.fst (h.data p)

theorem OrderEdit.keepsOrders (h : OrderEdit b b') : KeepsOrders b b' :=
  ⟨h.idToOrder, h.orderSize, h.orderFree, h.orderData⟩

theorem SameButLinks.keepsOrders (h : SameButLinks b b') : KeepsOrders b b' where
  idToOrder := h.idToOrder
  size := by rw [h.orderPool]
  free q := by rw [h.orderPool]
  data q := by simp only [orderData, h.order]

theorem linkAfter_same (h : linkAfter b l t = .ok b') : SameButLinks b b' := by
  obtain ⟨after, -, h⟩ := bind_eq_ok.mp h
  cases h
  exact (SameButLinks.setPrevEntry _ _ _).trans <| (SameButLinks.setPrevEntry _ _ _).trans <|
    (SameButLinks.setNextEntry _ _ _).trans (SameButLinks.setNextEntry _ _ _)

theorem linkBefore_same (h : linkBefore b l t = .ok b') : SameButLinks b b' := by
  obtain ⟨before, -, h⟩ := bind_eq_ok.mp h
  cases h
  exact (SameButLinks.setPrevEntry _ _ _).trans <| (SameButLinks.setNextEntry _ _ _).trans <|
    (SameButLinks.setNextEntry _ _ _).trans (SameButLinks.setPrevEntry _ _ _)

theorem updateBest_same (b : LevelBook ι κ) (l t best : Ptr) :
    SameButLinks b (updateBest b l t best) := by
  by_cases hfront : ((b.level l).side = .buy ∧ (b.level l).price > (b.level best).price) ∨
      ((b.level l).side = .sell ∧ (b.level l).price < (b.level best).price)
  · simp only [updateBest, if_pos hfront]
    exact (SameButLinks.setNextEntry _ _ _).trans (SameButLinks.setBest _ _ _)
  · simp only [updateBest, if_neg hfront]
    exact SameButLinks.refl b

/-- Wherever the search ends: a new level changes links and its table entry. -/
theorem addOrdersAtPrice_same (h : addOrdersAtPrice k b l = .ok b') :
    SameButLinks (b.setOrdersAtPrice (b.level l).price (some l)) b' := by
  simp only [addOrdersAtPrice] at h
  split at h
  · cases h
    exact (SameButLinks.setBest _ _ _).trans <| (SameButLinks.setNextEntry _ _ _).trans
      (SameButLinks.setPrevEntry _ _ _)
  · obtain ⟨r, -, h⟩ := bind_eq_ok.mp h
    by_cases hafter : r.2 = true
    · rw [if_pos hafter] at h
      split at h
      · obtain ⟨target, -, h⟩ := bind_eq_ok.mp h
        exact linkAfter_same h
      · exact linkAfter_same h
    · rw [if_neg hafter] at h
      obtain ⟨b₁, h₁, h⟩ := bind_eq_ok.mp h
      cases h
      exact (linkBefore_same h₁).trans (updateBest_same _ _ _ _)

theorem unlinkLevel_same (h : unlinkLevel b d l = .ok b') : SameButLinks b b' := by
  unfold unlinkLevel at h
  split at h
  · cases h
    exact SameButLinks.setBest _ _ _
  · obtain ⟨before, -, h⟩ := bind_eq_ok.mp h
    obtain ⟨after, -, h⟩ := bind_eq_ok.mp h
    cases h
    apply ((SameButLinks.setNextEntry _ _ _).trans (SameButLinks.setPrevEntry _ _ _)).trans
    split
    · exact (SameButLinks.setBest _ _ _).trans <| (SameButLinks.setNextEntry _ _ _).trans
        (SameButLinks.setPrevEntry _ _ _)
    · exact (SameButLinks.setNextEntry _ _ _).trans (SameButLinks.setPrevEntry _ _ _)

theorem appendOrder_edit (h : appendOrder b p l = .ok b') : OrderEdit b b' := by
  obtain ⟨first, -, h⟩ := bind_eq_ok.mp h
  obtain ⟨last, -, h⟩ := bind_eq_ok.mp h
  cases h
  exact (OrderEdit.setNextOrder _ _ _).trans <| (OrderEdit.setPrevOrder _ _ _).trans <|
    (OrderEdit.setNextOrder _ _ _).trans (OrderEdit.setPrevOrder _ _ _)

theorem unlinkOrder_edit (h : unlinkOrder b p q = .ok b') : OrderEdit b b' := by
  obtain ⟨before, -, h⟩ := bind_eq_ok.mp h
  obtain ⟨after, -, h⟩ := bind_eq_ok.mp h
  obtain ⟨l, -, h⟩ := bind_eq_ok.mp h
  cases h
  apply ((OrderEdit.setNextOrder _ _ _).trans (OrderEdit.setPrevOrder _ _ _)).trans
  split
  · exact (OrderEdit.setFirstOrder _ _ _).trans <| (OrderEdit.setNextOrder _ _ _).trans
      (OrderEdit.setPrevOrder _ _ _)
  · exact (OrderEdit.setNextOrder _ _ _).trans (OrderEdit.setPrevOrder _ _ _)

theorem joinLevel_keepsOrders (h : joinLevel k b p = .ok b') : KeepsOrders b b' := by
  unfold joinLevel at h
  split at h
  · obtain ⟨r, -, h⟩ := bind_eq_ok.mp h
    have hlinks : OrderEdit b ((b.setPrevOrder p (some p)).setNextOrder p (some p)) :=
      (OrderEdit.setPrevOrder _ _ _).trans (OrderEdit.setNextOrder _ _ _)
    have hpool : ∀ c : LevelBook ι κ, KeepsOrders c
        (({ c with ordersAtPricePool := r.2 } : LevelBook ι κ).setOrdersAtPrice
          (({ c with ordersAtPricePool := r.2 } : LevelBook ι κ).level r.1).price (some r.1)) :=
      fun c => ⟨rfl, rfl, fun _ => rfl, fun _ => rfl⟩
    exact hlinks.keepsOrders.trans ((hpool _).trans (addOrdersAtPrice_same h).keepsOrders)
  · exact (appendOrder_edit h).keepsOrders

theorem leaveLevel_keepsOrders (h : leaveLevel b p = .ok b') : KeepsOrders b b' := by
  simp only [leaveLevel] at h
  split at h
  · obtain ⟨l, -, h⟩ := bind_eq_ok.mp h
    obtain ⟨b₁, h₁, h⟩ := bind_eq_ok.mp h
    obtain ⟨pool, -, h⟩ := bind_eq_ok.mp h
    cases h
    have hfree : KeepsOrders b₁
        { b₁.setOrdersAtPrice (b.order p).price none with ordersAtPricePool := pool } :=
      ⟨rfl, rfl, fun _ => rfl, fun _ => rfl⟩
    exact (unlinkLevel_same h₁).keepsOrders.trans hfree
  · exact (unlinkOrder_edit h).keepsOrders

/-- The order `p` as the only one of a ring. -/
def aloneOnLevel (b : LevelBook ι κ) (p : Ptr) : LevelBook ι κ :=
  (b.setPrevOrder p (some p)).setNextOrder p (some p)

theorem aloneOnLevel_edit (b : LevelBook ι κ) (p : Ptr) : OrderEdit b (b.aloneOnLevel p) :=
  (OrderEdit.setPrevOrder _ _ _).trans (OrderEdit.setNextOrder _ _ _)

end Frames

end HighPerformance.LevelBook

namespace HighPerformance
open CircularList LevelBook

section LevelBlocks
variable {ι κ : Type} {k : BookKind ι κ} {b b' : LevelBook ι κ} {o : Resting ι} {l : Ptr}
  {side : Side} {price : ℕ}

/-- What a level leaves behind whose block has been given back. -/
structure LevelFreed (b b' : LevelBook ι κ) (l : Ptr) (price : ℕ) : Prop where
  orderPool : b'.orderPool = b.orderPool
  idToOrder : b'.idToOrder = b.idToOrder
  data : ∀ m, b'.levelData m = b.levelData m
  table : b'.priceOrdersAtPrices = Function.update b.priceOrdersAtPrices (priceToIndex price) none
  size : b'.ordersAtPricePool.size = b.ordersAtPricePool.size
  free : ∀ m, b'.ordersAtPricePool.isFree m = if m = l then true else b.ordersAtPricePool.isFree m

theorem removeOrdersAtPrice_eq_ok (hl : b.getOrdersAtPrice price = some l)
    (hok : removeOrdersAtPrice b side price = .ok b') : LevelFreed b b' l price := by
  obtain ⟨m, hm, hok⟩ := bind_eq_ok.mp hok
  rw [hl] at hm
  cases hm
  obtain ⟨b₁, h₁, hok⟩ := bind_eq_ok.mp hok
  obtain ⟨pool, hpool, hok⟩ := bind_eq_ok.mp hok
  cases hok
  have hsame := unlinkLevel_same h₁
  obtain ⟨-, -, hsize, hstore⟩ := MemPool.deallocate_eq_ok hpool
  have hget : ∀ m, pool.get m = b₁.level m := by
    intro m
    simp only [MemPool.get, hstore, Function.update_apply]
    split
    · next hml =>
      subst hml
      rfl
    · rfl
  constructor
  · exact hsame.orderPool
  · exact hsame.idToOrder
  · intro m
    rw [← hsame.levelData]
    simp only [levelData, level, hget]
  · rw [← hsame.priceTable]
    rfl
  · exact hsize.trans hsame.poolSize
  · intro m
    rw [← hsame.poolFree]
    simp only [MemPool.isFree, hstore, Function.update_apply]
    split <;> rfl

theorem SameOrder.of_pool (h : b'.orderPool = b.orderPool) (q : Ptr) : SameOrder b b' q := by
  constructor
  · simp only [nextOrder, order, h]
  · simp only [prevOrder, order, h]
  · simp only [orderData, order, h]

/-- A level of its own for the order `o`, in a block that was free. -/
structure LevelOpened (b b' : LevelBook ι κ) (l : Ptr) (o : Resting ι) (price : ℕ) : Prop where
  fresh : b.ordersAtPricePool.isFree l = true
  free : ∀ m, b'.ordersAtPricePool.isFree m = if m = l then false else b.ordersAtPricePool.isFree m
  table : b'.priceOrdersAtPrices =
    Function.update b.priceOrdersAtPrices (priceToIndex price) (some l)
  data : ∀ m, m ≠ l → b'.levelData m = b.levelData m
  rep : LevelRep b' (o.side == .buy) ⟨l, o.side, price, [o]⟩
  frame : ∀ q, q ≠ o.addr → SameOrder b b' q
  orderFree : ∀ q, b'.orderPool.isFree q = b.orderPool.isFree q

theorem openLevel_eq (ho : b.orderData o.addr = (o.ident, o.side, price, o.qty, o.priority)) :
    openLevel k b o.addr =
      (b.ordersAtPricePool.allocate ⟨o.side, price, some o.addr, none, none⟩).bind fun r =>
        addOrdersAtPrice k { b.aloneOnLevel o.addr with ordersAtPricePool := r.2 } r.1 := by
  have hdata : (b.aloneOnLevel o.addr).orderData o.addr =
      (o.ident, o.side, price, o.qty, o.priority) := by
    rw [(aloneOnLevel_edit b o.addr).orderData, ho]
  simp only [orderData, aloneOnLevel, Prod.mk.injEq] at hdata
  simp only [openLevel, hdata]
  rfl

theorem levelOpened {pool : MemPool OrdersAtPrice}
    (ho : b.orderData o.addr = (o.ident, o.side, price, o.qty, o.priority))
    (halloc : b.ordersAtPricePool.allocate ⟨o.side, price, some o.addr, none, none⟩ =
      .ok (l, pool))
    (hok : addOrdersAtPrice k { b.aloneOnLevel o.addr with ordersAtPricePool := pool } l = .ok b') :
    LevelOpened b b' l o price := by
  have hedit := aloneOnLevel_edit b o.addr
  obtain ⟨hfree, -, hstore⟩ := MemPool.allocate_eq_ok halloc
  have hget : pool.get l = ⟨o.side, price, some o.addr, none, none⟩ := by
    simp only [MemPool.get, hstore, Function.update_self]
  have hother : ∀ m, m ≠ l → pool.get m = b.level m := by
    intro m hm
    simp only [MemPool.get, hstore, Function.update_of_ne hm]
    rfl
  have hsame := addOrdersAtPrice_same hok
  have hlevel : (({ b.aloneOnLevel o.addr with ordersAtPricePool := pool } :
      LevelBook ι κ).level l) = ⟨o.side, price, some o.addr, none, none⟩ := hget
  simp only [hlevel] at hsame
  have horder : ∀ q, b'.order q = (b.aloneOnLevel o.addr).order q := fun q => hsame.order q
  constructor
  · exact hfree
  · intro m
    rw [hsame.poolFree]
    change (pool.store m).isFree = _
    rw [hstore, Function.update_apply]
    split
    · rfl
    · rfl
  · exact hsame.priceTable
  · intro m hm
    rw [hsame.levelData]
    change ((pool.get m).side, (pool.get m).price, (pool.get m).firstOrder) = _
    rw [hother m hm]
    rfl
  · constructor
    · rw [hsame.levelData]
      change ((pool.get l).side, (pool.get l).price, (pool.get l).firstOrder) = _
      rw [hget]
      rfl
    · rfl
    · simp
    · apply Ring.singleton
      · rw [nextOrder, horder]
        change (b.aloneOnLevel o.addr).nextOrder o.addr = _
        simp [aloneOnLevel]
      · rw [prevOrder, horder]
        change (b.aloneOnLevel o.addr).prevOrder o.addr = _
        simp [aloneOnLevel]
    · intro z hz
      rw [List.mem_singleton.mp hz, ← ho, ← hedit.orderData]
      simp only [orderData, horder, and_self]
  · intro q hq
    constructor
    · rw [nextOrder, horder]
      change (b.aloneOnLevel o.addr).nextOrder q = _
      simp [aloneOnLevel, hq]
    · rw [prevOrder, horder]
      change (b.aloneOnLevel o.addr).prevOrder q = _
      simp [aloneOnLevel, hq]
    · rw [← hedit.orderData]
      simp only [orderData, horder]
  · intro q
    rw [hsame.orderPool, ← hedit.orderFree]
    rfl

theorem openLevel_eq_ok (ho : b.orderData o.addr = (o.ident, o.side, price, o.qty, o.priority))
    (hok : openLevel k b o.addr = .ok b') : ∃ l, LevelOpened b b' l o price := by
  rw [openLevel_eq ho] at hok
  obtain ⟨⟨l, pool⟩, halloc, hok⟩ := bind_eq_ok.mp hok
  exact ⟨l, levelOpened ho halloc hok⟩

end LevelBlocks

end HighPerformance
