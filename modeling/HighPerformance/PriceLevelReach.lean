import HighPerformance.PriceLevelFrames

/-!
# Where the pointers of a book lead

A block that has gone back to the pool keeps its contents, and links to it may
remain. What is true of every order that was ever entered is still true of every
order that a pointer of the book leads to, whatever the rings look like.
-/

namespace HighPerformance.LevelBook

variable {ι κ : Type}

def LeadsTo (P : ι → Prop) (b : LevelBook ι κ) (q : Option Ptr) : Prop :=
  ∀ p ∈ q, P (b.order p).ident

/-- The orders in use, and the orders behind the pointers, satisfy `P`. -/
structure HoldsOnly (P : ι → Prop) (b : LevelBook ι κ) : Prop where
  used : ∀ p, b.orderPool.isFree p = false → P (b.order p).ident
  entry : ∀ key, LeadsTo P b (b.idToOrder key)
  first : ∀ l, LeadsTo P b (b.level l).firstOrder
  prev : ∀ p, LeadsTo P b (b.prevOrder p)
  next : ∀ p, LeadsTo P b (b.nextOrder p)

section Edits
variable {P : ι → Prop} {b b' : LevelBook ι κ} {p l : Ptr} {q : Option Ptr}

theorem leadsTo_none : LeadsTo P b none := fun _ hp => (Option.not_mem_none _ hp).elim

theorem leadsTo_some (h : P (b.order p).ident) : LeadsTo P b (some p) := by
  intro r hr
  rw [← Option.mem_some.mp hr]
  exact h

@[simp] theorem ident_setPrevOrder {v : Option Ptr} (r : Ptr) :
    ((b.setPrevOrder p v).order r).ident = (b.order r).ident :=
  (OrderEdit.setPrevOrder b p v).keepsOrders.ident r

@[simp] theorem ident_setNextOrder {v : Option Ptr} (r : Ptr) :
    ((b.setNextOrder p v).order r).ident = (b.order r).ident :=
  (OrderEdit.setNextOrder b p v).keepsOrders.ident r

theorem LeadsTo.deref (h : LeadsTo P b q) (hq : deref q = .ok p) : P (b.order p).ident := by
  cases q with
  | none => cases hq
  | some r =>
    cases hq
    exact h p rfl

/-- The pointers of `b'` are pointers of `b`, or lead to the same orders. -/
theorem HoldsOnly.congr (h : HoldsOnly P b) (hkeeps : KeepsOrders b b')
    (hfirst : ∀ l, LeadsTo P b (b'.level l).firstOrder)
    (hprev : ∀ p, LeadsTo P b (b'.prevOrder p)) (hnext : ∀ p, LeadsTo P b (b'.nextOrder p)) :
    HoldsOnly P b' := by
  have hleads : ∀ q, LeadsTo P b q → LeadsTo P b' q := by
    intro q hq p hp
    rw [hkeeps.ident]
    exact hq p hp
  constructor
  · intro p hp
    rw [hkeeps.free] at hp
    rw [hkeeps.ident]
    exact h.used p hp
  · intro key
    rw [hkeeps.idToOrder]
    exact hleads _ (h.entry key)
  · exact fun l => hleads _ (hfirst l)
  · exact fun p => hleads _ (hprev p)
  · exact fun p => hleads _ (hnext p)

theorem HoldsOnly.sameButLinks (h : HoldsOnly P b) (hs : SameButLinks b b') : HoldsOnly P b' := by
  apply h.congr hs.keepsOrders
  · intro l
    have hfirst : (b'.level l).firstOrder = (b.level l).firstOrder :=
      congrArg (fun x => x.2.2) (hs.levelData l)
    rw [hfirst]
    exact h.first l
  · intro p
    rw [prevOrder, LevelBook.order, hs.orderPool]
    exact h.prev p
  · intro p
    rw [nextOrder, LevelBook.order, hs.orderPool]
    exact h.next p

theorem HoldsOnly.setOrdersAtPrice (h : HoldsOnly P b) (price : ℕ) (q : Option Ptr) :
    HoldsOnly P (b.setOrdersAtPrice price q) :=
  h.congr ⟨rfl, rfl, fun _ => rfl, fun _ => rfl⟩ h.first h.prev h.next

theorem HoldsOnly.setLevels (h : HoldsOnly P b) {pool : MemPool OrdersAtPrice}
    (hfirst : ∀ l, LeadsTo P b (pool.get l).firstOrder) :
    HoldsOnly P { b with ordersAtPricePool := pool } :=
  h.congr ⟨rfl, rfl, fun _ => rfl, fun _ => rfl⟩ hfirst h.prev h.next

theorem HoldsOnly.setPrevOrder (h : HoldsOnly P b) (p : Ptr) (hq : LeadsTo P b q) :
    HoldsOnly P (b.setPrevOrder p q) := by
  apply h.congr (OrderEdit.setPrevOrder b p q).keepsOrders h.first
  · intro r
    rw [prevOrder_setPrevOrder]
    split
    · exact hq
    · exact h.prev r
  · intro r
    rw [nextOrder_setPrevOrder]
    exact h.next r

theorem HoldsOnly.setNextOrder (h : HoldsOnly P b) (p : Ptr) (hq : LeadsTo P b q) :
    HoldsOnly P (b.setNextOrder p q) := by
  apply h.congr (OrderEdit.setNextOrder b p q).keepsOrders h.first
  · intro r
    rw [prevOrder_setNextOrder]
    exact h.prev r
  · intro r
    rw [nextOrder_setNextOrder]
    split
    · exact hq
    · exact h.next r

theorem HoldsOnly.setFirstOrder (h : HoldsOnly P b) (l : Ptr) (hq : LeadsTo P b q) :
    HoldsOnly P (b.setFirstOrder l q) := by
  apply h.congr (OrderEdit.setFirstOrder b l q).keepsOrders _ h.prev h.next
  intro m
  simp only [LevelBook.setFirstOrder, level_modifyLevel]
  split
  · exact hq
  · exact h.first m

theorem HoldsOnly.setQty (h : HoldsOnly P b) (p : Ptr) (qty : ℕ) : HoldsOnly P (b.setQty p qty) := by
  have horder : ∀ r, ((b.setQty p qty).order r).ident = (b.order r).ident ∧
      (b.setQty p qty).prevOrder r = b.prevOrder r ∧
      (b.setQty p qty).nextOrder r = b.nextOrder r := by
    intro r
    simp only [LevelBook.setQty, prevOrder, nextOrder, order_modifyOrder]
    split
    · exact ⟨rfl, rfl, rfl⟩
    · exact ⟨rfl, rfl, rfl⟩
  have hleads : ∀ q, LeadsTo P b q → LeadsTo P (b.setQty p qty) q := by
    intro q hq r hr
    rw [(horder r).1]
    exact hq r hr
  constructor
  · intro r hr
    rw [(horder r).1]
    apply h.used
    simpa [LevelBook.setQty, modifyOrder] using hr
  · exact fun key => hleads _ (h.entry key)
  · exact fun l => hleads _ (h.first l)
  · intro r
    rw [(horder r).2.1]
    exact hleads _ (h.prev r)
  · intro r
    rw [(horder r).2.2]
    exact hleads _ (h.next r)

end Edits

section Calls
variable {P : ι → Prop} {k : BookKind ι κ} {b b' : LevelBook ι κ} {p l : Ptr} {q : Option Ptr}

theorem HoldsOnly.appendOrder (h : HoldsOnly P b) (hp : P (b.order p).ident)
    (hok : appendOrder b p l = .ok b') : HoldsOnly P b' := by
  obtain ⟨first, hfirst, hok⟩ := bind_eq_ok.mp hok
  obtain ⟨last, -, hok⟩ := bind_eq_ok.mp hok
  cases hok
  have hf : P (b.order first).ident := (h.first l).deref hfirst
  have h₁ := h.setNextOrder last (leadsTo_some hp)
  have h₂ := h₁.setPrevOrder p (h₁.prev first)
  have h₃ := h₂.setNextOrder p (q := some first) (leadsTo_some (by simpa using hf))
  exact h₃.setPrevOrder first (leadsTo_some (by simpa using hp))

theorem HoldsOnly.openLevel (h : HoldsOnly P b) (hp : P (b.order p).ident)
    (hok : openLevel k b p = .ok b') : HoldsOnly P b' := by
  obtain ⟨⟨l, pool⟩, halloc, hok⟩ := bind_eq_ok.mp hok
  obtain ⟨-, -, hstore⟩ := MemPool.allocate_eq_ok halloc
  have h₁ := h.setPrevOrder p (leadsTo_some hp)
  have h₂ := h₁.setNextOrder p (q := some p) (leadsTo_some (by simpa using hp))
  apply HoldsOnly.sameButLinks _ (addOrdersAtPrice_same hok)
  apply HoldsOnly.setOrdersAtPrice
  apply h₂.setLevels
  intro m
  simp only [MemPool.get, hstore, Function.update_apply]
  split
  · exact leadsTo_some (by simpa using hp)
  · exact h₂.first m

theorem HoldsOnly.joinLevel (h : HoldsOnly P b) (hp : P (b.order p).ident)
    (hok : joinLevel k b p = .ok b') : HoldsOnly P b' := by
  unfold LevelBook.joinLevel at hok
  split at hok
  · exact h.openLevel hp hok
  · exact h.appendOrder hp hok

theorem HoldsOnly.unlinkOrder (h : HoldsOnly P b) (hok : unlinkOrder b p q = .ok b') :
    HoldsOnly P b' := by
  obtain ⟨before, hbefore, hok⟩ := bind_eq_ok.mp hok
  obtain ⟨after, hafter, hok⟩ := bind_eq_ok.mp hok
  obtain ⟨l, -, hok⟩ := bind_eq_ok.mp hok
  cases hok
  have hb : P (b.order before).ident := (h.prev p).deref hbefore
  have ha : P (b.order after).ident := (h.next p).deref hafter
  have h₁ := h.setNextOrder before (leadsTo_some ha)
  have h₂ := h₁.setPrevOrder after (q := some before) (leadsTo_some (by simpa using hb))
  apply HoldsOnly.setPrevOrder _ p leadsTo_none
  apply HoldsOnly.setNextOrder _ p leadsTo_none
  split
  · exact h₂.setFirstOrder l (leadsTo_some (by simpa using ha))
  · exact h₂

theorem HoldsOnly.leaveLevel (h : HoldsOnly P b) (hok : leaveLevel b p = .ok b') :
    HoldsOnly P b' := by
  simp only [LevelBook.leaveLevel] at hok
  split at hok
  · obtain ⟨l, -, hok⟩ := bind_eq_ok.mp hok
    obtain ⟨b₁, h₁, hok⟩ := bind_eq_ok.mp hok
    obtain ⟨pool, hpool, hok⟩ := bind_eq_ok.mp hok
    cases hok
    obtain ⟨-, -, -, hstore⟩ := MemPool.deallocate_eq_ok hpool
    have h₂ := (h.sameButLinks (unlinkLevel_same h₁)).setOrdersAtPrice (b.order p).price none
    apply h₂.setLevels
    -- the level that goes keeps its contents
    intro m
    simp only [MemPool.get, hstore, Function.update_apply]
    split
    · next hm => exact h₂.first l
    · exact h₂.first m
  · exact h.unlinkOrder hok

theorem HoldsOnly.allocate {order : BookOrder ι} {pool : MemPool (BookOrder ι)}
    (h : HoldsOnly P b) (hp : P order.ident) (hprev : order.prevOrder = none)
    (hnext : order.nextOrder = none) (hok : b.orderPool.allocate order = .ok (p, pool)) :
    HoldsOnly P { b with orderPool := pool } ∧
      P ((({ b with orderPool := pool } : LevelBook ι κ)).order p).ident := by
  obtain ⟨-, -, hstore⟩ := MemPool.allocate_eq_ok hok
  set b₁ : LevelBook ι κ := { b with orderPool := pool }
  have horder : ∀ r, b₁.order r = if r = p then order else b.order r := by
    intro r
    simp only [b₁, LevelBook.order, MemPool.get, hstore, Function.update_apply]
    split
    · rfl
    · rfl
  have hleads : ∀ q, LeadsTo P b q → LeadsTo P b₁ q := by
    intro q hq r hr
    rw [horder]
    split
    · exact hp
    · exact hq r hr
  constructor
  · constructor
    · intro r hr
      rw [horder]
      split
      · exact hp
      · next hne =>
        apply h.used
        simpa [b₁, MemPool.isFree, hstore, hne] using hr
    · exact fun key => hleads _ (h.entry key)
    · exact fun l => hleads _ (h.first l)
    · intro r
      rw [prevOrder, horder]
      split
      · rw [hprev]
        exact leadsTo_none
      · exact hleads _ (h.prev r)
    · intro r
      rw [nextOrder, horder]
      split
      · rw [hnext]
        exact leadsTo_none
      · exact hleads _ (h.next r)
  · rw [horder, if_pos rfl]
    exact hp

end Calls

section Tables
variable [DecidableEq κ] {P : ι → Prop} {k : BookKind ι κ} {b b' : LevelBook ι κ} {p : Ptr}

theorem HoldsOnly.removeOrder (h : HoldsOnly P b) (hok : removeOrder k b p = .ok b') :
    HoldsOnly P b' := by
  obtain ⟨b₁, hleave, hok⟩ := bind_eq_ok.mp hok
  obtain ⟨_, -, hok⟩ := bind_eq_ok.mp hok
  obtain ⟨pool, hpool, hok⟩ := bind_eq_ok.mp hok
  cases hok
  have h₁ := h.leaveLevel hleave
  obtain ⟨-, -, -, hstore⟩ := MemPool.deallocate_eq_ok hpool
  have hget : ∀ r, pool.get r = b₁.orderPool.get r := by
    intro r
    simp only [MemPool.get, hstore, Function.update_apply]
    split
    · next hr => rw [hr]
    · rfl
  set b₂ : LevelBook ι κ := { b₁ with
    idToOrder := Function.update b₁.idToOrder (k.key (b₁.order p).ident) none, orderPool := pool }
  have horder : ∀ r, b₂.order r = b₁.order r := hget
  have hleads : ∀ q, LeadsTo P b₁ q → LeadsTo P b₂ q := by
    intro q hq r hr
    rw [horder]
    exact hq r hr
  constructor
  · intro r hr
    rw [horder]
    apply h₁.used
    change pool.isFree r = false at hr
    simp only [MemPool.isFree, hstore, Function.update_apply] at hr
    split at hr
    · cases hr
    · exact hr
  · intro key
    change LeadsTo P b₂ (Function.update b₁.idToOrder _ none key)
    rw [Function.update_apply]
    split
    · exact leadsTo_none
    · exact hleads _ (h₁.entry key)
  · exact fun l => hleads _ (h₁.first l)
  · intro r
    rw [prevOrder, horder]
    exact hleads _ (h₁.prev r)
  · intro r
    rw [nextOrder, horder]
    exact hleads _ (h₁.next r)

theorem HoldsOnly.addOrder (h : HoldsOnly P b) (hp : P (b.order p).ident)
    (hok : addOrder k b p = .ok b') : HoldsOnly P b' := by
  obtain ⟨b₁, hjoin, hok⟩ := bind_eq_ok.mp hok
  obtain ⟨_, -, hok⟩ := bind_eq_ok.mp hok
  cases hok
  have h₁ := h.joinLevel hp hjoin
  have hp₁ : P (b₁.order p).ident := by
    rw [(joinLevel_keepsOrders hjoin).ident]
    exact hp
  refine ⟨h₁.used, ?_, h₁.first, h₁.prev, h₁.next⟩
  intro key
  change LeadsTo P b₁ (Function.update b₁.idToOrder _ (some p) key)
  rw [Function.update_apply]
  split
  · exact leadsTo_some hp₁
  · exact h₁.entry key

end Tables

end HighPerformance.LevelBook
