import HighPerformance.PriceLevelStore

/-!
# Taking an order off a side in order

`SideRing b d ls` is the place of the levels `ls` on side `d`. Together with
`Stored` it makes `removeOrder` return, for prices of any size and whatever the
other side looks like; `SideFrame` says that the other side is not touched.
-/

namespace HighPerformance
open CircularList LevelBook

/-- The levels `ls`, best first, are the ring of side `d`. -/
structure SideRing {ι κ : Type} (b : LevelBook ι κ) (d : Bool) (ls : List (PriceLevel ι)) :
    Prop where
  best : b.best d = (ls.map (·.addr)).head?
  ring : Ring b.nextEntry b.prevEntry (ls.map (·.addr))
  sorted : (ls.map (·.price)).Pairwise (better d)
  side : ∀ L ∈ ls, (L.side == .buy) = d

/-- The blocks of the levels and orders lie in the pools. -/
structure InPools {ι κ : Type} (b : LevelBook ι κ) (ls : List (PriceLevel ι)) (pend : List Ptr) :
    Prop where
  levels : ∀ L ∈ ls, L.addr < b.ordersAtPricePool.size
  orders : ∀ p ∈ pend ++ (ls.flatMap (·.orders)).map (·.addr), p < b.orderPool.size

/-- Outside the levels `ls` of side `d` no level is linked anew. -/
structure SideFrame {ι κ : Type} (b b' : LevelBook ι κ) (d : Bool) (ls : List (PriceLevel ι)) :
    Prop where
  other : b'.best (!d) = b.best (!d)
  next : ∀ q ∉ ls.map (·.addr), b'.nextEntry q = b.nextEntry q
  prev : ∀ q ∉ ls.map (·.addr), b'.prevEntry q = b.prevEntry q
  levelSize : b'.ordersAtPricePool.size = b.ordersAtPricePool.size
  orderSize : b'.orderPool.size = b.orderPool.size

section Sides
variable {ι κ : Type} {k : BookKind ι κ} {b b' : LevelBook ι κ} {d e : Bool}
  {u w ls ms : List (PriceLevel ι)} {pend : List Ptr} {L : PriceLevel ι} {o : Resting ι}
  {x y : List (Resting ι)}

theorem InPools.perm (h : InPools b ls pend) (hp : ms.Perm ls) : InPools b ms pend := by
  have horders := ((hp.flatMap_right (·.orders)).map (·.addr)).append_left pend
  constructor
  · exact fun L hL => h.levels L (hp.mem_iff.mp hL)
  · exact fun p hp => h.orders p (horders.mem_iff.mp hp)

theorem SideRing.frame (h : SideRing b (!d) ms) (hf : SideFrame b b' d ls)
    (hfar : ∀ M ∈ ms, M.addr ∉ ls.map (·.addr)) : SideRing b' (!d) ms := by
  constructor
  · rw [hf.other]
    exact h.best
  · apply h.ring.frame
    · intro c hc
      obtain ⟨M, hM, rfl⟩ := List.mem_map.mp hc
      exact hf.next _ (hfar M hM)
    · intro c hc
      obtain ⟨M, hM, rfl⟩ := List.mem_map.mp hc
      exact hf.prev _ (hfar M hM)
  · exact h.sorted
  · exact h.side

/-- The links, addresses and prices of its levels decide a side. -/
theorem SideRing.congr (h : SideRing b d ls) (hs : SameLevels b b')
    (hk : ms.map (fun L => (L.addr, L.price, L.side)) =
      ls.map fun L => (L.addr, L.price, L.side)) : SideRing b' d ms := by
  have haddr : ms.map (·.addr) = ls.map (·.addr) := by
    simpa [Function.comp_def] using congrArg (List.map Prod.fst) hk
  have hprice : ms.map (·.price) = ls.map (·.price) := by
    simpa [Function.comp_def] using congrArg (List.map fun x => x.2.1) hk
  have hside : ms.map (·.side) = ls.map (·.side) := by
    simpa [Function.comp_def] using congrArg (List.map fun x => x.2.2) hk
  constructor
  · rw [hs.best, haddr]
    exact h.best
  · rw [haddr]
    exact h.ring.frame (fun c _ => hs.next c) (fun c _ => hs.prev c)
  · rw [hprice]
    exact h.sorted
  · intro L hL
    have hm : L.side ∈ ls.map (·.side) := by
      rw [← hside]
      exact List.mem_map_of_mem hL
    obtain ⟨M, hM, he⟩ := List.mem_map.mp hm
    rw [← he]
    exact h.side M hM

theorem SideFrame.of_same (h : OrderEdit b b') (d : Bool) (ls : List (PriceLevel ι)) :
    SideFrame b b' d ls :=
  ⟨h.best _, fun q _ => h.next q, fun q _ => h.prev q, h.poolSize, h.orderSize⟩

theorem removeOrdersAtPrice_returns (hside : SideRing b d (u ++ L :: w))
    (htable : b.getOrdersAtPrice L.price = some L.addr)
    (huse : b.ordersAtPricePool.isFree L.addr = false)
    (hlt : L.addr < b.ordersAtPricePool.size) :
    ∃ b', removeOrdersAtPrice b L.side L.price = .ok b' ∧ SideRing b' d (u ++ w) ∧
      SideFrame b b' d (u ++ L :: w) := by
  have hdir := hside.side L (by simp)
  have hbest := hside.best
  have hring := hside.ring
  rw [List.map_append, List.map_cons] at hbest hring
  obtain ⟨b₁, hok₁, hgone⟩ := unlinkLevel_spec hbest hring
  have hlt₁ : L.addr < (b₁.setOrdersAtPrice L.price none).ordersAtPricePool.size := by
    rw [← hgone.same.poolSize] at hlt
    exact hlt
  have huse₁ : (b₁.setOrdersAtPrice L.price none).ordersAtPricePool.isFree L.addr = false := by
    rw [← hgone.same.poolFree] at huse
    exact huse
  obtain ⟨pool, hpool, hsize, -, hstore⟩ := MemPool.deallocate_spec hlt₁ huse₁
  set b₂ : LevelBook ι κ := { b₁.setOrdersAtPrice L.price none with ordersAtPricePool := pool }
    with hb₂
  have hcall : removeOrdersAtPrice b L.side L.price = .ok b₂ := by
    simp only [removeOrdersAtPrice, htable, deref_some, bind, Except.bind, hdir, hok₁, hpool]
    rfl
  have hlevel : ∀ q, b₂.level q = b₁.level q := by
    intro q
    change pool.get q = b₁.ordersAtPricePool.get q
    simp only [MemPool.get, hstore, Function.update_apply]
    split
    · next hq =>
      rw [hq]
      rfl
    · rfl
  have hnext : ∀ q, b₂.nextEntry q = b₁.nextEntry q := fun q => congrArg (·.nextEntry) (hlevel q)
  have hprev : ∀ q, b₂.prevEntry q = b₁.prevEntry q := fun q => congrArg (·.prevEntry) (hlevel q)
  have hsub : (u ++ w).Sublist (u ++ L :: w) := (List.sublist_cons_self L w).append_left u
  refine ⟨b₂, hcall, ?_, ?_⟩
  · constructor
    · rw [List.map_append]
      exact hgone.best
    · rw [List.map_append]
      exact hgone.ring.frame (fun c _ => hnext c) (fun c _ => hprev c)
    · exact List.Pairwise.sublist (hsub.map _) hside.sorted
    · intro M hM
      exact hside.side M (hsub.subset hM)
  · constructor
    · exact hgone.otherBest
    · intro q hq
      rw [List.map_append, List.map_cons] at hq
      rw [hnext, hgone.next q hq]
    · intro q hq
      rw [List.map_append, List.map_cons] at hq
      rw [hprev, hgone.prev q hq]
    · exact hsize.trans hgone.same.poolSize
    · exact congrArg (·.size) hgone.same.orderPool

theorem leaveLevel_returns (hrep : LevelRep b (L.side == .buy) L)
    (hside : SideRing b d (u ++ L :: w)) (htable : b.getOrdersAtPrice L.price = some L.addr)
    (huse : b.ordersAtPricePool.isFree L.addr = false) (hlt : L.addr < b.ordersAtPricePool.size)
    (hxy : L.orders = x ++ o :: y) :
    ∃ b', leaveLevel b o.addr = .ok b' ∧ SideRing b' d (u ++ Shape.refill L (x ++ y) ++ w) ∧
      SideFrame b b' d (u ++ L :: w) := by
  obtain ⟨-, hoside, hprice, -, -⟩ := hrep.orderFields (o := o) (by simp [hxy])
  simp only [leaveLevel, hoside, hprice, htable]
  by_cases hne : x ++ y = []
  · rw [if_pos ((hrep.alone_iff hxy).mpr hne), Shape.refill, if_pos hne, List.append_nil]
    exact removeOrdersAtPrice_returns hside htable huse hlt
  · rw [if_neg fun hself => hne ((hrep.alone_iff hxy).mp hself), Shape.refill, if_neg hne]
    obtain ⟨b', hok, hedit⟩ := unlinkOrder_edited [] hrep hxy hne
    refine ⟨b', hok, ?_, SideFrame.of_same hedit.toOrderEdit d _⟩
    apply hside.congr hedit.toSameLevels
    simp

theorem refill_middle_perm (u : List (PriceLevel ι)) (os : List (Resting ι))
    (w ms : List (PriceLevel ι)) :
    (u ++ Shape.refill L os ++ w ++ ms).Perm (Shape.refill L os ++ (u ++ w ++ ms)) := by
  simp only [List.append_assoc]
  rw [← List.append_assoc, ← List.append_assoc (Shape.refill L os)]
  exact List.perm_append_comm.append_right _

theorem middle_perm (u w ms : List (PriceLevel ι)) :
    (u ++ L :: w ++ ms).Perm (L :: (u ++ w ++ ms)) := by
  simp only [List.append_assoc, List.cons_append]
  exact List.perm_middle

/-- What is left when the order `o` has been removed from the level `L`, which
stands between `u` and `w` on side `d`; `ms` are the other levels. -/
structure Removed (k : BookKind ι κ) [DecidableEq κ] (b b' : LevelBook ι κ) (d : Bool)
    (u : List (PriceLevel ι)) (L : PriceLevel ι) (w ms : List (PriceLevel ι)) (o : Resting ι)
    (rest : List (Resting ι)) (pend : List Ptr) : Prop where
  stored : Stored b' (u ++ Shape.refill L rest ++ w ++ ms) pend
  complete : Complete b (u ++ L :: w ++ ms) pend →
    Complete b' (u ++ Shape.refill L rest ++ w ++ ms) pend
  side : SideRing b' d (u ++ Shape.refill L rest ++ w)
  frame : SideFrame b b' d (u ++ L :: w)
  pools : InPools b' (u ++ Shape.refill L rest ++ w ++ ms) pend
  idToOrder : b'.idToOrder = Function.update b.idToOrder (k.key o.ident) none

theorem removeOrder_returns [DecidableEq κ] (hs : Stored b (u ++ L :: w ++ ms) pend)
    (hside : SideRing b d (u ++ L :: w)) (hin : InPools b (u ++ L :: w ++ ms) pend)
    (hxy : L.orders = x ++ o :: y) (hkey : k.checkKey (k.key o.ident) = .ok ()) :
    ∃ b', removeOrder k b o.addr = .ok b' ∧ Removed k b b' d u L w ms o (x ++ y) pend := by
  have hLm : L ∈ u ++ L :: w ++ ms := by simp
  have hom : o.addr ∈ pend ++ ((u ++ L :: w ++ ms).flatMap (·.orders)).map (·.addr) :=
    List.mem_append_right _ (List.mem_map_of_mem (List.mem_flatMap.mpr ⟨L, hLm, by simp [hxy]⟩))
  obtain ⟨b₁, hok, hside₁, hframe⟩ := leaveLevel_returns (hs.level L hLm) hside (hs.table L hLm)
    (hs.levelUse L hLm) (hin.levels L hLm) hxy
  have hkeeps := leaveLevel_keepsOrders hok
  have hident : (b₁.order o.addr).ident = o.ident := by
    rw [hkeeps.ident]
    exact ((hs.level L hLm).orderFields (o := o) (by simp [hxy])).1
  obtain ⟨hs₁, hc₁⟩ := (hs.perm (middle_perm u w ms).symm).leaveLevel hxy hok
  have huse : b₁.orderPool.isFree o.addr = false := hs₁.orderUse _ (by simp)
  have hlt : o.addr < b₁.orderPool.size := by
    rw [hframe.orderSize]
    exact hin.orders _ hom
  obtain ⟨pool, hpool, hsize, -, hstore⟩ := MemPool.deallocate_spec hlt huse
  obtain ⟨hs₂, hc₂⟩ := hs₁.deallocate
    (Function.update b₁.idToOrder (k.key o.ident) none) hpool
  have hrefill := refill_middle_perm (L := L) u (x ++ y) w ms
  refine ⟨{ b₁ with
      idToOrder := Function.update b₁.idToOrder (k.key o.ident) none, orderPool := pool },
    ?_, ?_⟩
  · simp only [removeOrder, hok, bind, Except.bind, hident, hkey, hpool]
    rfl
  · constructor
    · exact hs₂.perm hrefill
    · intro hc
      exact (hc₂ (hc₁ (hc.perm (middle_perm u w ms).symm))).perm hrefill
    · exact hside₁.congr ⟨fun _ => rfl, fun _ => rfl, fun _ => rfl, rfl, rfl, rfl, fun _ => rfl⟩ rfl
    · exact ⟨hframe.other, hframe.next, hframe.prev, hframe.levelSize,
        hsize.trans hframe.orderSize⟩
    · have hmem : ∀ M ∈ Shape.refill L (x ++ y), M.addr = L.addr := by
        intro M hM
        rw [Shape.refill] at hM
        split at hM
        · simp at hM
        · rw [List.mem_singleton.mp hM]
      constructor
      · intro M hM
        change M.addr < b₁.ordersAtPricePool.size
        rw [hframe.levelSize]
        rcases List.mem_append.mp (hrefill.mem_iff.mp hM) with hML | hold
        · rw [hmem M hML]
          exact hin.levels L hLm
        · have hsub : (u ++ w ++ ms).Sublist (u ++ L :: w ++ ms) :=
            ((List.sublist_cons_self L w).append_left u).append_right ms
          exact hin.levels M (hsub.subset hold)
      · intro p hp
        change p < pool.size
        rw [hsize, hframe.orderSize]
        apply hin.orders
        have hback := (((hrefill.flatMap_right (·.orders)).map (·.addr)).append_left pend).mem_iff.mp hp
        have hall := ((((middle_perm (L := L) u w ms).flatMap_right (·.orders)).map
          (·.addr)).append_left pend).mem_iff (a := p)
        rw [hall]
        simp only [List.flatMap_append, List.flatMap_cons, List.map_append, List.mem_append]
          at hback ⊢
        rcases hback with hp | hp | hp
        · exact .inl hp
        · right
          left
          obtain ⟨z, hz, rfl⟩ := List.mem_map.mp hp
          obtain ⟨M, hM, hzM⟩ := List.mem_flatMap.mp hz
          apply List.mem_map_of_mem
          rw [Shape.refill] at hM
          split at hM
          · simp at hM
          · rw [List.mem_singleton.mp hM] at hzM
            rw [hxy]
            exact ((List.sublist_cons_self o y).append_left x).subset hzM
        · exact .inr (.inr hp)
    · rw [← hkeeps.idToOrder]

end Sides

end HighPerformance
