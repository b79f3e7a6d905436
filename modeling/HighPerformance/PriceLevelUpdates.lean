import HighPerformance.PriceLevelFrames

/-!
# Levels that change, come and go

The edits of rings followed on shapes. `relevel` is the rule for an edit inside
one level; `openLevel_spec` and `removeOrdersAtPrice_spec` treat a level that
comes or goes.
-/

namespace HighPerformance.LevelBook
open CircularList

variable {ι κ : Type}

section Levels
variable {b b' : LevelBook ι κ} {S : Shape ι} {pend pend' : List Ptr} {d : Bool}
  {L L' M : PriceLevel ι} {u w : List (PriceLevel ι)} {o : Resting ι}

theorem levels_split (hL : S d = u ++ L :: w) : S.levels.Perm (L :: (u ++ w ++ S (!d))) := by
  refine (S.levels_perm d).trans ?_
  rw [hL, List.append_assoc, List.cons_append, List.append_assoc]
  exact List.perm_middle

theorem orders_split (hL : S d = u ++ L :: w) :
    S.orders.Perm (L.orders ++ (u ++ w ++ S (!d)).flatMap (·.orders)) :=
  (levels_split hL).flatMap_right _

theorem mem_rest_of_mem (hL : S d = u ++ L :: w) (hM : M ∈ u ++ w) : M ∈ S d := by
  rw [hL]
  simp only [List.mem_append, List.mem_cons] at hM ⊢
  tauto

theorem rest_addr_ne (h : LevelsRep b S) (hL : S d = u ++ L :: w)
    (hM : M ∈ u ++ w ++ S (!d)) : M.addr ≠ L.addr := by
  have hnd := h.nodup
  rw [((levels_split hL).map _).nodup_iff, List.map_cons, List.nodup_cons] at hnd
  intro he
  exact hnd.1 (he ▸ List.mem_map_of_mem hM)

theorem rest_order_notMem (h : Shaped b S pend) (hL : S d = u ++ L :: w)
    (hM : M ∈ u ++ w ++ S (!d)) (ho : o ∈ M.orders) : o.addr ∉ pend ++ L.orders.map (·.addr) := by
  have hnd := h.nodup
  rw [(((orders_split hL).map _).append_left pend).nodup_iff, List.map_append,
    ← List.append_assoc, List.nodup_append] at hnd
  intro hm
  have hrest : o.addr ∈ ((u ++ w ++ S (!d)).flatMap (·.orders)).map (·.addr) :=
    List.mem_map_of_mem (List.mem_flatMap.mpr ⟨M, hM, ho⟩)
  exact hnd.2.2 _ hm _ hrest rfl

theorem addrs_middle_perm (u : List (PriceLevel ι)) (N : PriceLevel ι)
    (w : List (PriceLevel ι)) : (((u ++ N :: w).flatMap (·.orders)).map (·.addr)).Perm
      (N.orders.map (·.addr) ++ ((u ++ w).flatMap (·.orders)).map (·.addr)) := by
  rw [← List.map_append]
  exact (List.perm_middle.flatMap_right _).map _

theorem level_unique {e : Bool} (h : Shaped b S pend) (hL : S d = u ++ L :: w) (hM : M ∈ S e)
    (hoL : o ∈ L.orders) (hoM : o ∈ M.orders) : e = d ∧ M = L := by
  have hnot : M ∉ u ++ w ++ S (!d) := by
    intro hrest
    exact rest_order_notMem h hL hrest hoM (List.mem_append_right _ (List.mem_map_of_mem hoL))
  have hed : e = d := by
    by_contra hne
    have hn : e = !d := by cases e <;> cases d <;> simp_all
    subst hn
    exact hnot (List.mem_append_right _ hM)
  subst hed
  refine ⟨rfl, ?_⟩
  rw [hL] at hM
  simp only [List.mem_append, List.mem_cons] at hM hnot
  tauto

theorem relevel (h : Shaped b S pend) (hL : S d = u ++ L :: w) (haddr : L'.addr = L.addr)
    (hprice : L'.price = L.price) (hsame : SameLevels b b')
    (hdata : ∀ m, m ≠ L.addr → b'.levelData m = b.levelData m) (hL' : LevelRep b' d L')
    (hframe : ∀ q ∉ pend ++ L.orders.map (·.addr), SameOrder b b' q)
    (hperm : (pend' ++ L'.orders.map (·.addr)).Perm (pend ++ L.orders.map (·.addr)))
    (hsize : b'.orderPool.size = b.orderPool.size)
    (hnext : b'.orderPool.nextFreeIndex = b.orderPool.nextFreeIndex)
    (hfree : ∀ q, b'.orderPool.isFree q = b.orderPool.isFree q) :
    Shaped b' (S.set d (u ++ L' :: w)) pend' := by
  have hkeep : ∀ e, ∀ M ∈ S e, M ∈ u ++ w ++ S (!d) → LevelRep b' e M := by
    intro e M hMe hM
    apply (h.level e M hMe).frame
    · exact hdata _ (rest_addr_ne h.levels hL hM)
    · intro o ho
      exact hframe _ (rest_order_notMem h hL hM ho)
  apply h.update
  · apply h.levels.congr hsame
    intro e
    by_cases he : e = d
    · subst he
      simp [hL, haddr, hprice]
    · rw [Shape.set_ne he]
  · intro M hM
    simp only [List.mem_append, List.mem_cons] at hM
    by_cases hML : M = L'
    · subst hML
      exact hL'
    · have hM' : M ∈ u ++ w := by
        simp only [List.mem_append]
        tauto
      exact hkeep d M (mem_rest_of_mem hL hM') (List.mem_append_left _ hM')
  · intro M hM
    exact hkeep _ M hM (List.mem_append_right _ hM)
  · rw [hL]
    refine ((addrs_middle_perm u L' w).append_left _).trans
      (.trans ?_ ((addrs_middle_perm u L w).symm.append_left _))
    rw [← List.append_assoc, ← List.append_assoc]
    exact hperm.append_right _
  · exact hsize
  · exact hnext
  · exact hfree

theorem appendOrder_spec (h : Shaped b S (o.addr :: pend)) (hL : S d = u ++ L :: w)
    (hside : o.side = L.side)
    (ho : b.orderData o.addr = (o.ident, o.side, L.price, o.qty, o.priority)) :
    ∃ b', appendOrder b o.addr L.addr = .ok b' ∧
      Shaped b' (S.set d (u ++ { L with orders := L.orders ++ [o] } :: w)) pend ∧
      b'.idToOrder = b.idToOrder ∧ ∀ q, b'.orderData q = b.orderData q := by
  have hLm : L ∈ S d := by simp [hL]
  have hrep := h.level d L hLm
  have hfresh : o.addr ∉ L.orders.map (·.addr) := by
    have hnd := h.nodup
    rw [List.cons_append, List.nodup_cons] at hnd
    intro hm
    obtain ⟨x, hx, he⟩ := List.mem_map.mp hm
    apply hnd.1
    rw [← he]
    exact List.mem_append_right _
      (List.mem_map_of_mem (Shape.mem_orders.mpr ⟨d, L, hLm, hx⟩))
  obtain ⟨b', hok, hedit, hrep', hdata, hframe⟩ := hrep.appendOrder_ok hfresh hside ho
  refine ⟨b', hok, ?_, hedit.idToOrder, hedit.orderData⟩
  apply relevel h hL
  · rfl
  · rfl
  · exact hedit.toSameLevels
  · exact fun m _ => hdata m
  · exact hrep'
  · intro q hq
    apply hframe
    simp only [List.mem_cons, List.mem_append, List.cons_append] at hq ⊢
    tauto
  · exact LevelRep.append_perm pend
  · exact hedit.orderSize
  · exact hedit.orderNext
  · exact hedit.orderFree

theorem unlinkOrder_spec {x y : List (Resting ι)} (h : Shaped b S pend) (hL : S d = u ++ L :: w)
    (hxy : L.orders = x ++ o :: y) (hne : x ++ y ≠ []) :
    ∃ b', unlinkOrder b o.addr (some L.addr) = .ok b' ∧
      Shaped b' (S.set d (u ++ { L with orders := x ++ y } :: w)) (o.addr :: pend) ∧
      b'.idToOrder = b.idToOrder ∧ ∀ q, b'.orderData q = b.orderData q := by
  have hrep := h.level d L (by simp [hL])
  obtain ⟨b', hok, hedit, hrep', hdata, hframe⟩ := hrep.unlinkOrder_ok hxy hne
  refine ⟨b', hok, ?_, hedit.idToOrder, hedit.orderData⟩
  apply relevel h hL
  · rfl
  · rfl
  · exact hedit.toSameLevels
  · exact hdata
  · exact hrep'
  · exact fun q hq => hframe q fun hm => hq (List.mem_append_right _ hm)
  · exact LevelRep.leave_perm pend hxy
  · exact hedit.orderSize
  · exact hedit.orderNext
  · exact hedit.orderFree

/-- The rings, tables and pool after level `L` has been taken out. `b₁` is the book with `L` out of
its ring. -/
theorem levels_remove {b₁ : LevelBook ι κ} (h : LevelsRep b S) (hL : S d = u ++ L :: w)
    (hgone : LevelGone b b₁ d L.addr (u.map (·.addr)) (w.map (·.addr)))
    (hlevel : ∀ m, b'.level m = b₁.level m) (hbest : ∀ e, b'.best e = b₁.best e)
    (htable : b'.priceOrdersAtPrices = Function.update b.priceOrdersAtPrices L.price none)
    (hholds : b'.ordersAtPricePool.Holds ((S.set d (u ++ w)).levels.map (·.addr)))
    (hsize : b'.ordersAtPricePool.size = meMaxPriceLevels) :
    LevelsRep b' (S.set d (u ++ w)) := by
  have hperm := levels_split hL
  have hsplit' : (S.set d (u ++ w)).levels.Perm (u ++ w ++ S (!d)) := Shape.levels_set_perm
  have hmem' : ∀ M, M ∈ (S.set d (u ++ w)).levels ↔ M ∈ u ++ w ++ S (!d) :=
    fun M => hsplit'.mem_iff
  have hnext : b'.nextEntry = b₁.nextEntry := by
    funext m
    simp only [nextEntry, hlevel]
  have hprev : b'.prevEntry = b₁.prevEntry := by
    funext m
    simp only [prevEntry, hlevel]
  have hfar : ∀ c ∈ (S (!d)).map (·.addr), c ∉ u.map (·.addr) ++ L.addr :: w.map (·.addr) := by
    intro c hc hm
    have hnd := h.nodup
    rw [((S.levels_perm d).map _).nodup_iff, List.map_append, List.nodup_append] at hnd
    apply hnd.2.2 c _ c hc rfl
    rw [hL, List.map_append, List.map_cons]
    exact hm
  constructor
  · refine Shape.forall_side d ?_ ?_
    · rw [Shape.set_same, List.map_append, hbest]
      exact hgone.best
    · rw [Shape.set_not, ← h.best, hbest]
      exact hgone.otherBest
  · rw [hnext, hprev]
    refine Shape.forall_side d ?_ ?_
    · rw [Shape.set_same, List.map_append]
      exact hgone.ring
    · rw [Shape.set_not]
      apply (h.ring (!d)).frame
      · exact fun c hc => hgone.next c (hfar c hc)
      · exact fun c hc => hgone.prev c (hfar c hc)
  · refine Shape.forall_side d ?_ ?_
    · rw [Shape.set_same]
      have hs := h.sorted d
      rw [hL] at hs
      have hsub : ((u ++ w).map (·.price)).Sublist ((u ++ L :: w).map (·.price)) :=
        ((List.sublist_cons_self L w).append_left u).map _
      exact List.Pairwise.sublist hsub hs
    · rw [Shape.set_not]
      exact h.sorted _
  · refine Shape.forall_side d ?_ ?_
    · rw [Shape.set_same]
      exact fun M hM => h.priceLt d M (mem_rest_of_mem hL hM)
    · rw [Shape.set_not]
      exact h.priceLt _
  · have hnd := h.nodup
    rw [(hperm.map _).nodup_iff, List.map_cons, List.nodup_cons] at hnd
    rw [(hsplit'.map _).nodup_iff]
    exact hnd.2
  · intro i l
    rw [htable]
    by_cases hi : i = L.price
    · subst hi
      rw [Function.update_self]
      simp only [reduceCtorEq, false_iff]
      rintro ⟨M, hM, -, hMp⟩
      have hMr := (hmem' M).mp hM
      have hMt : b.priceOrdersAtPrices L.price = some M.addr :=
        (h.priceTable _ _).mpr ⟨M, hperm.mem_iff.mpr (List.mem_cons_of_mem _ hMr), rfl, hMp⟩
      have hLt : b.priceOrdersAtPrices L.price = some L.addr :=
        (h.priceTable _ _).mpr ⟨L, hperm.mem_iff.mpr List.mem_cons_self, rfl, rfl⟩
      rw [hLt, Option.some.injEq] at hMt
      exact rest_addr_ne h hL hMr hMt.symm
    · rw [Function.update_of_ne hi, h.priceTable]
      constructor
      · rintro ⟨M, hM, hMl, hMp⟩
        rcases List.mem_cons.mp (hperm.mem_iff.mp hM) with rfl | hM
        · exact (hi hMp.symm).elim
        · exact ⟨M, (hmem' M).mpr hM, hMl, hMp⟩
      · rintro ⟨M, hM, hMl, hMp⟩
        exact ⟨M, hperm.mem_iff.mpr (List.mem_cons_of_mem _ ((hmem' M).mp hM)), hMl, hMp⟩
  · exact hholds
  · exact hsize

theorem mem_addrs_remove (h : LevelsRep b S) (hL : S d = u ++ L :: w) (l : Ptr) :
    l ∈ (S.set d (u ++ w)).levels.map (·.addr) ↔ l ∈ S.levels.map (·.addr) ∧ l ≠ L.addr := by
  have hsplit' : (S.set d (u ++ w)).levels.Perm (u ++ w ++ S (!d)) := Shape.levels_set_perm
  rw [(hsplit'.map _).mem_iff, ((levels_split hL).map _).mem_iff, List.map_cons, List.mem_cons]
  constructor
  · intro hl
    obtain ⟨M, hM, rfl⟩ := List.mem_map.mp hl
    exact ⟨.inr hl, rest_addr_ne h hL hM⟩
  · rintro ⟨hl | hl, hne⟩
    · exact (hne hl).elim
    · exact hl

/-- The level of a single order goes with it. -/
theorem removeOrdersAtPrice_spec (h : Shaped b S pend) (hL : S d = u ++ L :: w)
    (hone : L.orders = [o]) :
    ∃ b', removeOrdersAtPrice b L.side L.price = .ok b' ∧
      Shaped b' (S.set d (u ++ w)) (o.addr :: pend) ∧
      b'.idToOrder = b.idToOrder ∧ ∀ q, b'.orderData q = b.orderData q := by
  have hLm : L ∈ S d := by simp [hL]
  have hindex : priceToIndex L.price = L.price := Nat.mod_eq_of_lt (h.levels.priceLt d L hLm)
  have htable : b.getOrdersAtPrice L.price = some L.addr := by
    rw [getOrdersAtPrice, hindex, h.levels.priceTable]
    exact ⟨L, Shape.mem_levels.mpr ⟨d, hLm⟩, rfl, rfl⟩
  have hring := h.levels.ring d
  have hbest := h.levels.best d
  rw [hL, List.map_append, List.map_cons] at hring hbest
  obtain ⟨b₁, hok₁, hgone⟩ := unlinkLevel_spec hbest hring
  have hpool : (b₁.setOrdersAtPrice L.price none).ordersAtPricePool.Holds (S.levels.map (·.addr)) :=
    h.levels.pool.of_flags hgone.same.poolSize hgone.same.poolNext hgone.same.poolFree
  have hmem : L.addr ∈ S.levels.map (·.addr) :=
    List.mem_map_of_mem (Shape.mem_levels.mpr ⟨d, hLm⟩)
  obtain ⟨q, hq, hholds, hsize, hget⟩ := hpool.deallocate_spec hmem (mem_addrs_remove h.levels hL)
  set b₂ : LevelBook ι κ := { b₁.setOrdersAtPrice L.price none with ordersAtPricePool := q } with hb₂
  have hcall : removeOrdersAtPrice b L.side L.price = .ok b₂ := by
    simp only [removeOrdersAtPrice, htable, deref_some, bind, Except.bind, (h.level d L hLm).side,
      hok₁, hq]
    rfl
  have hfreed := removeOrdersAtPrice_eq_ok htable hcall
  have hlevels : LevelsRep b₂ (S.set d (u ++ w)) := by
    apply levels_remove h.levels hL hgone
    · exact hget
    · exact fun _ => rfl
    · rw [hfreed.table, hindex]
    · exact hholds
    · exact hfreed.size.trans h.levels.poolSize
  have horder := SameOrder.of_pool hfreed.orderPool
  refine ⟨b₂, hcall, ?_, hfreed.idToOrder, fun p => (horder p).data⟩
  apply h.update hlevels
  · intro M hM
    exact (h.level d M (mem_rest_of_mem hL hM)).frame (hfreed.data _) fun o _ => horder _
  · intro M hM
    exact (h.level _ M hM).frame (hfreed.data _) fun o _ => horder _
  · rw [hL]
    refine List.Perm.trans ?_ ((addrs_middle_perm u L w).symm.append_left pend)
    simp only [hone, List.map_cons, List.map_nil, List.cons_append, List.nil_append]
    exact List.perm_middle.symm
  · rw [hfreed.orderPool]
  · rw [hfreed.orderPool]
  · intro p
    rw [hfreed.orderPool]

/-- The rings, tables and pool after a new level `N` has been put in its place.
`b₂` is the book with the block of `N` allocated but not linked. -/
theorem levels_place {N : PriceLevel ι} {b₂ : LevelBook ι κ} (h : LevelsRep b S)
    (hd : (N.side == .buy) = d) (hvalid : N.side = sideOf d ∨ S d = [])
    (hnew : ∀ M ∈ S.levels, M.price ≠ N.price) (hprice : N.price < meMaxPriceLevels)
    (hfresh : ∀ M ∈ S.levels, M.addr ≠ N.addr)
    (haddrs : (Shape.placeLevel N (S d)).map (·.addr) =
      placed b₂ N.side N.price N.addr ((S d).map (·.addr)))
    (hpl : Placed b₂ b' N.side N.price N.addr ((S d).map (·.addr)))
    (hother : ∀ m, m ≠ N.addr → b₂.level m = b.level m) (hbest : ∀ e, b₂.best e = b.best e)
    (htable : b₂.priceOrdersAtPrices = b.priceOrdersAtPrices)
    (hholds : b₂.ordersAtPricePool.Holds (N.addr :: S.levels.map (·.addr)))
    (hsize : b₂.ordersAtPricePool.size = meMaxPriceLevels) :
    LevelsRep b' (S.set d (Shape.placeLevel N (S d))) := by
  have hin : ∀ e, ∀ M ∈ S e, M ∈ S.levels := fun e M hM => Shape.mem_levels.mpr ⟨e, hM⟩
  have hperm : (S.set d (Shape.placeLevel N (S d))).levels.Perm (N :: S.levels) :=
    Shape.levels_set_perm.trans
      ((Shape.placeLevel_perm.append_right _).trans ((S.levels_perm d).symm.cons N))
  have hfar : ∀ c ∈ (S (!d)).map (·.addr), c ∉ N.addr :: (S d).map (·.addr) := by
    intro c hc hm
    obtain ⟨M, hM, rfl⟩ := List.mem_map.mp hc
    rcases List.mem_cons.mp hm with he | hm
    · exact hfresh M (hin _ M hM) he
    · have hnd := h.nodup
      rw [((S.levels_perm d).map _).nodup_iff, List.map_append, List.nodup_append] at hnd
      exact hnd.2.2 _ hm _ hc rfl
  constructor
  · refine Shape.forall_side d ?_ ?_
    · rw [Shape.set_same, haddrs, ← hpl.best, hd]
    · rw [Shape.set_not, ← h.best, ← hbest]
      have hb := hpl.otherBest
      rwa [hd] at hb
  · refine Shape.forall_side d ?_ ?_
    · rw [Shape.set_same, haddrs]
      exact hpl.ring
    · rw [Shape.set_not]
      have hne : ∀ c ∈ (S (!d)).map (·.addr), c ≠ N.addr := by
        intro c hc he
        exact hfar c hc (by simp [he])
      apply (h.ring (!d)).frame
      · intro c hc
        rw [hpl.next c (hfar c hc), nextEntry, hother c (hne c hc)]
        rfl
      · intro c hc
        rw [hpl.prev c (hfar c hc), prevEntry, hother c (hne c hc)]
        rfl
  · refine Shape.forall_side d ?_ ?_
    · rw [Shape.set_same]
      exact Shape.placeLevel_sorted (h.sorted d) hvalid fun M hM => hnew M (hin d M hM)
    · rw [Shape.set_not]
      exact h.sorted _
  · refine Shape.forall_side d ?_ ?_
    · rw [Shape.set_same]
      intro M hM
      rcases Shape.mem_placeLevel.mp hM with rfl | hM
      · exact hprice
      · exact h.priceLt d M hM
    · rw [Shape.set_not]
      exact h.priceLt _
  · rw [(hperm.map _).nodup_iff, List.map_cons, List.nodup_cons]
    constructor
    · intro hm
      obtain ⟨M, hM, he⟩ := List.mem_map.mp hm
      exact hfresh M hM he
    · exact h.nodup
  · intro i l
    have hupd : b'.priceOrdersAtPrices =
        Function.update b.priceOrdersAtPrices N.price (some N.addr) := by
      rw [hpl.same.priceTable, ← htable]
      change Function.update _ (N.price % meMaxPriceLevels) _ = _
      rw [Nat.mod_eq_of_lt hprice]
    rw [hupd]
    by_cases hi : i = N.price
    · subst hi
      rw [Function.update_self, Option.some.injEq]
      constructor
      · intro he
        exact ⟨N, hperm.mem_iff.mpr (by simp), he, rfl⟩
      · rintro ⟨M, hM, hMl, hMp⟩
        rcases List.mem_cons.mp (hperm.mem_iff.mp hM) with rfl | hM
        · exact hMl
        · exact (hnew M hM hMp).elim
    · rw [Function.update_of_ne hi, h.priceTable]
      constructor
      · rintro ⟨M, hM, hMl, hMp⟩
        exact ⟨M, hperm.mem_iff.mpr (List.mem_cons_of_mem _ hM), hMl, hMp⟩
      · rintro ⟨M, hM, hMl, hMp⟩
        rcases List.mem_cons.mp (hperm.mem_iff.mp hM) with rfl | hM
        · exact (hi hMp.symm).elim
        · exact ⟨M, hM, hMl, hMp⟩
  · apply (hholds.congr fun i => ?_).of_flags hpl.same.poolSize hpl.same.poolNext hpl.same.poolFree
    rw [(hperm.map _).mem_iff, List.map_cons]
  · exact hpl.same.poolSize.trans hsize

/-- The search for the place of a new level, on the book `b₂` that has its block `l`, and its end. -/
theorem addOrdersAtPrice_new {k : BookKind ι κ} {price : ℕ} {l : Ptr} (b₂ : LevelBook ι κ)
    (h : Shaped b S pend) (hd : (o.side == .buy) = d) (hvalid : o.side = sideOf d ∨ S d = [])
    (hnew : ∀ M ∈ S.levels, M.price ≠ price) (hstart : SearchStarts k o.side price (S d))
    (hfresh : ∀ M ∈ S.levels, M.addr ≠ l)
    (hlevel : b₂.level l = ⟨o.side, price, some o.addr, none, none⟩)
    (hother : ∀ m, m ≠ l → b₂.level m = b.level m) (hbest : ∀ e, b₂.best e = b.best e)
    (hsize : b₂.ordersAtPricePool.size = b.ordersAtPricePool.size) :
    (∃ b', addOrdersAtPrice k b₂ l = .ok b' ∧
      Placed b₂ b' o.side price l ((S d).map (·.addr))) ∧
    ∀ M ∈ S d, (b₂.level M.addr).price = M.price := by
  have hin : ∀ M ∈ S d, M ∈ S.levels := fun M hM => Shape.mem_levels.mpr ⟨d, hM⟩
  have hpriceM : ∀ M ∈ S d, (b₂.level M.addr).price = M.price := by
    intro M hM
    rw [hother _ (hfresh M (hin M hM))]
    exact congrArg (fun x => x.2.1) (h.level d M hM).data
  refine ⟨?_, hpriceM⟩
  have hring : Ring b₂.nextEntry b₂.prevEntry ((S d).map (·.addr)) := by
    apply (h.levels.ring d).frame
    · intro c hc
      obtain ⟨M, hM, rfl⟩ := List.mem_map.mp hc
      simp only [nextEntry, hother _ (hfresh M (hin M hM))]
    · intro c hc
      obtain ⟨M, hM, rfl⟩ := List.mem_map.mp hc
      simp only [prevEntry, hother _ (hfresh M (hin M hM))]
  have hlen : ((S d).map (·.addr)).length ≤ b₂.ordersAtPricePool.size := by
    have hle := h.levels.pool.length_le h.levels.nodup
    have hsub : ((S d).map (·.addr)).length ≤ (S.levels.map (·.addr)).length := by
      simp only [List.length_map, (S.levels_perm d).length_eq, List.length_append]
      omega
    rw [hsize]
    omega
  have hside : o.side = .buy ∨ o.side = .sell ∨ (S d).map (·.addr) = [] := by
    rcases hvalid with hv | hv
    · rw [hv]
      cases d
      · exact .inr (.inl rfl)
      · exact .inl rfl
    · exact .inr (.inr (by simp [hv]))
  have hhead : b₂.best (o.side == .buy) = ((S d).map (·.addr)).head? := by
    rw [hd, hbest]
    exact h.levels.best d
  have hnotin : l ∉ (S d).map (·.addr) := by
    intro hm
    obtain ⟨M, hM, he⟩ := List.mem_map.mp hm
    exact hfresh M (hin M hM) he
  have hdistinct : ∀ m ∈ (S d).map (·.addr), (b₂.level m).price ≠ price := by
    intro m hm
    obtain ⟨M, hM, rfl⟩ := List.mem_map.mp hm
    rw [hpriceM M hM]
    exact hnew M (hin M hM)
  have hsearch : ∀ m w, (S d).map (·.addr) = m :: w →
      k.startsAfter o.side price (b₂.level m).price =
        behind o.side price (b₂.level m).price ∨
      w = [] ∧ k.startsAfter o.side price (b₂.level m).price = true := by
    intro m w hmw
    obtain ⟨M, ls, hS, rfl, hw⟩ := List.map_eq_cons_iff.mp hmw
    rw [hpriceM M (by simp [hS])]
    rcases hstart M ls hS with hs | ⟨rfl, hs⟩
    · exact .inl hs
    · exact .inr ⟨by simpa using hw.symm, hs⟩
  exact addOrdersAtPrice_spec (by rw [hlevel]) (by rw [hlevel]) hhead hring hnotin hlen hside
    hdistinct hsearch

theorem openLevel_spec {k : BookKind ι κ} {price : ℕ} (h : Shaped b S (o.addr :: pend))
    (hnew : ∀ M ∈ S.levels, M.price ≠ price) (hprice : price < meMaxPriceLevels)
    (ho : b.orderData o.addr = (o.ident, o.side, price, o.qty, o.priority))
    (hd : (o.side == .buy) = d) (hvalid : o.side = sideOf d ∨ S d = [])
    (hstart : SearchStarts k o.side price (S d)) :
    (∃ b' l, openLevel k b o.addr = .ok b' ∧
      Shaped b' (S.set d (Shape.placeLevel ⟨l, o.side, price, [o]⟩ (S d))) pend ∧
      b'.idToOrder = b.idToOrder ∧ ∀ q, b'.orderData q = b.orderData q) ∨
    (openLevel k b o.addr = .error MemPool.outOfSpace ∧
      meMaxPriceLevels ≤ S.levels.length + 1) := by
  have hcall := openLevel_eq (k := k) ho
  rcases h.levels.pool.allocate_spec ⟨o.side, price, some o.addr, none, none⟩ with
    ⟨l, q, hq, hl, hholds, hsize, hget, hkeep⟩ | ⟨herr, hfull⟩
  · left
    have hedit := aloneOnLevel_edit b o.addr
    have hne : ∀ M ∈ S.levels, M.addr ≠ l := fun M hM he => hl (he ▸ List.mem_map_of_mem hM)
    obtain ⟨⟨b', hok, hpl⟩, hpriceM⟩ := addOrdersAtPrice_new (k := k)
      { b.aloneOnLevel o.addr with ordersAtPricePool := q } h hd hvalid hnew hstart hne hget hkeep
      (fun _ => rfl) hsize
    have hopened : LevelOpened b b' l o price := levelOpened ho hq hok
    have horders : b'.orderPool = (b.aloneOnLevel o.addr).orderPool := hpl.same.orderPool
    have hdata : ∀ p, b'.orderData p = b.orderData p := by
      intro p
      rw [← hedit.orderData]
      simp only [orderData, LevelBook.order, horders]
    have hframe : ∀ e, ∀ M ∈ S e, LevelRep b' e M := by
      intro e M hM
      apply (h.level e M hM).frame
      · exact hopened.data _ (hne M (Shape.mem_levels.mpr ⟨e, hM⟩))
      · intro x hx
        apply hopened.frame
        intro he
        have hnd := h.nodup
        rw [List.cons_append, List.nodup_cons] at hnd
        apply hnd.1
        rw [← he]
        exact List.mem_append_right _
          (List.mem_map_of_mem (Shape.mem_orders.mpr ⟨e, M, hM, hx⟩))
    refine ⟨b', l, ?_, ?_, hpl.same.idToOrder, hdata⟩
    · rw [hcall, hq]
      exact hok
    · apply h.update
      · exact levels_place h.levels hd hvalid hnew hprice hne (Shape.placeLevel_addr hpriceM) hpl
          hkeep (fun _ => rfl) rfl hholds (hsize.trans h.levels.poolSize)
      · intro M hM
        rcases Shape.mem_placeLevel.mp hM with rfl | hM
        · exact hd ▸ hopened.rep
        · exact hframe d M hM
      · exact hframe _
      · have hperm : (((Shape.placeLevel ⟨l, o.side, price, [o]⟩ (S d)).flatMap
            (·.orders)).map (·.addr)).Perm
            (((⟨l, o.side, price, [o]⟩ :: S d).flatMap (·.orders)).map (·.addr)) :=
          (Shape.placeLevel_perm.flatMap_right _).map _
        refine (hperm.append_left pend).trans ?_
        rw [List.cons_append]
        exact List.perm_middle
      · rw [horders, hedit.orderSize]
      · rw [horders, hedit.orderNext]
      · exact hopened.orderFree
  · right
    constructor
    · rw [hcall, herr]
      rfl
    · rw [List.length_map, h.levels.poolSize] at hfull
      exact hfull

end Levels

end HighPerformance.LevelBook
