import HighPerformance.PriceLevelUpdates

/-!
# Adding and removing orders

`addOrder`, `removeOrder` and the assignment of a new quantity on shapes: the
edits of levels together with the table of live orders and the pools.
-/

namespace HighPerformance.LevelBook
open CircularList

variable {ι κ : Type}

/-- What adding `o` at `price` to side `d` relies on. -/
structure Joinable (k : BookKind ι κ) (b : LevelBook ι κ) (S : Shape ι) (d : Bool)
    (o : Resting ι) (price : ℕ) : Prop where
  price_lt : price < meMaxPriceLevels
  data : b.orderData o.addr = (o.ident, o.side, price, o.qty, o.priority)
  dir : (o.side == .buy) = d
  valid : o.side = sideOf d ∨ S d = []
  same : ∀ M ∈ S d, M.price = price → o.side = M.side
  other : ∀ M ∈ S (!d), M.price ≠ price
  starts : (∀ M ∈ S d, M.price ≠ price) → SearchStarts k o.side price (S d)

/-- `o` stands last among the orders of side `d` at `price`. -/
structure OrderAdded (S S' : Shape ι) (d : Bool) (price : ℕ) (o : Resting ι) : Prop where
  perm : S'.orders.Perm (o :: S.orders)
  contents : ∀ e q, S'.contents e q = S.contents e q ++ if e = d ∧ q = price then [o] else []
  other : S' (!d) = S (!d)

/-- `o` is gone and `rest` remains of its level, which stood between `u` and `w`. -/
structure OrderGone (S S' : Shape ι) (d : Bool) (u : List (PriceLevel ι)) (L : PriceLevel ι)
    (w : List (PriceLevel ι)) (o : Resting ι) (rest : List (Resting ι)) : Prop where
  perm : S.orders.Perm (o :: S'.orders)
  contents : ∀ e q, S'.contents e q = if e = d ∧ q = L.price then rest else S.contents e q
  side : S' d = u ++ Shape.refill L rest ++ w
  other : S' (!d) = S (!d)

section Book
variable {k : BookKind ι κ} {b : LevelBook ι κ} {S : Shape ι} {pend : List Ptr} {d : Bool}
  {L : PriceLevel ι} {u w : List (PriceLevel ι)} {o : Resting ι} {price : ℕ}

theorem getOrdersAtPrice_eq_some {l : Ptr} (h : LevelsRep b S) (hp : price < meMaxPriceLevels) :
    b.getOrdersAtPrice price = some l ↔ ∃ M ∈ S.levels, M.addr = l ∧ M.price = price := by
  rw [getOrdersAtPrice, priceToIndex, Nat.mod_eq_of_lt hp, h.priceTable]

theorem joinLevel_spec (h : Shaped b S (o.addr :: pend)) (hj : Joinable k b S d o price) :
    (∃ b' S', joinLevel k b o.addr = .ok b' ∧ Shaped b' S' pend ∧
      b'.idToOrder = b.idToOrder ∧ (∀ q, b'.orderData q = b.orderData q) ∧
      OrderAdded S S' d price o) ∨
    (joinLevel k b o.addr = .error MemPool.outOfSpace ∧
      (∀ M ∈ S.levels, M.price ≠ price) ∧ meMaxPriceLevels ≤ S.levels.length + 1) := by
  have hlookup := fun l => getOrdersAtPrice_eq_some (l := l) h.levels hj.price_lt
  have hprice : (b.order o.addr).price = price := congrArg (fun x => x.2.2.1) hj.data
  unfold joinLevel
  rw [hprice]
  cases hget : b.getOrdersAtPrice price with
  | none =>
    have hnew : ∀ M ∈ S.levels, M.price ≠ price := by
      intro M hM he
      have := (hlookup M.addr).mpr ⟨M, hM, rfl, he⟩
      simp [hget] at this
    have hnewd : ∀ M ∈ S d, M.price ≠ price :=
      fun M hM => hnew M (Shape.mem_levels.mpr ⟨d, hM⟩)
    rcases openLevel_spec h hnew hj.price_lt hj.data hj.dir hj.valid (hj.starts hnewd) with
      ⟨b', l, hok, hS', hids, hdata⟩ | hfull
    · left
      refine ⟨b', _, hok, hS', hids, hdata, ?_⟩
      constructor
      · have hl : (S.set d (Shape.placeLevel ⟨l, o.side, price, [o]⟩ (S d))).levels.Perm
            (⟨l, o.side, price, [o]⟩ :: S.levels) :=
          Shape.levels_set_perm.trans
            ((Shape.placeLevel_perm.append_right _).trans ((S.levels_perm d).symm.cons _))
        exact hl.flatMap_right _
      · intro e q
        rw [Shape.contents_set]
        by_cases he : e = d
        · subst he
          rw [if_pos rfl, Shape.ordersAt_placeLevel hnewd]
          by_cases hq : q = price
          · subst hq
            have hnil : S.contents e q = [] := Shape.ordersAt_eq_nil hnewd
            simp [hnil]
          · simp [hq, Shape.contents]
        · simp [he]
      · exact Shape.set_not
    · exact .inr ⟨hfull.1, hnew, hfull.2⟩
  | some l =>
    obtain ⟨L, hLm, rfl, rfl⟩ := (hlookup l).mp hget
    have hLd : L ∈ S d := by
      obtain ⟨e, he⟩ := Shape.mem_levels.mp hLm
      by_cases hed : e = d
      · rwa [← hed]
      · have hn : e = !d := by cases e <;> cases d <;> simp_all
        subst hn
        exact (hj.other L he rfl).elim
    obtain ⟨u, w, hL⟩ := List.append_of_mem hLd
    obtain ⟨b', hok, hS', hids, hdata⟩ := appendOrder_spec h hL (hj.same L hLd rfl) hj.data
    have hne := Shape.ne_price_of_split (hL ▸ h.levels.sorted d)
    left
    refine ⟨b', _, hok, hS', hids, hdata, ?_⟩
    constructor
    · refine (orders_split (S := S.set d (u ++ { L with orders := L.orders ++ [o] } :: w))
        Shape.set_same).trans ?_
      rw [Shape.set_not]
      refine List.Perm.trans ?_ ((orders_split hL).symm.cons o)
      rw [List.append_assoc, List.singleton_append]
      exact List.perm_middle
    · intro e q
      rw [Shape.contents_set]
      by_cases he : e = d
      · subst he
        rw [if_pos rfl, Shape.contents, hL, Shape.ordersAt_middle hne,
          Shape.ordersAt_middle (L := { L with orders := L.orders ++ [o] }) hne]
        by_cases hq : q = L.price
        · simp [hq]
        · simp [hq]
      · simp [he]
    · exact Shape.set_not

theorem addOrder_spec [DecidableEq κ] (h : Shaped b S (o.addr :: pend)) (hidx : Indexed k b S)
    (hj : Joinable k b S d o price) (hkey : k.checkKey (k.key o.ident) = .ok ())
    (hnew : ∀ x ∈ S.orders, k.key x.ident ≠ k.key o.ident) :
    (∃ b' S', addOrder k b o.addr = .ok b' ∧ Shaped b' S' pend ∧ Indexed k b' S' ∧
      OrderAdded S S' d price o) ∨
    (addOrder k b o.addr = .error MemPool.outOfSpace ∧
      (∀ M ∈ S.levels, M.price ≠ price) ∧ meMaxPriceLevels ≤ S.levels.length + 1) := by
  rcases joinLevel_spec h hj with ⟨b₁, S', hok, hS', hids, hdata, hadd⟩ | ⟨herr, hfull⟩
  · left
    have hident : (b₁.order o.addr).ident = o.ident := congrArg Prod.fst ((hdata o.addr).trans hj.data)
    have hperm := hadd.perm
    refine ⟨{ b₁ with idToOrder := Function.update b₁.idToOrder (k.key o.ident) (some o.addr) }, S',
      ?_, ?_, ?_, hadd⟩
    · simp only [addOrder, hok, bind, Except.bind, hident, hkey]
      rfl
    · exact hS'.setIds _
    · intro id p
      change Function.update b₁.idToOrder (k.key o.ident) (some o.addr) id = some p ↔ _
      rw [hids]
      by_cases hid : id = k.key o.ident
      · subst hid
        rw [Function.update_self, Option.some.injEq]
        constructor
        · intro he
          exact ⟨o, hperm.mem_iff.mpr (by simp), he, rfl⟩
        · rintro ⟨x, hx, hxp, hxk⟩
          rcases List.mem_cons.mp (hperm.mem_iff.mp hx) with rfl | hx
          · exact hxp
          · exact (hnew x hx hxk).elim
      · rw [Function.update_of_ne hid, hidx]
        constructor
        · rintro ⟨x, hx, hxp, hxk⟩
          exact ⟨x, hperm.mem_iff.mpr (List.mem_cons_of_mem _ hx), hxp, hxk⟩
        · rintro ⟨x, hx, hxp, hxk⟩
          rcases List.mem_cons.mp (hperm.mem_iff.mp hx) with rfl | hx
          · exact (hid hxk.symm).elim
          · exact ⟨x, hx, hxp, hxk⟩
  · right
    refine ⟨?_, hfull⟩
    simp only [addOrder, herr, bind, Except.bind]

/-- An identification that the table cannot hold is found out at the end. -/
theorem addOrder_outOfRange [DecidableEq κ] {f : Fault} (h : Shaped b S (o.addr :: pend))
    (hj : Joinable k b S d o price) (hkey : k.checkKey (k.key o.ident) = .error f) :
    addOrder k b o.addr = .error f ∨
    (addOrder k b o.addr = .error MemPool.outOfSpace ∧ meMaxPriceLevels ≤ S.levels.length + 1) := by
  rcases joinLevel_spec h hj with ⟨b₁, S', hok, -, -, hdata, -⟩ | ⟨herr, -, hfull⟩
  · left
    have hident : (b₁.order o.addr).ident = o.ident :=
      congrArg Prod.fst ((hdata o.addr).trans hj.data)
    simp only [addOrder, hok, bind, Except.bind, hident, hkey]
  · right
    refine ⟨?_, hfull⟩
    simp only [addOrder, herr, bind, Except.bind]

theorem leaveLevel_spec {x y : List (Resting ι)} (h : Shaped b S pend) (hL : S d = u ++ L :: w)
    (hxy : L.orders = x ++ o :: y) :
    ∃ b' S', leaveLevel b o.addr = .ok b' ∧ Shaped b' S' (o.addr :: pend) ∧
      b'.idToOrder = b.idToOrder ∧ (∀ q, b'.orderData q = b.orderData q) ∧
      OrderGone S S' d u L w o (x ++ y) := by
  have hLm : L ∈ S d := by simp [hL]
  have hrep := h.level d L hLm
  obtain ⟨hside, hdata⟩ := hrep.orders o (by simp [hxy])
  simp only [orderData, Prod.mk.injEq] at hdata
  have hlookup : b.getOrdersAtPrice L.price = some L.addr :=
    (getOrdersAtPrice_eq_some h.levels (h.levels.priceLt d L hLm)).mpr
      ⟨L, Shape.mem_levels.mpr ⟨d, hLm⟩, rfl, rfl⟩
  have hne := Shape.ne_price_of_split (hL ▸ h.levels.sorted d)
  by_cases hxy0 : x ++ y = []
  · have hprev := (hrep.alone_iff hxy).mpr hxy0
    obtain ⟨rfl, rfl⟩ := List.append_eq_nil_iff.mp hxy0
    obtain ⟨b', hok, hS', hids, hdata'⟩ := removeOrdersAtPrice_spec h hL hxy
    refine ⟨b', _, ?_, hS', hids, hdata', ?_, ?_, ?_, Shape.set_not⟩
    · simp only [leaveLevel, hprev, if_true, hdata, hside, hok]
    · refine (orders_split hL).trans ?_
      rw [hxy, List.nil_append, List.singleton_append]
      exact (Shape.levels_set_perm.flatMap_right _).symm.cons o
    · intro e q
      rw [Shape.contents_set]
      by_cases he : e = d
      · subst he
        rw [if_pos rfl, Shape.contents, hL, Shape.ordersAt_middle hne]
        by_cases hq : q = L.price
        · subst hq
          rw [Shape.ordersAt_eq_nil hne]
          simp
        · simp [hq]
      · simp [he]
    · simp [Shape.refill]
  · have hprev := mt (hrep.alone_iff hxy).mp hxy0
    obtain ⟨b', hok, hS', hids, hdata'⟩ := unlinkOrder_spec h hL hxy hxy0
    refine ⟨b', _, ?_, hS', hids, hdata', ?_, ?_, ?_, Shape.set_not⟩
    · simp only [leaveLevel, hprev, if_false, hdata, hlookup, hok]
    · have hmid : ∀ r, (L.orders ++ r).Perm (o :: (x ++ y ++ r)) := by
        intro r
        rw [hxy, List.append_assoc, List.cons_append, List.append_assoc]
        exact List.perm_middle
      have hrest := orders_split (S := S.set d (u ++ { L with orders := x ++ y } :: w))
        Shape.set_same
      rw [Shape.set_not] at hrest
      exact (orders_split hL).trans ((hmid _).trans (hrest.symm.cons o))
    · intro e q
      rw [Shape.contents_set]
      by_cases he : e = d
      · subst he
        rw [if_pos rfl, Shape.contents, hL, Shape.ordersAt_middle hne,
          Shape.ordersAt_middle (L := { L with orders := x ++ y }) hne]
        by_cases hq : q = L.price
        · simp [hq]
        · simp [hq]
      · simp [he]
    · simp [Shape.refill, hxy0]

theorem removeOrder_spec [DecidableEq κ] {x y : List (Resting ι)} (h : Shaped b S pend)
    (hidx : Indexed k b S) (hL : S d = u ++ L :: w) (hxy : L.orders = x ++ o :: y)
    (hkey : k.checkKey (k.key o.ident) = .ok ()) :
    ∃ b' S', removeOrder k b o.addr = .ok b' ∧ Shaped b' S' pend ∧ Indexed k b' S' ∧
      OrderGone S S' d u L w o (x ++ y) := by
  have hLm : L ∈ S d := by simp [hL]
  have hdata := ((h.level d L hLm).orders o (by simp [hxy])).2
  obtain ⟨b₁, S', hok, hS', hids, hdata', hgone⟩ := leaveLevel_spec h hL hxy
  have hperm := hgone.perm
  have hident : (b₁.order o.addr).ident = o.ident := congrArg Prod.fst ((hdata' o.addr).trans hdata)
  have hnd := hS'.nodup
  rw [List.cons_append, List.nodup_cons] at hnd
  have hlive : ∀ j, j ∈ pend ++ S'.orders.map (·.addr) ↔
      j ∈ o.addr :: pend ++ S'.orders.map (·.addr) ∧ j ≠ o.addr := by
    intro j
    rw [List.cons_append, List.mem_cons]
    constructor
    · intro hj
      exact ⟨.inr hj, fun he => hnd.1 (he ▸ hj)⟩
    · rintro ⟨hj | hj, hjo⟩
      · exact (hjo hj).elim
      · exact hj
  obtain ⟨q, hq, hholds, hsize, hget⟩ := hS'.pool.deallocate_spec (by simp) hlive
  refine ⟨{ b₁ with
      idToOrder := Function.update b₁.idToOrder (k.key o.ident) none, orderPool := q }, S',
    ?_, ?_, ?_, hgone⟩
  · simp only [removeOrder, hok, bind, Except.bind, hident, hkey, hq]
    rfl
  · exact (hS'.setIds _).setPool hnd.2 hholds hsize fun p _ => hget p
  · intro id p
    change Function.update b₁.idToOrder (k.key o.ident) none id = some p ↔ _
    rw [hids]
    by_cases hid : id = k.key o.ident
    · subst hid
      rw [Function.update_self]
      simp only [reduceCtorEq, false_iff]
      rintro ⟨z, hz, -, hzk⟩
      have ho : o ∈ S.orders := hperm.mem_iff.mpr (by simp)
      have hz' : z ∈ S.orders := hperm.mem_iff.mpr (List.mem_cons_of_mem _ hz)
      have h₁ := (hidx (k.key o.ident) z.addr).mpr ⟨z, hz', rfl, hzk⟩
      have h₂ := (hidx (k.key o.ident) o.addr).mpr ⟨o, ho, rfl, rfl⟩
      rw [h₁, Option.some.injEq] at h₂
      apply hnd.1
      rw [← h₂]
      exact List.mem_append_right _ (List.mem_map_of_mem hz)
    · rw [Function.update_of_ne hid, hidx]
      constructor
      · rintro ⟨z, hz, hzp, hzk⟩
        rcases List.mem_cons.mp (hperm.mem_iff.mp hz) with rfl | hz
        · exact (hid hzk.symm).elim
        · exact ⟨z, hz, hzp, hzk⟩
      · rintro ⟨z, hz, hzp, hzk⟩
        exact ⟨z, hperm.mem_iff.mpr (List.mem_cons_of_mem _ hz), hzp, hzk⟩

theorem contents_gone {S' : Shape ι} {x y : List (Resting ι)} (h : Shaped b S pend)
    (hL : S d = u ++ L :: w) (hxy : L.orders = x ++ o :: y)
    (hgone : OrderGone S S' d u L w o (x ++ y)) (e : Bool) (q : ℕ) :
    S'.contents e q = (S.contents e q).filter fun z => z.addr ≠ o.addr := by
  have hLm : L ∈ S d := by simp [hL]
  have hinj : ∀ z ∈ S.orders, z.addr = o.addr → z = o := fun z hz he =>
    h.orders_addr_inj hz (Shape.mem_orders.mpr ⟨d, L, hLm, by simp [hxy]⟩) he
  have hcont := h.levels.contents_eq hLm
  rw [hgone.contents]
  split
  · next hq =>
    obtain ⟨rfl, rfl⟩ := hq
    have hnd := (h.level e L hLm).ring.nodup
    rw [hxy, List.map_append, List.map_cons, List.perm_middle.nodup_iff, List.nodup_cons,
      ← List.map_append] at hnd
    have hne : ∀ z ∈ x ++ y, z.addr ≠ o.addr := by
      intro z hz he
      exact hnd.1 (he ▸ List.mem_map_of_mem hz)
    have hx : x.filter (fun z => z.addr ≠ o.addr) = x :=
      List.filter_eq_self.mpr fun z hz => by simpa using hne z (List.mem_append_left _ hz)
    have hy : y.filter (fun z => z.addr ≠ o.addr) = y :=
      List.filter_eq_self.mpr fun z hz => by simpa using hne z (List.mem_append_right _ hz)
    rw [hcont, hxy, List.filter_append, List.filter_cons_of_neg (by simp), hx, hy]
  · next hq =>
    symm
    rw [List.filter_eq_self]
    intro z hz
    simp only [ne_eq, decide_eq_true_eq]
    intro he
    have hzo := hinj z (Shape.mem_orders_iff_contents.mpr ⟨e, q, hz⟩) he
    obtain ⟨M, hM, hMq, hzM⟩ := Shape.mem_contents.mp hz
    obtain ⟨rfl, rfl⟩ := level_unique h hL hM (show o ∈ L.orders by simp [hxy]) (hzo ▸ hzM)
    exact hq ⟨rfl, hMq.symm⟩

/-- The quantity of `o` becomes `qty`, and nothing else changes. -/
structure QtySet (S S' : Shape ι) (d : Bool) (u : List (PriceLevel ι)) (L : PriceLevel ι)
    (w : List (PriceLevel ι)) (x : List (Resting ι)) (o : Resting ι) (y : List (Resting ι))
    (qty : ℕ) : Prop where
  perm : ∃ rest, S.orders.Perm (o :: rest) ∧ S'.orders.Perm ({ o with qty := qty } :: rest)
  contents : ∀ e q, S'.contents e q =
    if e = d ∧ q = L.price then x ++ { o with qty := qty } :: y else S.contents e q
  side : S' d = u ++ { L with orders := x ++ { o with qty := qty } :: y } :: w
  other : S' (!d) = S (!d)

theorem order_setQty (b : LevelBook ι κ) (p q : Ptr) (qty : ℕ) : (b.setQty p qty).order q =
    if q = p then { b.order q with qty := qty } else b.order q := order_modifyOrder _ _ _ _

@[simp] theorem nextOrder_setQty (b : LevelBook ι κ) (p q : Ptr) (qty : ℕ) :
    (b.setQty p qty).nextOrder q = b.nextOrder q := by
  simp only [nextOrder, order_setQty]
  split <;> rfl

@[simp] theorem prevOrder_setQty (b : LevelBook ι κ) (p q : Ptr) (qty : ℕ) :
    (b.setQty p qty).prevOrder q = b.prevOrder q := by
  simp only [prevOrder, order_setQty]
  split <;> rfl

theorem sameOrder_setQty {p q : Ptr} (hq : q ≠ p) (qty : ℕ) :
    SameOrder b (b.setQty p qty) q where
  next := nextOrder_setQty b p q qty
  prev := prevOrder_setQty b p q qty
  data := by simp only [orderData, order_setQty, hq, if_false]

theorem levelRep_setQty {x y : List (Resting ι)} (h : LevelRep b d L) (hxy : L.orders = x ++ o :: y)
    (qty : ℕ) :
    LevelRep (b.setQty o.addr qty) d { L with orders := x ++ { o with qty := qty } :: y } := by
  have haddrs : (x ++ { o with qty := qty } :: y).map (·.addr) = L.orders.map (·.addr) := by
    simp [hxy]
  constructor
  · change _ = (L.side, L.price, ((x ++ { o with qty := qty } :: y).map (·.addr)).head?)
    rw [haddrs]
    exact h.data
  · exact h.side
  · simp
  · change Ring _ _ ((x ++ { o with qty := qty } :: y).map (·.addr))
    rw [haddrs]
    apply h.ring.frame
    · exact fun c _ => nextOrder_setQty b o.addr c qty
    · exact fun c _ => prevOrder_setQty b o.addr c qty
  · intro z hz
    have hmem : ∀ r, r ∈ x ++ y → r ∈ L.orders ∧ r.addr ≠ o.addr := by
      intro r hr
      have hnd := h.ring.nodup
      rw [hxy, List.map_append, List.map_cons, List.perm_middle.nodup_iff,
        List.nodup_cons, ← List.map_append] at hnd
      constructor
      · rw [hxy]
        exact ((List.sublist_cons_self o y).append_left x).subset hr
      · intro he
        exact hnd.1 (he ▸ List.mem_map_of_mem hr)
    rcases List.mem_cons.mp (List.perm_middle.mem_iff.mp hz) with rfl | hz
    · obtain ⟨hs, hd⟩ := h.orders o (by simp [hxy])
      simp only [orderData, Prod.mk.injEq] at hd
      refine ⟨hs, ?_⟩
      simp only [orderData, order_setQty, if_true, hd]
    · obtain ⟨hzL, hne⟩ := hmem z hz
      rw [(sameOrder_setQty hne qty).data]
      exact h.orders z hzL

/-- The table of live orders only looks at blocks and identifications. -/
theorem indexed_of_perm {b' : LevelBook ι κ} {S' : Shape ι} {o' : Resting ι}
    {rest : List (Resting ι)} (hidx : Indexed k b S) (htable : b'.idToOrder = b.idToOrder)
    (h : S.orders.Perm (o :: rest)) (h' : S'.orders.Perm (o' :: rest)) (haddr : o'.addr = o.addr)
    (hident : o'.ident = o.ident) : Indexed k b' S' := by
  intro id p
  rw [htable, hidx]
  simp only [h.mem_iff, h'.mem_iff, List.mem_cons, exists_eq_or_imp, haddr, hident]

theorem setQty_spec {x y : List (Resting ι)} (h : Shaped b S pend) (hidx : Indexed k b S)
    (hL : S d = u ++ L :: w) (hxy : L.orders = x ++ o :: y) (qty : ℕ) :
    ∃ S', Shaped (b.setQty o.addr qty) S' pend ∧ Indexed k (b.setQty o.addr qty) S' ∧
      QtySet S S' d u L w x o y qty := by
  have hLm : L ∈ S d := by simp [hL]
  have hne := Shape.ne_price_of_split (hL ▸ h.levels.sorted d)
  set L' : PriceLevel ι := { L with orders := x ++ { o with qty := qty } :: y } with hL'
  have hrep' : LevelRep (b.setQty o.addr qty) d L' := levelRep_setQty (h.level d L hLm) hxy qty
  have haddrs : L'.orders.map (·.addr) = L.orders.map (·.addr) := by
    simp [hL', hxy]
  have hsplit := orders_split hL
  have hsplit' := orders_split (S := S.set d (u ++ L' :: w)) Shape.set_same
  rw [Shape.set_not] at hsplit'
  have hmid : ∀ z r, ((x ++ z :: y) ++ r).Perm (z :: (x ++ y ++ r)) := by
    intro z r
    rw [List.append_assoc, List.cons_append, List.append_assoc]
    exact List.perm_middle
  have hperm : ∃ rest, S.orders.Perm (o :: rest) ∧
      (S.set d (u ++ L' :: w)).orders.Perm ({ o with qty := qty } :: rest) := by
    rw [hxy] at hsplit
    exact ⟨_, hsplit.trans (hmid _ _), hsplit'.trans (hmid _ _)⟩
  refine ⟨S.set d (u ++ L' :: w), ?_, ?_, hperm, ?_, Shape.set_same, Shape.set_not⟩
  · apply relevel h hL
    · rfl
    · rfl
    · exact ⟨fun _ => rfl, fun _ => rfl, fun _ => rfl, rfl, rfl, rfl, fun _ => rfl⟩
    · intro m _
      rfl
    · exact hrep'
    · intro q hq
      apply sameOrder_setQty
      intro he
      apply hq
      rw [he]
      exact List.mem_append_right _ (List.mem_map_of_mem (by simp [hxy]))
    · rw [haddrs]
    · rfl
    · rfl
    · intro q
      simp [setQty, modifyOrder]
  · obtain ⟨rest, h₁, h₂⟩ := hperm
    exact indexed_of_perm hidx rfl h₁ h₂ rfl rfl
  · intro e q
    rw [Shape.contents_set]
    by_cases he : e = d
    · subst he
      rw [if_pos rfl, Shape.contents, hL, Shape.ordersAt_middle hne,
        Shape.ordersAt_middle (L := L') hne]
      by_cases hq : q = L.price
      · simp [hq, hL']
      · simp [hq, hL']
    · simp [he]

/-- A new quantity as a map on every list of orders. -/
theorem contents_set {S' : Shape ι} {x y : List (Resting ι)} {qty : ℕ} (h : Shaped b S pend)
    (hL : S d = u ++ L :: w) (hxy : L.orders = x ++ o :: y)
    (hset : QtySet S S' d u L w x o y qty) (e : Bool) (q : ℕ) :
    S'.contents e q =
      (S.contents e q).map fun z => if z.addr = o.addr then { z with qty := qty } else z := by
  have hLm : L ∈ S d := by simp [hL]
  have hinj : ∀ z ∈ S.orders, z.addr = o.addr → z = o := fun z hz he =>
    h.orders_addr_inj hz (Shape.mem_orders.mpr ⟨d, L, hLm, by simp [hxy]⟩) he
  rw [hset.contents]
  split
  · next hq =>
    obtain ⟨rfl, rfl⟩ := hq
    have hnd := (h.level e L hLm).ring.nodup
    rw [hxy, List.map_append, List.map_cons, List.perm_middle.nodup_iff, List.nodup_cons,
      ← List.map_append] at hnd
    have hne : ∀ z ∈ x ++ y, z.addr ≠ o.addr := by
      intro z hz he
      exact hnd.1 (he ▸ List.mem_map_of_mem hz)
    have hkeep : ∀ zs : List (Resting ι), (∀ z ∈ zs, z ∈ x ++ y) →
        zs.map (fun z => if z.addr = o.addr then { z with qty := qty } else z) = zs := by
      intro zs hzs
      exact (List.map_congr_left fun z hz => if_neg (hne z (hzs z hz))).trans (List.map_id zs)
    rw [h.levels.contents_eq hLm, hxy, List.map_append, List.map_cons, if_pos rfl,
      hkeep x fun z hz => List.mem_append_left _ hz, hkeep y fun z hz => List.mem_append_right _ hz]
  · next hq =>
    symm
    refine (List.map_congr_left fun z hz => if_neg ?_).trans (List.map_id _)
    intro he
    have hzo := hinj z (Shape.mem_orders_iff_contents.mpr ⟨e, q, hz⟩) he
    obtain ⟨M, hM, hMq, hzM⟩ := Shape.mem_contents.mp hz
    obtain ⟨rfl, rfl⟩ := level_unique h hL hM (show o ∈ L.orders by simp [hxy]) (hzo ▸ hzM)
    exact hq ⟨rfl, hMq.symm⟩

end Book

end HighPerformance.LevelBook
