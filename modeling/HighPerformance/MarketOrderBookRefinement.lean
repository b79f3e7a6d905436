import HighPerformance.FallibleRun
import HighPerformance.MarketOrderBookChecks
import HighPerformance.PriceLevelOrders
import Mathlib.Data.List.Dedup
import Mathlib.Data.List.Sort

/-!
# The client's book refines a list of orders

The reference is the list of live orders in order of arrival. Its levels are its
prices, sorted, each with the orders at that price in the order of the list.
`Tracks` relates a book to a list through the shape that the book stores, and
one update of the book is shown to be one update of the list.

The sanity check in the log line of `onMarketUpdate` starts from the least price
and refuses an ask level that is not above it, so an ask at price zero ends the
process although the book is in order.
-/

namespace HighPerformance

structure LiveOrder where
  orderId : ℕ
  side : Side
  price : ℕ
  qty : ℕ
  priority : ℕ
  deriving DecidableEq, Repr

/-- At least as close to the front of side `d`. -/
def notWorse (d : Bool) (p q : ℕ) : Prop := if d then q ≤ p else p ≤ q

instance (d : Bool) : DecidableRel (notWorse d) := fun p q => by
  unfold notWorse
  exact inferInstance

instance (d : Bool) : IsTrans ℕ (notWorse d) where
  trans p q r h h' := by
    cases d <;> simp [notWorse] at * <;> omega

instance (d : Bool) : Std.Total (notWorse d) where
  total p q := by
    cases d <;> simp [notWorse] <;> omega

namespace LiveOrder
open FallibleRun

/-- What an update means for the list of live orders. -/
def apply (live : List LiveOrder) (u : MEMarketUpdate) : List LiveOrder :=
  match u.type with
  | .add => live ++ [⟨u.orderId, u.side, u.price, u.qty, u.priority⟩]
  | .modify => live.map fun o => if o.orderId = u.orderId then { o with qty := u.qty } else o
  | .cancel => live.filter fun o => o.orderId ≠ u.orderId
  | .clear => []
  | _ => live

def ordersOf (live : List LiveOrder) (d : Bool) (price : ℕ) : List LiveOrder :=
  live.filter fun o => o.side = sideOf d ∧ o.price = price

/-- The prices of a side, best first. -/
def pricesOf (live : List LiveOrder) (d : Bool) : List ℕ :=
  (((live.filter fun o => o.side = sideOf d).map (·.price)).dedup).insertionSort (notWorse d)

/-- The live orders of a side grouped by price. -/
def levelsOf (live : List LiveOrder) (d : Bool) : List (ℕ × List LiveOrder) :=
  (pricesOf live d).map fun p => (p, ordersOf live d p)

/-- The updates that a stream may contain. -/
def Allowed (live : List LiveOrder) (u : MEMarketUpdate) : Prop :=
  match u.type with
  | .add => u.orderId < meMaxOrderIds ∧ (∀ o ∈ live, o.orderId ≠ u.orderId) ∧
      (u.side = .buy ∨ u.side = .sell) ∧ u.price < meMaxPriceLevels ∧
      (∀ o ∈ live, o.price = u.price → o.side = u.side) ∧ live.length + 1 < meMaxOrderIds ∧
      (u.price :: live.map (·.price)).dedup.length < meMaxPriceLevels
  | .modify => ∃ o ∈ live, o.orderId = u.orderId ∧ o.side = u.side ∧ o.price = u.price
  | .cancel => ∃ o ∈ live, o.orderId = u.orderId ∧ o.side = u.side ∧ o.price = u.price
  | .trade => True
  | _ => False

/-- Every update of the stream is allowed in the list that it meets. -/
def WellFormed (live : List LiveOrder) (us : List MEMarketUpdate) : Prop :=
  Along apply Allowed live us

/-- What the book itself needs of an update. -/
def Permitted (live : List LiveOrder) (u : MEMarketUpdate) : Prop :=
  match u.type with
  | .add => u.orderId < meMaxOrderIds ∧ (∀ o ∈ live, o.orderId ≠ u.orderId) ∧
      (u.side = .buy ∨ u.side = .sell) ∧ u.price < meMaxPriceLevels ∧
      (∀ o ∈ live, o.price = u.price → o.side = u.side) ∧ live.length + 1 < meMaxOrderIds ∧
      (u.price :: live.map (·.price)).dedup.length < meMaxPriceLevels
  | .modify => ∃ o ∈ live, o.orderId = u.orderId
  | .cancel => ∃ o ∈ live, o.orderId = u.orderId
  | .clear => live = []
  | _ => True

theorem Allowed.permitted {live : List LiveOrder} {u : MEMarketUpdate} (h : Allowed live u) :
    Permitted live u := by
  unfold Allowed at h
  unfold Permitted
  split at h
  · next ht => simpa only [ht] using h
  · next ht =>
    obtain ⟨o, ho, hid, -⟩ := h
    simpa only [ht] using ⟨o, ho, hid⟩
  · next ht =>
    obtain ⟨o, ho, hid, -⟩ := h
    simpa only [ht] using ⟨o, ho, hid⟩
  · next ht => simp only [ht]
  · exact h.elim

section Lists
variable {live : List LiveOrder} {d : Bool} {price : ℕ}

theorem mem_ordersOf {o : LiveOrder} :
    o ∈ ordersOf live d price ↔ o ∈ live ∧ o.side = sideOf d ∧ o.price = price := by
  simp [ordersOf]

theorem mem_pricesOf {p : ℕ} :
    p ∈ pricesOf live d ↔ ∃ o ∈ live, o.side = sideOf d ∧ o.price = p := by
  simp only [pricesOf, List.mem_insertionSort, List.mem_dedup, List.mem_map, List.mem_filter,
    decide_eq_true_eq, and_assoc]

theorem ordersOf_append {o : LiveOrder} : ordersOf (live ++ [o]) d price =
    ordersOf live d price ++ if o.side = sideOf d ∧ o.price = price then [o] else [] := by
  rw [ordersOf, List.filter_append, List.filter_singleton]
  by_cases ho : o.side = sideOf d ∧ o.price = price
  · simp [ordersOf, ho]
  · simp [ordersOf, ho]

theorem ordersOf_filter (f : LiveOrder → Bool) :
    ordersOf (live.filter f) d price = (ordersOf live d price).filter f := by
  rw [ordersOf, ordersOf, List.filter_filter, List.filter_filter]
  simp only [Bool.and_comm]

theorem ordersOf_map {f : LiveOrder → LiveOrder}
    (hf : ∀ o, (f o).side = o.side ∧ (f o).price = o.price) :
    ordersOf (live.map f) d price = (ordersOf live d price).map f := by
  rw [ordersOf, ordersOf, List.filter_map]
  congr 1
  apply List.filter_congr
  intro o _
  simp only [Function.comp_apply, (hf o).1, (hf o).2]

theorem pricesOf_nodup (live : List LiveOrder) (d : Bool) : (pricesOf live d).Nodup :=
  (List.perm_insertionSort _ _).nodup_iff.mpr (List.nodup_dedup _)

theorem pricesOf_sorted (live : List LiveOrder) (d : Bool) :
    (pricesOf live d).Pairwise (better d) := by
  have hsorted := List.pairwise_insertionSort (notWorse d)
    ((live.filter fun o => o.side = sideOf d).map (·.price)).dedup
  apply (hsorted.and (pricesOf_nodup live d)).imp
  intro p q hpq
  cases d <;> simp [better, notWorse] at * <;> omega

end Lists

end LiveOrder

namespace MarketOrderBook
open LevelBook CircularList FallibleRun LiveOrder

/-- The live order that a resting order at a price stands for. -/
def toLive (price : ℕ) (o : Resting MarketOrderId) : LiveOrder :=
  ⟨o.ident.orderId, o.side, price, o.qty, o.priority⟩

/-- `b` stores the shape `S`, whose orders are those of `live` in their order. -/
structure Tracks (b : LevelBook MarketOrderId ℕ) (S : Shape MarketOrderId)
    (live : List LiveOrder) : Prop where
  shaped : Shaped b S []
  indexed : Indexed marketBookKind b S
  orders : ∀ d q, (S.contents d q).map (toLive q) = ordersOf live d q
  sides : ∀ o ∈ live, o.side = .buy ∨ o.side = .sell
  ids : ∀ o ∈ live, o.orderId < meMaxOrderIds

section Tracking
variable {b : LevelBook MarketOrderId ℕ} {S : Shape MarketOrderId} {live : List LiveOrder}
  {d : Bool} {q : ℕ}

theorem exists_sideOf {side : Side} (h : side = .buy ∨ side = .sell) : ∃ d, side = sideOf d := by
  rcases h with rfl | rfl
  · exact ⟨true, rfl⟩
  · exact ⟨false, rfl⟩

theorem sideOf_inj {e : Bool} : sideOf d = sideOf e ↔ d = e := by
  cases d <;> cases e <;> simp [sideOf]

theorem Tracks.mem_live (h : Tracks b S live) {o : Resting MarketOrderId}
    (ho : o ∈ S.contents d q) : toLive q o ∈ live ∧ o.side = sideOf d := by
  have hm : toLive q o ∈ ordersOf live d q := by
    rw [← h.orders]
    exact List.mem_map_of_mem ho
  rw [mem_ordersOf] at hm
  exact ⟨hm.1, hm.2.1⟩

theorem Tracks.exists_resting (h : Tracks b S live) {o : LiveOrder} (ho : o ∈ live) :
    ∃ d, o.side = sideOf d ∧ ∃ z ∈ S.contents d o.price, toLive o.price z = o := by
  obtain ⟨d, hd⟩ := exists_sideOf (h.sides o ho)
  have hm : o ∈ (S.contents d o.price).map (toLive o.price) := by
    rw [h.orders, mem_ordersOf]
    exact ⟨ho, hd, rfl⟩
  obtain ⟨z, hz, he⟩ := List.mem_map.mp hm
  exact ⟨d, hd, z, hz, he⟩

theorem Tracks.sided (h : Tracks b S live) : S.Sided := by
  intro o ho
  obtain ⟨d, q, ho⟩ := Shape.mem_orders_iff_contents.mp ho
  rw [(h.mem_live ho).2]
  cases d
  · exact .inr rfl
  · exact .inl rfl

theorem Tracks.ident_inj (h : Tracks b S live) {x y : Resting MarketOrderId} (hx : x ∈ S.orders)
    (hy : y ∈ S.orders) (he : x.ident.orderId = y.ident.orderId) : x = y := by
  have hxid := (h.indexed x.ident.orderId x.addr).mpr ⟨x, hx, rfl, rfl⟩
  have hyid := (h.indexed x.ident.orderId y.addr).mpr ⟨y, hy, rfl, he.symm⟩
  rw [hxid, Option.some.injEq] at hyid
  exact h.shaped.orders_addr_inj hx hy hyid

theorem Tracks.length_orders_le (h : Tracks b S live) : S.orders.length ≤ live.length := by
  have hnd : (S.orders.map fun o => o.ident.orderId).Nodup := by
    apply List.Nodup.map_on fun x hx y hy he => h.ident_inj hx hy he
    exact List.Nodup.of_map _ (List.nodup_append.mp h.shaped.nodup).2.1
  have hsub : (S.orders.map fun o => o.ident.orderId) ⊆ live.map (·.orderId) := by
    intro id hid
    obtain ⟨o, ho, rfl⟩ := List.mem_map.mp hid
    obtain ⟨d, q, ho⟩ := Shape.mem_orders_iff_contents.mp ho
    exact List.mem_map.mpr ⟨_, (h.mem_live ho).1, rfl⟩
  have hle := (hnd.subperm hsub).length_le
  rwa [List.length_map, List.length_map] at hle

theorem Tracks.exists_live_of_level (h : Tracks b S live) {L : PriceLevel MarketOrderId}
    (hL : L ∈ S d) : ∃ o ∈ live, o.side = sideOf d ∧ o.price = L.price := by
  obtain ⟨z, hz⟩ := List.exists_mem_of_ne_nil _ (h.shaped.level d L hL).nonempty
  rw [← h.shaped.levels.contents_eq hL] at hz
  have hm := h.mem_live hz
  exact ⟨_, hm.1, hm.2, rfl⟩

theorem Tracks.length_levels_lt (h : Tracks b S live) {price : ℕ}
    (hnew : ∀ M ∈ S.levels, M.price ≠ price) :
    S.levels.length + 1 ≤ (price :: live.map (·.price)).dedup.length := by
  have hinj : ∀ x ∈ S.levels, ∀ y ∈ S.levels, x.price = y.price → x = y := by
    intro x hx y hy he
    have hx' := (h.shaped.levels.priceTable x.price x.addr).mpr ⟨x, hx, rfl, rfl⟩
    have hy' := (h.shaped.levels.priceTable x.price y.addr).mpr ⟨y, hy, rfl, he.symm⟩
    rw [hx', Option.some.injEq] at hy'
    exact List.inj_on_of_nodup_map h.shaped.levels.nodup hx hy hy'
  have hnd : (price :: S.levels.map (·.price)).Nodup := by
    rw [List.nodup_cons]
    constructor
    · intro hm
      obtain ⟨M, hM, he⟩ := List.mem_map.mp hm
      exact hnew M hM he
    · exact List.Nodup.map_on hinj (List.Nodup.of_map _ h.shaped.levels.nodup)
  have hsub : price :: S.levels.map (·.price) ⊆ (price :: live.map (·.price)).dedup := by
    intro p hp
    rw [List.mem_dedup]
    rcases List.mem_cons.mp hp with rfl | hp
    · simp
    · obtain ⟨M, hM, rfl⟩ := List.mem_map.mp hp
      obtain ⟨d, hd⟩ := Shape.mem_levels.mp hM
      obtain ⟨o, ho, -, he⟩ := h.exists_live_of_level hd
      exact List.mem_cons_of_mem _ (List.mem_map.mpr ⟨o, ho, he⟩)
  have hle := (hnd.subperm hsub).length_le
  rwa [List.length_cons, List.length_map] at hle

end Tracking

section Updates
variable {m : MarketOrderBook} {S : Shape MarketOrderId} {live : List LiveOrder}
  {u : MEMarketUpdate}

theorem tracks_add (h : Tracks m.book S live) (ht : u.type = .add) (hu : Permitted live u) :
    ∃ b' S', m.applyUpdate u = .ok b' ∧ Tracks b' S' (apply live u) := by
  simp only [Permitted, ht] at hu
  obtain ⟨hid, hnew, hside, hp, hother, hlen, hlevels⟩ := hu
  obtain ⟨d, hd⟩ := exists_sideOf hside
  have hpool := h.shaped.pool
  rw [List.nil_append] at hpool
  rcases hpool.allocate_spec
      ({ ident := ⟨u.orderId⟩, side := u.side, price := u.price, qty := u.qty
         priority := u.priority } : MarketOrder) with
    ⟨p, q, hq, hfresh, hholds, hsize, hget, hothers⟩ | ⟨-, hfull⟩
  swap
  · have hle := h.length_orders_le
    rw [h.shaped.poolSize, List.length_map] at hfull
    omega
  set o : Resting MarketOrderId := ⟨p, ⟨u.orderId⟩, u.side, u.qty, u.priority⟩ with ho
  have hne : ∀ z ∈ S.orders.map (·.addr), z ≠ p := fun z hz he => hfresh (he ▸ hz)
  have hpend : Shaped { m.book with orderPool := q } S [o.addr] := by
    apply h.shaped.setPool
    · exact List.nodup_cons.mpr ⟨hfresh, (List.nodup_append.mp h.shaped.nodup).2.1⟩
    · exact hholds
    · exact hsize
    · exact fun z hz => hothers z (hne z hz)
  have hidx : Indexed marketBookKind { m.book with orderPool := q } S := h.indexed
  have hjoin : Joinable marketBookKind { m.book with orderPool := q } S d o u.price := by
    constructor
    · exact hp
    · simp only [orderData, order, ho, hget]
    · rw [ho, hd]
      exact sideOf_beq_buy d
    · exact .inl hd
    · intro M hM _
      rw [h.shaped.level_side h.sided hM]
      exact hd
    · intro M hM he
      obtain ⟨z, hz, hzs, hzp⟩ := h.exists_live_of_level hM
      have hsame := hother z hz (hzp.trans he)
      rw [hzs, hd, sideOf_inj] at hsame
      cases d <;> simp at hsame
    · exact fun _ M w _ => .inl rfl
  have hkey : marketBookKind.checkKey (marketBookKind.key o.ident) = .ok () := at?_lt hid
  have hids : ∀ z ∈ S.orders, marketBookKind.key z.ident ≠ marketBookKind.key o.ident := by
    intro z hz he
    obtain ⟨e, r, hz⟩ := Shape.mem_orders_iff_contents.mp hz
    exact hnew _ (h.mem_live hz).1 he
  rcases addOrder_spec hpend hidx hjoin hkey hids with
    ⟨b', S', hok, hshaped, hidx', hadd⟩ | ⟨-, hnoLevel, hfull⟩
  swap
  · have hle := h.length_levels_lt hnoLevel
    omega
  refine ⟨b', S', ?_, hshaped, hidx', ?_, ?_, ?_⟩
  · simp only [applyUpdate, ht, hq, bind, Except.bind]
    exact hok
  · intro e r
    simp only [apply, ht]
    have hiff : (e = d ∧ r = u.price) ↔ (u.side = sideOf e ∧ u.price = r) := by
      rw [hd, sideOf_inj, eq_comm, @eq_comm _ r]
    rw [hadd.contents, List.map_append, h.orders, ordersOf_append]
    by_cases her : e = d ∧ r = u.price
    · rw [if_pos her, if_pos (hiff.mp her), her.2]
      rfl
    · rw [if_neg her, if_neg fun hc => her (hiff.mpr hc)]
      rfl
  · simp only [apply, ht]
    intro z hz
    rcases List.mem_append.mp hz with hz | hz
    · exact h.sides z hz
    · rw [List.mem_singleton.mp hz]
      exact hside
  · simp only [apply, ht]
    intro z hz
    rcases List.mem_append.mp hz with hz | hz
    · exact h.ids z hz
    · rw [List.mem_singleton.mp hz]
      exact hid

/-- The order that an update names, where it rests, and that the table finds it. -/
theorem Tracks.find (h : Tracks m.book S live) {z : LiveOrder} (hz : z ∈ live)
    (he : z.orderId = u.orderId) :
    ∃ d v L w x o y, m.lookup u.orderId = .ok o.addr ∧ S d = v ++ L :: w ∧
      L.orders = x ++ o :: y ∧ toLive L.price o = z ∧ o.ident.orderId = u.orderId := by
  obtain ⟨d, -, o, ho, hoz⟩ := h.exists_resting hz
  obtain ⟨L, hL, hLp, hoL⟩ := Shape.mem_contents.mp ho
  obtain ⟨v, w, hS⟩ := List.append_of_mem hL
  obtain ⟨x, y, hxy⟩ := List.append_of_mem hoL
  have hident : o.ident.orderId = u.orderId := by
    rw [← he, ← hoz]
    rfl
  have hid : m.book.idToOrder u.orderId = some o.addr :=
    (h.indexed u.orderId o.addr).mpr ⟨o, Shape.mem_orders.mpr ⟨d, L, hL, hoL⟩, rfl, hident⟩
  refine ⟨d, v, L, w, x, o, y, ?_, hS, hxy, ?_, hident⟩
  · have hlt : u.orderId < meMaxOrderIds := he ▸ h.ids z hz
    simp only [lookup, at?_lt hlt, hid, deref_some, bind, Except.bind]
  · rw [hLp]
    exact hoz

/-- Among the orders of a book the address decides the identification. -/
theorem Tracks.addr_iff (h : Tracks m.book S live) {o z : Resting MarketOrderId}
    (ho : o ∈ S.orders) (hz : z ∈ S.orders) :
    z.addr = o.addr ↔ z.ident.orderId = o.ident.orderId := by
  constructor
  · intro he
    rw [h.shaped.orders_addr_inj hz ho he]
  · intro he
    rw [h.ident_inj hz ho he]

theorem tracks_modify (h : Tracks m.book S live) (ht : u.type = .modify) (hu : Permitted live u) :
    ∃ b' S', m.applyUpdate u = .ok b' ∧ Tracks b' S' (apply live u) := by
  simp only [Permitted, ht] at hu
  obtain ⟨z, hz, hzid⟩ := hu
  obtain ⟨d, v, L, w, x, o, y, hlookup, hS, hxy, -, hident⟩ := h.find hz hzid
  have ho : o ∈ S.orders := Shape.mem_orders.mpr ⟨d, L, by simp [hS], by simp [hxy]⟩
  obtain ⟨S', hshaped, hidx, hset⟩ := setQty_spec h.shaped h.indexed hS hxy u.qty
  refine ⟨_, S', ?_, hshaped, hidx, ?_, ?_, ?_⟩
  · simp only [applyUpdate, ht, hlookup, bind, Except.bind]
    rfl
  · intro e r
    simp only [apply, ht]
    rw [contents_set h.shaped hS hxy hset, ordersOf_map, ← h.orders, List.map_map, List.map_map]
    · apply List.map_congr_left
      intro c hc
      have hcS : c ∈ S.orders := Shape.mem_orders_iff_contents.mpr ⟨e, r, hc⟩
      have hiff := h.addr_iff ho hcS
      rw [hident] at hiff
      by_cases hca : c.addr = o.addr
      · simp [hca, hiff.mp hca, toLive]
      · have hci : c.ident.orderId ≠ u.orderId := fun he => hca (hiff.mpr he)
        simp [hca, hci, toLive]
    · intro c
      split <;> exact ⟨rfl, rfl⟩
  · simp only [apply, ht]
    intro c hc
    obtain ⟨c', hc', rfl⟩ := List.mem_map.mp hc
    have hs := h.sides c' hc'
    split <;> exact hs
  · simp only [apply, ht]
    intro c hc
    obtain ⟨c', hc', rfl⟩ := List.mem_map.mp hc
    have hs := h.ids c' hc'
    split <;> exact hs

theorem tracks_cancel (h : Tracks m.book S live) (ht : u.type = .cancel) (hu : Permitted live u) :
    ∃ b' S', m.applyUpdate u = .ok b' ∧ Tracks b' S' (apply live u) := by
  simp only [Permitted, ht] at hu
  obtain ⟨z, hz, hzid⟩ := hu
  obtain ⟨d, v, L, w, x, o, y, hlookup, hS, hxy, -, hident⟩ := h.find hz hzid
  have ho : o ∈ S.orders := Shape.mem_orders.mpr ⟨d, L, by simp [hS], by simp [hxy]⟩
  have hkey : marketBookKind.checkKey (marketBookKind.key o.ident) = .ok () := by
    apply at?_lt
    change o.ident.orderId < meMaxOrderIds
    rw [hident, ← hzid]
    exact h.ids z hz
  obtain ⟨b', S', hok, hshaped, hidx, hgone⟩ := removeOrder_spec h.shaped h.indexed hS hxy hkey
  refine ⟨b', S', ?_, hshaped, hidx, ?_, ?_, ?_⟩
  · simp only [applyUpdate, ht, hlookup, bind, Except.bind]
    exact hok
  · intro e r
    simp only [apply, ht]
    rw [contents_gone h.shaped hS hxy hgone, ordersOf_filter, ← h.orders, List.filter_map]
    congr 1
    apply List.filter_congr
    intro c hc
    have hcS : c ∈ S.orders := Shape.mem_orders_iff_contents.mpr ⟨e, r, hc⟩
    have hiff := h.addr_iff ho hcS
    rw [hident] at hiff
    by_cases hca : c.addr = o.addr
    · simp [hca, hiff.mp hca, toLive]
    · have hci : c.ident.orderId ≠ u.orderId := fun he => hca (hiff.mpr he)
      simp [hca, hci, toLive]
  · simp only [apply, ht]
    exact fun c hc => h.sides c (List.mem_of_mem_filter hc)
  · simp only [apply, ht]
    exact fun c hc => h.ids c (List.mem_of_mem_filter hc)

theorem tracks_clear (h : Tracks m.book S live) (ht : u.type = .clear) (hu : Permitted live u) :
    ∃ b' S', m.applyUpdate u = .ok b' ∧ Tracks b' S' (apply live u) := by
  simp only [Permitted, ht] at hu
  subst hu
  have hnil : S.orders = [] := List.length_eq_zero_iff.mp (Nat.le_zero.mp h.length_orders_le)
  have hids : ∀ id, m.book.idToOrder id = none := by
    intro id
    cases hid : m.book.idToOrder id with
    | none => rfl
    | some p =>
      obtain ⟨o, ho, -⟩ := (h.indexed id p).mp hid
      simp [hnil] at ho
  have hempty : ∀ d, S d = [] := by
    intro d
    cases hS : S d with
    | nil => rfl
    | cons L w =>
      obtain ⟨o, ho, -⟩ := h.exists_live_of_level (show L ∈ S d by simp [hS])
      simp at ho
  have hbids : m.book.bidsByPrice = none := by
    have hbest := h.shaped.levels.best true
    rw [hempty] at hbest
    exact hbest
  have hasks : m.book.asksByPrice = none := by
    have hbest := h.shaped.levels.best false
    rw [hempty] at hbest
    exact hbest
  refine ⟨m.book, S, ?_, ?_⟩
  · simp only [applyUpdate, ht]
    exact clear_empty hids hbids hasks
  · simp only [apply, ht]
    exact h

/-- One update of the book is one update of the list. -/
theorem applyUpdate_tracks (h : Tracks m.book S live) (hu : Permitted live u) :
    ∃ b' S', m.applyUpdate u = .ok b' ∧ Tracks b' S' (apply live u) := by
  cases ht : u.type with
  | add => exact tracks_add h ht hu
  | modify => exact tracks_modify h ht hu
  | cancel => exact tracks_cancel h ht hu
  | clear => exact tracks_clear h ht hu
  | invalid | trade | snapshotStart | snapshotEnd | unnamed _ =>
    refine ⟨m.book, S, ?_, ?_⟩
    · simp only [applyUpdate, ht]
    · simp only [apply, ht]
      exact h

end Updates

section Calls
variable {m : MarketOrderBook} {S : Shape MarketOrderId} {live : List LiveOrder}
  {u : MEMarketUpdate}

/-- No order to sell for nothing. -/
def NoZeroAsk (live : List LiveOrder) : Prop := ∀ o ∈ live, o.side = .sell → o.price ≠ 0

theorem noZeroAsk_apply (h : NoZeroAsk live) (hu : u.type = .add → u.side = .sell → u.price ≠ 0) :
    NoZeroAsk (apply live u) := by
  intro o ho
  unfold apply at ho
  split at ho
  · next ht =>
    rcases List.mem_append.mp ho with ho | ho
    · exact h o ho
    · rw [List.mem_singleton.mp ho]
      exact hu ht
  · obtain ⟨z, hz, rfl⟩ := List.mem_map.mp ho
    split
    · exact h z hz
    · exact h z hz
  · exact h o (List.mem_of_mem_filter ho)
  · simp at ho
  · exact h o ho

theorem noZeroAsk_foldl {us : List MEMarketUpdate} (h : NoZeroAsk live)
    (hus : ∀ u ∈ us, u.type = .add → u.side = .sell → u.price ≠ 0) :
    NoZeroAsk (us.foldl apply live) := by
  induction us generalizing live with
  | nil => exact h
  | cons u us ih =>
    exact ih (noZeroAsk_apply h (hus u (by simp))) fun v hv => hus v (List.mem_cons_of_mem _ hv)

theorem Tracks.sanityCheck_eq {b : LevelBook MarketOrderId ℕ} (h : Tracks b S live)
    (hz : NoZeroAsk live) : b.sanityCheck = .ok () := by
  apply sanityCheck_ok h.shaped
  intro M hM
  obtain ⟨o, ho, hs, hp⟩ := h.exists_live_of_level hM
  rw [← hp]
  exact hz o ho hs

theorem Tracks.sanityCheck_fatal {b : LevelBook MarketOrderId ℕ} (h : Tracks b S live)
    {o : LiveOrder} (ho : o ∈ live) (hs : o.side = .sell) (hp : o.price = 0) :
    ∃ msg, b.sanityCheck = .error (.fatal msg) := by
  obtain ⟨d, hd, z, hz, -⟩ := h.exists_resting ho
  obtain ⟨M, hM, hMp, -⟩ := Shape.mem_contents.mp hz
  have hd : d = false := by
    rw [hs] at hd
    cases d
    · rfl
    · simp [sideOf] at hd
  exact sanityCheck_zero h.shaped ⟨M, hd ▸ hM, hMp.trans hp⟩

theorem updateBBO_ok (h : Shaped m.book S []) (updateBid updateAsk : Bool) :
    ∃ m', updateBBO m updateBid updateAsk = .ok m' ∧ m'.book = m.book := by
  have hbid : m.book.bestQuote m.book.bidsByPrice = .ok (quoteOf (S true)) := bestQuote_spec h true
  have hask : m.book.bestQuote m.book.asksByPrice = .ok (quoteOf (S false)) :=
    bestQuote_spec h false
  unfold updateBBO
  rw [hbid, hask]
  cases updateBid <;> cases updateAsk <;> exact ⟨_, rfl, rfl⟩

/-- After the `switch` only the sanity check can fail. -/
theorem onMarketUpdate_spec (h : Tracks m.book S live) (hu : Permitted live u)
    (ht : u.type ≠ .trade) :
    ∃ (m' : MarketOrderBook) (S' : Shape MarketOrderId), Tracks m'.book S' (apply live u) ∧
      m.onMarketUpdate u = m'.book.sanityCheck.map fun _ => m' := by
  obtain ⟨b', S', hok, htracks⟩ := applyUpdate_tracks h hu
  obtain ⟨m', hm', hbook⟩ := @updateBBO_ok { m with book := b' } S' htracks.shaped
    (m.bidUpdated u) (m.askUpdated u)
  refine ⟨m', S', ?_, ?_⟩
  · rw [hbook]
    exact htracks
  · unfold onMarketUpdate
    simp only [ht, if_false, hok, bind, Except.bind]
    rw [hm']
    rfl

theorem Tracks.next {m' : MarketOrderBook} (h : Tracks m.book S live) (hu : Permitted live u)
    (hok : m.onMarketUpdate u = .ok m') : ∃ S', Tracks m'.book S' (apply live u) := by
  by_cases ht : u.type = .trade
  · simp only [onMarketUpdate, ht, if_true] at hok
    cases hok
    refine ⟨S, ?_⟩
    simp only [apply, ht]
    exact h
  · obtain ⟨m₁, S', htracks, hcall⟩ := onMarketUpdate_spec h hu ht
    rw [hcall] at hok
    cases hs : m₁.book.sanityCheck with
    | error e =>
      rw [hs] at hok
      cases hok
    | ok _ =>
      rw [hs] at hok
      cases hok
      exact ⟨S', htracks⟩

theorem onMarketUpdate_ok (h : Tracks m.book S live) (hu : Permitted live u)
    (hz : NoZeroAsk (apply live u)) : ∃ m', m.onMarketUpdate u = .ok m' := by
  by_cases ht : u.type = .trade
  · refine ⟨m, ?_⟩
    simp only [onMarketUpdate, ht, if_true]
    rfl
  · obtain ⟨m', S', htracks, hcall⟩ := onMarketUpdate_spec h hu ht
    refine ⟨m', ?_⟩
    rw [hcall, htracks.sanityCheck_eq hz]
    rfl

theorem onMarketUpdate_zero (h : Tracks m.book S live) (hu : Permitted live u)
    (ht : u.type = .add) (hs : u.side = .sell) (hp : u.price = 0) :
    ∃ msg, m.onMarketUpdate u = .error (.fatal msg) := by
  obtain ⟨m', S', htracks, hcall⟩ := onMarketUpdate_spec h hu (by simp [ht])
  have hlive : (⟨u.orderId, u.side, u.price, u.qty, u.priority⟩ : LiveOrder) ∈ apply live u := by
    simp [apply, ht]
  obtain ⟨msg, hmsg⟩ := htracks.sanityCheck_fatal hlive hs hp
  refine ⟨msg, ?_⟩
  rw [hcall, hmsg]
  rfl

end Calls

section Reading
variable {b : LevelBook MarketOrderId ℕ} {S : Shape MarketOrderId} {live : List LiveOrder}

def readOrder (b : LevelBook MarketOrderId ℕ) (p : Ptr) : LiveOrder :=
  ⟨(b.order p).ident.orderId, (b.order p).side, (b.order p).price, (b.order p).qty,
    (b.order p).priority⟩

/-- What is met on one side along `next_entry_` and `next_order_`. -/
def readSide (b : LevelBook MarketOrderId ℕ) (d : Bool) : List (ℕ × List LiveOrder) :=
  (b.readLevels d).map fun l => ((b.level l).price, (b.readOrders l).map (readOrder b))

/-- The rings of the book are closed in both directions and contain the live
orders by price. -/
structure Refines (b : LevelBook MarketOrderId ℕ) (live : List LiveOrder) : Prop where
  content : ∀ d, readSide b d = levelsOf live d
  best : ∀ d, b.best d = (b.readLevels d).head?
  levelRing : ∀ d, Ring b.nextEntry b.prevEntry (b.readLevels d)
  entry : ∀ d, ∀ l ∈ b.readLevels d, (b.level l).firstOrder = (b.readOrders l).head?
  orderRing : ∀ d, ∀ l ∈ b.readLevels d, Ring b.nextOrder b.prevOrder (b.readOrders l)

/-- Both sides of the equation are sorted and have the same members. -/
theorem Tracks.prices_eq (h : Tracks b S live) (d : Bool) :
    (S d).map (·.price) = pricesOf live d := by
  have hsorted := h.shaped.levels.sorted d
  have hmem : ∀ p, p ∈ (S d).map (·.price) ↔ p ∈ pricesOf live d := by
    intro p
    rw [mem_pricesOf]
    constructor
    · intro hp
      obtain ⟨L, hL, rfl⟩ := List.mem_map.mp hp
      exact h.exists_live_of_level hL
    · rintro ⟨o, ho, hs, rfl⟩
      obtain ⟨e, he, z, hz, -⟩ := h.exists_resting ho
      rw [hs, sideOf_inj] at he
      obtain ⟨L, hL, hp, -⟩ := Shape.mem_contents.mp hz
      rw [← hp, he]
      exact List.mem_map_of_mem hL
  have hperm : ((S d).map (·.price)).Perm (pricesOf live d) :=
    (List.perm_ext_iff_of_nodup (Shape.prices_nodup hsorted) (pricesOf_nodup live d)).mpr hmem
  apply hperm.eq_of_pairwise _ hsorted (pricesOf_sorted live d)
  intro p q _ _ hpq hqp
  exact (better_irrefl d p (better_trans hpq hqp)).elim

theorem Tracks.readSide_eq (h : Tracks b S live) (d : Bool) : readSide b d = levelsOf live d := by
  rw [readSide, levelsOf, h.shaped.readLevels_eq, ← h.prices_eq, List.map_map, List.map_map]
  apply List.map_congr_left
  intro L hL
  have hrep := h.shaped.level d L hL
  have horders : (L.orders.map (·.addr)).map (readOrder b) = L.orders.map (toLive L.price) := by
    rw [List.map_map]
    apply List.map_congr_left
    intro o ho
    have hdata := (hrep.orders o ho).2
    simp only [orderData, Prod.mk.injEq] at hdata
    simp only [Function.comp_apply, readOrder, toLive, hdata]
  simp only [Function.comp_apply]
  rw [hrep.price, h.shaped.readOrders_eq hL, horders, ← h.orders, h.shaped.levels.contents_eq hL]

theorem Tracks.refines (h : Tracks b S live) : Refines b live := by
  have hread := h.shaped.readLevels_eq
  have hlevel : ∀ d, ∀ l ∈ b.readLevels d, ∃ L ∈ S d, L.addr = l := by
    intro d l hl
    rw [hread] at hl
    exact List.mem_map.mp hl
  constructor
  · exact h.readSide_eq
  · intro d
    rw [hread]
    exact h.shaped.levels.best d
  · intro d
    rw [hread]
    exact h.shaped.levels.ring d
  · intro d l hl
    obtain ⟨L, hL, rfl⟩ := hlevel d l hl
    rw [h.shaped.readOrders_eq hL]
    exact (h.shaped.level d L hL).firstOrder
  · intro d l hl
    obtain ⟨L, hL, rfl⟩ := hlevel d l hl
    rw [h.shaped.readOrders_eq hL]
    exact (h.shaped.level d L hL).ring

end Reading

section Runs
variable {m m' : MarketOrderBook} {S : Shape MarketOrderId} {live : List LiveOrder}
  {us vs : List MEMarketUpdate}

theorem tracks_init : Tracks (LevelBook.init : LevelBook MarketOrderId ℕ) (fun _ => []) [] := by
  refine ⟨shaped_init, indexed_init marketBookKind, fun _ _ => rfl, ?_, ?_⟩
  · intro o ho
    simp at ho
  · intro o ho
    simp at ho

theorem run_tracks (h : Tracks m.book S live) (hw : Along apply Permitted live us)
    (hrun : run onMarketUpdate m us = .ok m') : ∃ S', Tracks m'.book S' (us.foldl apply live) := by
  induction us generalizing m S live with
  | nil =>
    cases hrun
    exact ⟨S, h⟩
  | cons u us ih =>
    obtain ⟨m₁, hok, hrest⟩ := run_cons_eq_ok.mp hrun
    obtain ⟨S₁, h₁⟩ := h.next hw.1 hok
    exact ih h₁ hw.2 hrest

theorem run_succeeds (h : Tracks m.book S live) (hz : NoZeroAsk live)
    (hw : Along apply Permitted live us)
    (hasks : ∀ u ∈ us, u.type = .add → u.side = .sell → u.price ≠ 0) :
    ∃ m', run onMarketUpdate m us = .ok m' := by
  induction us generalizing m S live with
  | nil => exact ⟨m, rfl⟩
  | cons u us ih =>
    have hz₁ := noZeroAsk_apply hz (hasks u (by simp))
    obtain ⟨m₁, hok⟩ := onMarketUpdate_ok h hw.1 hz₁
    obtain ⟨S₁, h₁⟩ := h.next hw.1 hok
    obtain ⟨m', hrest⟩ := ih h₁ hz₁ hw.2 fun v hv => hasks v (List.mem_cons_of_mem _ hv)
    exact ⟨m', (run_cons_ok hok).trans hrest⟩

/-- A run that succeeds has no order to sell for nothing. -/
theorem noZeroAsk_of_run (h : Tracks m.book S live) (hw : Along apply Permitted live us)
    (hrun : run onMarketUpdate m us = .ok m') :
    ∀ u ∈ us, u.type = .add → u.side = .sell → u.price ≠ 0 := by
  induction us generalizing m S live with
  | nil => simp
  | cons u us ih =>
    obtain ⟨m₁, hok, hrest⟩ := run_cons_eq_ok.mp hrun
    obtain ⟨S₁, h₁⟩ := h.next hw.1 hok
    intro v hv
    rcases List.mem_cons.mp hv with rfl | hv
    · intro ht hs hp
      obtain ⟨msg, herr⟩ := onMarketUpdate_zero h hw.1 ht hs hp
      rw [hok] at herr
      cases herr
    · exact ih h₁ hw.2 hrest v hv

/-- After every update of an allowed stream the book is the list of live orders,
exactly when the stream has no order to sell at price zero. -/
theorem run_refines_iff (tickerId : ℕ) (us : List MEMarketUpdate) (hw : WellFormed [] us) :
    (∀ pre, pre <+: us → ∃ m, run onMarketUpdate (init tickerId) pre = .ok m ∧
      Refines m.book (pre.foldl apply [])) ↔
    ∀ u ∈ us, u.type = .add → u.side = .sell → u.price ≠ 0 := by
  have hinit : Tracks (init tickerId).book (fun _ => []) [] := tracks_init
  have hp : Along apply Permitted [] us := Along.imp hw fun _ _ => Allowed.permitted
  constructor
  · intro hall
    obtain ⟨m, hrun, -⟩ := hall us List.prefix_rfl
    exact noZeroAsk_of_run hinit hp hrun
  · rintro hasks pre ⟨post, rfl⟩
    have hpre := (along_append.mp hp).1
    obtain ⟨m, hrun⟩ := run_succeeds hinit (by simp [NoZeroAsk]) hpre fun u hu =>
      hasks u (List.mem_append_left _ hu)
    obtain ⟨S, h⟩ := run_tracks hinit hpre hrun
    exact ⟨m, hrun, h.refines⟩

/-- Two bids, an ask between which the second is changed, and a removal. -/
theorem run_refines_iff_two_sides :
    WellFormed [] [⟨.add, 7, 0, .buy, 99, 5, 1⟩, ⟨.add, 3, 0, .sell, 101, 8, 1⟩,
        ⟨.add, 4, 0, .buy, 99, 6, 2⟩, ⟨.trade, 0, 0, .sell, 99, 2, 0⟩,
        ⟨.modify, 7, 0, .buy, 99, 3, 1⟩, ⟨.cancel, 4, 0, .buy, 99, 6, 2⟩] ∧
      ∀ pre, pre <+: [⟨.add, 7, 0, .buy, 99, 5, 1⟩, ⟨.add, 3, 0, .sell, 101, 8, 1⟩,
          ⟨.add, 4, 0, .buy, 99, 6, 2⟩, ⟨.trade, 0, 0, .sell, 99, 2, 0⟩,
          ⟨.modify, 7, 0, .buy, 99, 3, 1⟩, ⟨.cancel, 4, 0, .buy, 99, 6, 2⟩] →
        ∃ m, run onMarketUpdate (init 0) pre = .ok m ∧ Refines m.book (pre.foldl apply []) := by
  have hw : WellFormed [] [⟨.add, 7, 0, .buy, 99, 5, 1⟩, ⟨.add, 3, 0, .sell, 101, 8, 1⟩,
      ⟨.add, 4, 0, .buy, 99, 6, 2⟩, ⟨.trade, 0, 0, .sell, 99, 2, 0⟩,
      ⟨.modify, 7, 0, .buy, 99, 3, 1⟩, ⟨.cancel, 4, 0, .buy, 99, 6, 2⟩] := by
    simp [WellFormed, Along, Allowed, apply, meMaxOrderIds, meMaxPriceLevels]
  exact ⟨hw, (run_refines_iff 0 _ hw).mpr (by decide)⟩

/-- One order to sell at price zero ends the process. -/
theorem sell_at_zero_is_fatal :
    WellFormed [] [⟨.add, 1, 0, .sell, 0, 5, 1⟩] ∧
      ¬∀ pre, pre <+: [⟨.add, 1, 0, .sell, 0, 5, 1⟩] →
        ∃ m, run onMarketUpdate (init 0) pre = .ok m ∧ Refines m.book (pre.foldl apply []) := by
  have hw : WellFormed [] [⟨.add, 1, 0, .sell, 0, 5, 1⟩] := by
    simp [WellFormed, Along, Allowed, meMaxOrderIds, meMaxPriceLevels]
  refine ⟨hw, fun hall => ?_⟩
  obtain ⟨m, hrun, -⟩ := hall _ List.prefix_rfl
  have hp := Along.imp hw fun _ _ => Allowed.permitted
  exact noZeroAsk_of_run (m := init 0) tracks_init hp hrun _ (List.mem_singleton.mpr rfl) rfl rfl rfl

end Runs

end MarketOrderBook

end HighPerformance
