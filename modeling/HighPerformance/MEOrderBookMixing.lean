import HighPerformance.MEOrderBookOwnership
import HighPerformance.PriceLevelStore

/-!
# Orders on a level of another price

The level of a price is looked up under `price % ME_MAX_PRICE_LEVELS`, and the
price stored in the level is not compared. An order therefore queues wherever
the lookup leads: behind orders of another price with the same remainder, or of
the other side when a level of that side is left in the table.

`Kept` is the invariant of the runs in which this does not happen. It leaves the
order of the levels open, so it survives the call that breaks it.
-/

namespace HighPerformance.MEOrderBook
open LevelBook CircularList FallibleRun

/-- The ring of orders entered at the first order of the level `l`. -/
structure OrderQueue (b : LevelBook MEOrderIds ClientOrderKey) (l : Ptr) (qs : List Ptr) : Prop where
  entry : (b.level l).firstOrder = qs.head?
  nonempty : qs ≠ []
  ring : Ring b.nextOrder b.prevOrder qs

/-- Every resting order queues on a level, and on a level of its price and side. -/
structure Unmixed (b : LevelBook MEOrderIds ClientOrderKey) : Prop where
  place : ∀ q, b.orderPool.isFree q = false →
    ∃ l qs, b.ordersAtPricePool.isFree l = false ∧ OrderQueue b l qs ∧ q ∈ qs
  own : ∀ l qs, b.ordersAtPricePool.isFree l = false → OrderQueue b l qs → ∀ q ∈ qs,
    (b.order q).price = (b.level l).price ∧ (b.order q).side = (b.level l).side

/-- The lookup of `price` finds nothing or a level of that price. -/
def FindsOwnLevel (b : LevelBook MEOrderIds ClientOrderKey) (price : ℕ) : Prop :=
  ∀ l, b.getOrdersAtPrice price = some l → (b.level l).price = price

/-- An order that comes to rest meets no level under its price or one of its
own price and side. -/
def JoinsOwnLevel (m : MEOrderBook) : Request → Prop
  | .add clientId clientOrderId tickerId side price qty =>
      ∀ m₁, m.restingBook (.add clientId clientOrderId tickerId side price qty) = some m₁ →
        ∀ l, m₁.book.getOrdersAtPrice price = some l →
          (m₁.book.level l).price = price ∧ (m₁.book.level l).side = side
  | .cancel _ _ _ => True

instance (m : MEOrderBook) : DecidablePred m.JoinsOwnLevel
  | .add clientId clientOrderId tickerId side price qty =>
      match h : m.restingBook (.add clientId clientOrderId tickerId side price qty) with
      | none => isTrue (by simp [JoinsOwnLevel, h])
      | some m₁ =>
          match hl : m₁.book.getOrdersAtPrice price with
          | none => isTrue (by simp [JoinsOwnLevel, h, hl])
          | some l =>
              decidable_of_iff
                ((m₁.book.level l).price = price ∧ (m₁.book.level l).side = side)
                (by simp [JoinsOwnLevel, h, hl])
  | .cancel _ _ _ => isTrue trivial

/-- The levels and orders in use are those of some list of levels. -/
def Kept (b : LevelBook MEOrderIds ClientOrderKey) : Prop :=
  ∃ ls, Stored b ls [] ∧ Complete b ls []

section Reading
variable {b : LevelBook MEOrderIds ClientOrderKey} {ls : List (PriceLevel MEOrderIds)}
  {L : PriceLevel MEOrderIds} {qs : List Ptr}

theorem LevelRep.side_eq {d : Bool} (h : LevelRep b d L) : (b.level L.addr).side = L.side :=
  congrArg Prod.fst h.data

theorem OrderQueue.eq_orders (h : OrderQueue b L.addr qs) (hL : LevelRep b (L.side == .buy) L) :
    qs = L.orders.map (·.addr) := by
  have hentry := h.entry
  rw [hL.firstOrder] at hentry
  have hring := hL.ring
  have hqs := h.ring
  cases qs with
  | nil => exact (h.nonempty rfl).elim
  | cons q qs =>
    cases ho : L.orders.map (·.addr) with
    | nil => exact (hL.nonempty (List.map_eq_nil_iff.mp ho)).elim
    | cons p ps =>
      rw [ho] at hentry hring
      cases hentry
      -- one walk with fuel for both rings reads both lists
      have hwalk : walk b.nextOrder q (qs.length + ps.length + 1) q = q :: qs :=
        hqs.walk_eq (by omega)
      rw [← hwalk]
      exact hring.walk_eq (by omega)

theorem Kept.unmixed (h : Kept b) : Unmixed b := by
  obtain ⟨ls, hs, hc⟩ := h
  constructor
  · intro q hq
    have hmem := hc.orders q hq
    rw [List.nil_append] at hmem
    obtain ⟨o, ho, rfl⟩ := List.mem_map.mp hmem
    obtain ⟨L, hL, hoL⟩ := List.mem_flatMap.mp ho
    have hrep := hs.level L hL
    refine ⟨L.addr, L.orders.map (·.addr), hs.levelUse L hL, ?_, List.mem_map_of_mem hoL⟩
    constructor
    · exact hrep.firstOrder
    · simpa using hrep.nonempty
    · exact hrep.ring
  · intro l qs hl hqs q hq
    obtain ⟨L, hL, rfl⟩ := hc.levels l hl
    have hrep := hs.level L hL
    rw [hqs.eq_orders hrep] at hq
    obtain ⟨o, ho, rfl⟩ := List.mem_map.mp hq
    obtain ⟨-, hside, hprice, -, -⟩ := hrep.orderFields ho
    rw [hside, hprice, hrep.price, LevelRep.side_eq hrep]
    exact ⟨rfl, rfl⟩

/-- The lookup of a price goes wrong exactly when an order of another price
with the same remainder is resting. -/
theorem Kept.findsOwnLevel_iff (h : Kept b) (price : ℕ) : FindsOwnLevel b price ↔
    ∀ q, b.orderPool.isFree q = false → priceToIndex (b.order q).price = priceToIndex price →
      (b.order q).price = price := by
  obtain ⟨ls, hs, hc⟩ := h
  constructor
  · intro hfinds q hq hindex
    have hmem := hc.orders q hq
    rw [List.nil_append] at hmem
    obtain ⟨o, ho, rfl⟩ := List.mem_map.mp hmem
    obtain ⟨L, hL, hoL⟩ := List.mem_flatMap.mp ho
    have hrep := hs.level L hL
    obtain ⟨-, -, hprice, -, -⟩ := hrep.orderFields hoL
    rw [hprice] at hindex ⊢
    rw [← hrep.price]
    apply hfinds
    rw [getOrdersAtPrice, ← hindex]
    exact hs.table L hL
  · intro hall l hl
    obtain ⟨L, hL, rfl, hindex⟩ := hc.table _ l hl
    have hrep := hs.level L hL
    obtain ⟨o, ho⟩ := List.exists_mem_of_ne_nil _ hrep.nonempty
    obtain ⟨-, -, hprice, -, -⟩ := hrep.orderFields ho
    rw [hrep.price, ← hprice]
    apply hall
    · apply hs.orderUse
      exact List.mem_map_of_mem (List.mem_flatMap.mpr ⟨L, hL, ho⟩)
    · rw [hprice, hindex]

end Reading

section Steps
variable {b b' : LevelBook MEOrderIds ClientOrderKey} {m m' : MEOrderBook} {p : Ptr}

theorem kept_init (tickerId : ℕ) : Kept (init tickerId).book := by
  refine ⟨[], ?_, ?_⟩
  · constructor <;> simp
  · constructor <;> simp [init, LevelBook.init]

theorem Kept.setQty (h : Kept b) (p : Ptr) (qty : ℕ) : Kept (b.setQty p qty) := by
  obtain ⟨ls, hs, hc⟩ := h
  exact ⟨_, hs.setQty p qty, hc.setQty p qty⟩

theorem Kept.removeOrder (h : Kept b) (hok : b.removeOrder meBookKind p = .ok b') : Kept b' := by
  obtain ⟨ls, hs, hc⟩ := h
  obtain ⟨hused, -⟩ := removeOrder_entry hok
  have hmem := hc.orders p hused
  rw [List.nil_append] at hmem
  obtain ⟨o, ho, rfl⟩ := List.mem_map.mp hmem
  obtain ⟨L, hL, hoL⟩ := List.mem_flatMap.mp ho
  obtain ⟨u, w, rfl⟩ := List.append_of_mem hL
  obtain ⟨x, y, hxy⟩ := List.append_of_mem hoL
  obtain ⟨b₁, hleave, hok⟩ := bind_eq_ok.mp hok
  obtain ⟨_, -, hok⟩ := bind_eq_ok.mp hok
  obtain ⟨pool, hpool, hok⟩ := bind_eq_ok.mp hok
  cases hok
  have hfront : Stored b (L :: (u ++ w)) [] := hs.perm List.perm_middle.symm
  obtain ⟨hs₁, hc₁⟩ := hfront.leaveLevel hxy hleave
  obtain ⟨hs₂, hc₂⟩ := hs₁.deallocate _ hpool
  exact ⟨_, hs₂, hc₂ (hc₁ (hc.perm List.perm_middle.symm))⟩

theorem Kept.restOrder {order : MEOrder} (h : Kept m.book) (hok : m.restOrder order = .ok m')
    (hown : ∀ l, m.book.getOrdersAtPrice order.price = some l →
      (m.book.level l).price = order.price ∧ (m.book.level l).side = order.side) :
    Kept m'.book := by
  obtain ⟨ls, hs, hc⟩ := h
  obtain ⟨p, pool, b, halloc, hadd, rfl⟩ := restOrder_eq_ok hok
  obtain ⟨hs₁, hc₁, hget⟩ := hs.allocate halloc
  obtain ⟨b₁, hjoin, hadd⟩ := bind_eq_ok.mp hadd
  obtain ⟨_, -, hadd⟩ := bind_eq_ok.mp hadd
  cases hadd
  set o : Resting MEOrderIds := ⟨p, order.ident, order.side, order.qty, order.priority⟩ with ho
  have hdata : ({ m.book with orderPool := pool } : LevelBook _ _).orderData o.addr =
      (o.ident, o.side, order.price, o.qty, o.priority) := by
    simp only [ho, orderData, LevelBook.order, hget]
  have hlevel : ∀ L ∈ ls, m.book.getOrdersAtPrice order.price = some L.addr →
      L.price = order.price ∧ L.side = o.side := by
    intro L hL hfound
    obtain ⟨hp, hside⟩ := hown L.addr hfound
    have hrep := hs.level L hL
    rw [hrep.price] at hp
    rw [LevelRep.side_eq hrep] at hside
    exact ⟨hp, hside⟩
  obtain ⟨ms, hs₂, hc₂⟩ := hs₁.joinLevel (hc₁ hc) hdata hlevel hjoin
  exact ⟨ms, hs₂.setPool _ hs₂.orderNodup hs₂.orderUse fun _ _ => rfl,
    hc₂.setPool _ hc₂.orders⟩

theorem kept_step {r : Request} (h : Kept m.book) (hjoins : JoinsOwnLevel m r)
    (hok : step m r = .ok m') : Kept m'.book := by
  have hmatch : ∀ {i qty x}, m.checkForMatch i qty = .ok x → Kept x.1.book :=
    fun hx => checkForMatch_invariant (fun _ p q hb => hb.setQty p q)
      (fun _ _ _ hb hr => hb.removeOrder hr) h hx
  rcases step_eq_ok hok with ⟨-, rfl | ⟨p, hr⟩ | ⟨i, qty, x, hx, rfl⟩⟩ |
      ⟨cid, oid, tid, side, price, qty, i, leaves, out, m₁, priority, rfl, hsome, hx, hrest⟩
  · exact h
  · obtain ⟨b, hb, rfl⟩ := removeOrder_eq_ok hr
    exact h.removeOrder hb
  · exact hmatch hx
  · exact (hmatch hx).restOrder hrest (hjoins m₁ hsome)

/-- In every run in which each order that comes to rest meets nothing but a
level of its own price and side, no price and no side is mixed, and the lookup
of a price goes wrong exactly when an order of another price with the same
remainder is resting. -/
theorem run_unmixed (tickerId : ℕ) (rs : List Request)
    (hjoins : Meets step JoinsOwnLevel (init tickerId) rs) {m : MEOrderBook}
    (hok : run step (init tickerId) rs = .ok m) :
    Unmixed m.book ∧ ∀ price, FindsOwnLevel m.book price ↔
      ∀ q, m.book.orderPool.isFree q = false →
        priceToIndex (m.book.order q).price = priceToIndex price →
          (m.book.order q).price = price := by
  have hkept : Kept m.book :=
    run_invariant (P := fun m => Kept m.book) (kept_init tickerId) hjoins
      (fun _ _ _ h hr hs => kept_step h hr hs) hok
  exact ⟨hkept.unmixed, hkept.findsOwnLevel_iff⟩

/-- Two levels with two orders each, one of them partly sold, and a cancellation. -/
theorem run_unmixed_two_levels :
    ∃ m, run step (init 0) [.add 0 0 0 .buy 10 5, .add 0 1 0 .buy 268 5, .add 1 0 0 .buy 10 5,
        .add 1 1 0 .sell 268 3, .add 2 0 0 .buy 268 1, .cancel 0 0 0] = .ok m ∧
      Unmixed m.book ∧ ∀ price, FindsOwnLevel m.book price ↔
        ∀ q, m.book.orderPool.isFree q = false →
          priceToIndex (m.book.order q).price = priceToIndex price →
            (m.book.order q).price = price := by
  have hread : (run step (init 0) [.add 0 0 0 .buy 10 5, .add 0 1 0 .buy 268 5,
      .add 1 0 0 .buy 10 5, .add 1 1 0 .sell 268 3, .add 2 0 0 .buy 268 1, .cancel 0 0 0]).map
      (fun m => (m.book.readLevels true).map m.book.readOrders) = .ok [[1, 3], [2]] := by
    decide +kernel
  cases hrun : run step (init 0) [.add 0 0 0 .buy 10 5, .add 0 1 0 .buy 268 5,
      .add 1 0 0 .buy 10 5, .add 1 1 0 .sell 268 3, .add 2 0 0 .buy 268 1, .cancel 0 0 0] with
  | error f =>
    rw [hrun] at hread
    cases hread
  | ok m => exact ⟨m, rfl, run_unmixed 0 _ (by decide +kernel) hrun⟩

/-- A sell at 266 comes to rest in the queue of the bids at 10. -/
theorem sell_queues_behind_bid :
    (([.add 0 0 0 .buy 10 5, .add 1 0 0 .sell 266 5] : List Request).filterMap
        Request.newKey).Nodup ∧
      ∃ m, run step (init 0) [.add 0 0 0 .buy 10 5, .add 1 0 0 .sell 266 5] = .ok m ∧
        ¬Unmixed m.book ∧ ¬FindsOwnLevel m.book 266 := by
  have hread : (run step (init 0) [.add 0 0 0 .buy 10 5, .add 1 0 0 .sell 266 5]).map (fun m =>
      (m.book.ordersAtPricePool.isFree 0, (m.book.level 0).firstOrder, (m.book.level 0).price,
        (m.book.order 1).price, m.book.getOrdersAtPrice 266)) =
      .ok (false, some 0, 10, 266, some 0) := by
    decide
  have hlinks : (run step (init 0) [.add 0 0 0 .buy 10 5, .add 1 0 0 .sell 266 5]).map (fun m =>
      (m.book.nextOrder 0, m.book.prevOrder 0, m.book.nextOrder 1, m.book.prevOrder 1)) =
      .ok (some 1, some 1, some 0, some 0) := by
    decide
  refine ⟨by decide, ?_⟩
  obtain ⟨m, hrun, hpair⟩ := map_eq_ok hread
  rw [hrun] at hlinks
  simp only [Except.map, Except.ok.injEq, Prod.mk.injEq] at hpair hlinks
  obtain ⟨hused, hfirst, hlevel, horder, hfound⟩ := hpair
  obtain ⟨hn₀, hp₀, hn₁, hp₁⟩ := hlinks
  have hqueue : OrderQueue m.book 0 [0, 1] := by
    constructor
    · exact hfirst
    · simp
    · constructor
      · decide
      · simp [Linked, hn₀, hp₀, hn₁, hp₁]
  refine ⟨m, hrun, ?_, ?_⟩
  · intro hunmixed
    have hprice := (hunmixed.own 0 [0, 1] hused hqueue 1 (by simp)).1
    rw [horder, hlevel] at hprice
    omega
  · intro hfinds
    have hprice := hfinds 0 hfound
    rw [hlevel] at hprice
    omega

end Steps

end HighPerformance.MEOrderBook
