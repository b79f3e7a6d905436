import HighPerformance.MarketOrderBookClear
import HighPerformance.PriceLevelTable

/-!
# A book with stale entries

`CLEAR` leaves entries in the table of the levels that point to blocks it has
given back. An update at other prices does the same to the book as to the book
with these entries hidden.
-/

namespace HighPerformance

namespace LevelBook

section Walks
variable (b : LevelBook MarketOrderId ℕ) (stale : List ℕ)

theorem sumQty_hide (first : Ptr) (fuel : ℕ) (p : Option Ptr) (qty : ℕ) :
    sumQty (b.hide stale) first fuel p qty = sumQty b first fuel p qty := by
  induction fuel generalizing p qty with
  | zero => rfl
  | succ fuel ih => simp only [sumQty, order_hide, ih]

theorem bestQuote_hide (best : Option Ptr) :
    bestQuote (b.hide stale) best = bestQuote b best := by
  cases best with
  | none => rfl
  | some l => simp only [bestQuote, level_hide, order_hide, orderPool_hide, sumQty_hide]

theorem printOrders_hide (first : Option Ptr) (fuel : ℕ) (p : Option Ptr) :
    printOrders (b.hide stale) first fuel p = printOrders b first fuel p := by
  induction fuel generalizing p with
  | zero => rfl
  | succ fuel ih => simp only [printOrders, order_hide, ih]

theorem printLevel_hide (l : Ptr) (side : Side) (last : ℕ) :
    printLevel (b.hide stale) l side last = printLevel b l side last := by
  have htext : levelText (b.hide stale) l = levelText b l := rfl
  simp only [printLevel, level_hide, orderPool_hide, printOrders_hide, htext]

theorem printSide_hide (side : Side) (best : Option Ptr) (fuel : ℕ) (l : Option Ptr) (last : ℕ) :
    printSide (b.hide stale) side best fuel l last = printSide b side best fuel l last := by
  induction fuel generalizing l last with
  | zero => cases l <;> rfl
  | succ fuel ih =>
    cases l with
    | none => rfl
    | some l =>
      simp only [printSide, level_hide, printLevel_hide, ih]
      rfl

theorem sanityCheck_hide : sanityCheck (b.hide stale) = sanityCheck b := by
  have hbids : (b.hide stale).bidsByPrice = b.bidsByPrice := rfl
  have hasks : (b.hide stale).asksByPrice = b.asksByPrice := rfl
  simp only [sanityCheck, hbids, hasks, ordersAtPricePool_hide, printSide_hide]

theorem clearOrders_hide (n : ℕ) : clearOrders (b.hide stale) n = clearOrders b n := by
  induction n with
  | zero => rfl
  | succ n ih => simp only [clearOrders, ih, idToOrder_hide]

end Walks

end LevelBook

namespace MarketOrderBook
open LevelBook CircularList FallibleRun LiveOrder

section Hide
variable (m : MarketOrderBook) (stale : List ℕ) {u : MEMarketUpdate}

/-- An update meets no stale entry when it adds at a price without one and
removes an order from such a price. -/
structure AvoidsStale (u : MEMarketUpdate) : Prop where
  notClear : u.type ≠ .clear
  add : u.type = .add → priceToIndex u.price ∉ stale
  cancel : u.type = .cancel → ∀ p, m.lookup u.orderId = .ok p →
    priceToIndex (m.book.order p).price ∉ stale

theorem applyUpdate_hide (h : AvoidsStale m stale u) :
    applyUpdate { m with book := m.book.hide stale } u =
      (m.applyUpdate u).map (·.hide stale) := by
  have hlookup : lookup { m with book := m.book.hide stale } u.orderId = m.lookup u.orderId := rfl
  unfold applyUpdate
  split
  · next ht =>
    simp only [orderPool_hide]
    cases ha : m.book.orderPool.allocate
        { ident := ⟨u.orderId⟩, side := u.side, price := u.price, qty := u.qty,
          priority := u.priority } with
    | error e => rfl
    | ok a =>
      obtain ⟨-, -, hstore⟩ := MemPool.allocate_eq_ok ha
      have hprice : (a.2.get a.1).price = u.price := by simp [MemPool.get, hstore]
      exact addOrder_hide { m.book with orderPool := a.2 } stale
        (show priceToIndex (a.2.get a.1).price ∉ stale from hprice ▸ h.add ht)
  · rw [hlookup]
    cases m.lookup u.orderId <;> rfl
  · next ht =>
    rw [hlookup]
    cases hp : m.lookup u.orderId with
    | error e => rfl
    | ok p => exact removeOrder_hide m.book stale (h.cancel ht p hp)
  · next ht => exact (h.notClear ht).elim
  · rfl

end Hide

end MarketOrderBook

end HighPerformance
