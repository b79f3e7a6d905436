import HighPerformance.Messages
import HighPerformance.PriceLevels

/-!
# The trading client's order book

`MarketOrderBook` on top of the common price levels. `onMarketUpdate` ends with
a log line whose argument `toString(false, true)` walks over both sides and
checks that the prices are sorted. The check is part of the program whether or
not anything is printed, so it is modelled; the printed text is not.

The callbacks into the trade engine read the book and leave it as it is.
-/

namespace HighPerformance

/-- The field that identifies a `MarketOrder`. -/
structure MarketOrderId where
  orderId : ℕ := orderIdInvalid
  deriving DecidableEq

instance : Inhabited MarketOrderId := ⟨{}⟩

abbrev MarketOrder := BookOrder MarketOrderId

def marketBookKind : BookKind MarketOrderId ℕ where
  key := fun o => o.orderId
  checkKey := at? "oid_to_order_" meMaxOrderIds
  startsAfter := behind

/-- Best bid and offer. -/
structure BBO where
  bidPrice : ℕ := priceInvalid
  askPrice : ℕ := priceInvalid
  bidQty : ℕ := qtyInvalid
  askQty : ℕ := qtyInvalid
  deriving DecidableEq, Repr

structure MarketOrderBook where
  tickerId : ℕ
  book : LevelBook MarketOrderId ℕ
  bbo : BBO := {}

namespace LevelBook

/-- The loop of `updateBBO` behind the first order. -/
def sumQty (b : LevelBook MarketOrderId ℕ) (first : Ptr) : ℕ → Option Ptr → ℕ → Except Fault ℕ
  | 0, _, _ => .error .diverges
  | fuel + 1, order, qty =>
      if order = some first then .ok qty
      else do
        let p ← deref order
        sumQty b first fuel (b.order p).nextOrder ((qty + (b.order p).qty) % 2 ^ 32)

/-- Price and quantity of the best level of one side. -/
def bestQuote (b : LevelBook MarketOrderId ℕ) (best : Option Ptr) : Except Fault (ℕ × ℕ) :=
  match best with
  | none => .ok (priceInvalid, qtyInvalid)
  | some l => do
      let first ← deref (b.level l).firstOrder
      let qty ← sumQty b first (b.orderPool.size + 1) (b.order first).nextOrder (b.order first).qty
      return ((b.level l).price, qty)

/-- `MarketOrder::toString` -/
def orderText (b : LevelBook MarketOrderId ℕ) (p : Ptr) : String :=
  let idOf : Option Ptr → ℕ := fun q => match q with
    | none => orderIdInvalid
    | some q => (b.order q).ident.orderId
  "MarketOrder [oid:" ++ orderIdToString (b.order p).ident.orderId ++
    " side:" ++ sideToString (b.order p).side ++ " price:" ++ priceToString (b.order p).price ++
    " prio:" ++ priorityToString (b.order p).priority ++
    " prev:" ++ orderIdToString (idOf (b.order p).prevOrder) ++
    " next:" ++ orderIdToString (idOf (b.order p).nextOrder) ++ "]"

/-- `MarketOrdersAtPrice::toString` -/
def levelText (b : LevelBook MarketOrderId ℕ) (l : Ptr) : String :=
  let priceOf : Option Ptr → ℕ := fun q => match q with
    | none => priceInvalid
    | some q => (b.level q).price
  let firstText := match (b.level l).firstOrder with
    | none => "null"
    | some p => orderText b p
  "MarketOrdersAtPrice [side:" ++ sideToString (b.level l).side ++
    " price:" ++ priceToString (b.level l).price ++ "first_mkt_order:" ++ firstText ++
    " prev:" ++ priceToString (priceOf (b.level l).prevEntry) ++
    " next:" ++ priceToString (priceOf (b.level l).nextEntry) ++ " ]"

/-- The loops of `printer` over the orders of a level. -/
def printOrders (b : LevelBook MarketOrderId ℕ) (first : Option Ptr) :
    ℕ → Option Ptr → Except Fault Unit
  | 0, _ => .error .diverges
  | fuel + 1, order => do
      let p ← deref order
      if (b.order p).nextOrder = first then .ok ()
      else printOrders b first fuel (b.order p).nextOrder

/-- `printer` with `sanity_check`: the last price becomes that of the level. -/
def printLevel (b : LevelBook MarketOrderId ℕ) (l : Ptr) (side : Side) (lastPrice : ℕ) :
    Except Fault ℕ := do
  printOrders b (b.level l).firstOrder (b.orderPool.size + 1) (b.level l).firstOrder
  let _ ← deref (b.level l).prevEntry
  let _ ← deref (b.level l).nextEntry
  if (side = .sell ∧ lastPrice ≥ (b.level l).price) ∨ (side = .buy ∧ lastPrice ≤ (b.level l).price)
  then .error (.fatal ("Bids/Asks not sorted by ascending/descending prices last:" ++
    priceToString lastPrice ++ " itr:" ++ levelText b l))
  else .ok (b.level l).price

/-- The loop of `toString` over the levels of one side. -/
def printSide (b : LevelBook MarketOrderId ℕ) (side : Side) (best : Option Ptr) :
    ℕ → Option Ptr → ℕ → Except Fault Unit
  | 0, _, _ => .error .diverges
  | _ + 1, none, _ => .ok ()
  | fuel + 1, some l, lastPrice => do
      let next := if (b.level l).nextEntry = best then none else (b.level l).nextEntry
      let lastPrice ← printLevel b l side lastPrice
      printSide b side best fuel next lastPrice

/-- What `toString(false, true)` does besides printing. The last prices start
with the least and the greatest `Price`. -/
def sanityCheck (b : LevelBook MarketOrderId ℕ) : Except Fault Unit := do
  let fuel := b.ordersAtPricePool.size + 1
  printSide b .sell b.asksByPrice fuel b.asksByPrice 0
  printSide b .buy b.bidsByPrice fuel b.bidsByPrice priceInvalid

/-- `CLEAR`, first loop: the live orders with an identification below `n`. -/
def clearOrders (b : LevelBook MarketOrderId ℕ) : ℕ → Except Fault (MemPool MarketOrder)
  | 0 => .ok b.orderPool
  | n + 1 => do
      let pool ← clearOrders b n
      match b.idToOrder n with
      | none => return pool
      | some p => pool.deallocate p

/-- `CLEAR`, the loop over the levels of one side behind the best one. -/
def clearBehind (best : Ptr) :
    ℕ → Option Ptr → MemPool OrdersAtPrice → Except Fault (MemPool OrdersAtPrice)
  | 0, _, _ => .error .diverges
  | fuel + 1, l, pool =>
      if l = some best then .ok pool
      else do
        let l ← deref l
        let pool ← pool.deallocate l
        clearBehind best fuel (pool.get l).nextEntry pool

def clearLevels (best : Option Ptr) (pool : MemPool OrdersAtPrice) :
    Except Fault (MemPool OrdersAtPrice) :=
  match best with
  | none => .ok pool
  | some l => do
      let pool ← clearBehind l (pool.size + 1) (pool.get l).nextEntry pool
      pool.deallocate l

/-- `CLEAR` leaves the table of the levels as it is. -/
def clear (b : LevelBook MarketOrderId ℕ) : Except Fault (LevelBook MarketOrderId ℕ) := do
  let orders ← clearOrders b meMaxOrderIds
  let levels ← clearLevels b.bidsByPrice b.ordersAtPricePool
  let levels ← clearLevels b.asksByPrice levels
  return { b with
    idToOrder := fun id => if id < meMaxOrderIds then none else b.idToOrder id
    orderPool := orders, ordersAtPricePool := levels, bidsByPrice := none, asksByPrice := none }

end LevelBook

namespace MarketOrderBook

def init (tickerId : ℕ) : MarketOrderBook := { tickerId := tickerId, book := .init }

def updateBBO (m : MarketOrderBook) (updateBid updateAsk : Bool) :
    Except Fault MarketOrderBook := do
  let bid ← if updateBid then m.book.bestQuote m.book.bidsByPrice
    else pure (m.bbo.bidPrice, m.bbo.bidQty)
  let ask ← if updateAsk then m.book.bestQuote m.book.asksByPrice
    else pure (m.bbo.askPrice, m.bbo.askQty)
  return { m with
    bbo := { bidPrice := bid.1, askPrice := ask.1, bidQty := bid.2, askQty := ask.2 } }

/-- The pointer that `oid_to_order_.at` returns; it may be null. -/
def lookup (m : MarketOrderBook) (orderId : ℕ) : Except Fault Ptr := do
  at? "oid_to_order_" meMaxOrderIds orderId
  deref (m.book.idToOrder orderId)

/-- The `switch` of `onMarketUpdate`, without `TRADE`. -/
def applyUpdate (m : MarketOrderBook) (u : MEMarketUpdate) :
    Except Fault (LevelBook MarketOrderId ℕ) :=
  match u.type with
  | .add => do
      let a ← m.book.orderPool.allocate
        { ident := ⟨u.orderId⟩, side := u.side, price := u.price, qty := u.qty
          priority := u.priority }
      LevelBook.addOrder marketBookKind { m.book with orderPool := a.2 } a.1
  | .modify => do
      let p ← m.lookup u.orderId
      return m.book.setQty p u.qty
  | .cancel => do
      let p ← m.lookup u.orderId
      m.book.removeOrder marketBookKind p
  | .clear => m.book.clear
  | _ => .ok m.book

def bidUpdated (m : MarketOrderBook) (u : MEMarketUpdate) : Bool :=
  match m.book.bidsByPrice with
  | none => false
  | some l => u.side == .buy && decide (u.price ≥ (m.book.level l).price)

def askUpdated (m : MarketOrderBook) (u : MEMarketUpdate) : Bool :=
  match m.book.asksByPrice with
  | none => false
  | some l => u.side == .sell && decide (u.price ≤ (m.book.level l).price)

def onMarketUpdate (m : MarketOrderBook) (u : MEMarketUpdate) : Except Fault MarketOrderBook := do
  if u.type = .trade then return m
  let book ← m.applyUpdate u
  -- both flags come from the book before the update
  let m ← updateBBO { m with book := book } (m.bidUpdated u) (m.askUpdated u)
  m.book.sanityCheck
  return m

end MarketOrderBook

end HighPerformance
