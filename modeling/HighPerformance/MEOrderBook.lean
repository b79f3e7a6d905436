import HighPerformance.Messages
import HighPerformance.PriceLevels

/-!
# The exchange's order book

`MEOrderBook` on top of the common price levels. A call returns the new book
and what it sent to the matching engine, in order: client responses and market
updates go to two queues of the engine, `Outgoing` keeps them in one list.

The first comparison of `addOrdersAtPrice` in this class reads

    (side == SELL && price > target) || (price < target)

without the test for `BUY` that the two later comparisons have.
-/

namespace HighPerformance

/-- The fields that identify an `MEOrder`. -/
structure MEOrderIds where
  tickerId : ℕ := tickerIdInvalid
  clientId : ℕ := clientIdInvalid
  clientOrderId : ℕ := orderIdInvalid
  marketOrderId : ℕ := orderIdInvalid
  deriving DecidableEq

instance : Inhabited MEOrderIds := ⟨{}⟩

abbrev MEOrder := BookOrder MEOrderIds

/-- The index pair of `cid_oid_to_order_`. -/
abbrev ClientOrderKey := ℕ × ℕ

def checkClientOrderKey (key : ClientOrderKey) : Except Fault Unit := do
  at? "cid_oid_to_order_" meMaxNumClients key.1
  at? "cid_oid_to_order_" meMaxOrderIds key.2

def meBookKind : BookKind MEOrderIds ClientOrderKey where
  key := fun o => (o.clientId, o.clientOrderId)
  checkKey := checkClientOrderKey
  startsAfter := fun side price target =>
    (side == .sell && decide (target < price)) || decide (price < target)

inductive Outgoing where
  | response (r : MEClientResponse)
  | update (u : MEMarketUpdate)
  deriving DecidableEq, Repr

structure MEOrderBook where
  tickerId : ℕ
  book : LevelBook MEOrderIds ClientOrderKey
  nextMarketOrderId : ℕ := 1

namespace MEOrderBook

def init (tickerId : ℕ) : MEOrderBook := { tickerId := tickerId, book := .init }

/-- The id is returned as it is: the source has no increment here. -/
def generateNewMarketOrderId (m : MEOrderBook) : ℕ := m.nextMarketOrderId

def getNextPriority (m : MEOrderBook) (price : ℕ) : Except Fault ℕ :=
  match m.book.getOrdersAtPrice price with
  | none => .ok 1
  | some l => do
      let first ← deref (m.book.level l).firstOrder
      let last ← deref (m.book.order first).prevOrder
      return ((m.book.order last).priority + 1) % 2 ^ 64

def addOrder (m : MEOrderBook) (p : Ptr) : Except Fault MEOrderBook := do
  let book ← m.book.addOrder meBookKind p
  return { m with book := book }

def removeOrder (m : MEOrderBook) (p : Ptr) : Except Fault MEOrderBook := do
  let book ← m.book.removeOrder meBookKind p
  return { m with book := book }

/-- The request on whose behalf `checkForMatch` trades. -/
structure Incoming where
  clientId : ℕ
  clientOrderId : ℕ
  tickerId : ℕ
  side : Side
  price : ℕ
  newMarketOrderId : ℕ

/-- `match`: one trade with the resting order `itr`. -/
def matchOrder (m : MEOrderBook) (i : Incoming) (itr : Ptr) (leavesQty : ℕ) :
    Except Fault (MEOrderBook × ℕ × List Outgoing) := do
  let order := m.book.order itr
  let fillQty := min leavesQty order.qty
  let leavesQty := leavesQty - fillQty
  let restQty := order.qty - fillQty
  let m := { m with book := m.book.setQty itr restQty }
  let trade : List Outgoing :=
    [.response ⟨.filled, i.clientId, i.tickerId, i.clientOrderId, i.newMarketOrderId, i.side,
        order.price, fillQty, leavesQty⟩,
      .response ⟨.filled, order.ident.clientId, i.tickerId, order.ident.clientOrderId,
        order.ident.marketOrderId, order.side, order.price, fillQty, restQty⟩,
      .update ⟨.trade, orderIdInvalid, i.tickerId, i.side, order.price, fillQty, priorityInvalid⟩]
  if restQty = 0 then
    let m ← m.removeOrder itr
    return (m, leavesQty, trade ++ [.update ⟨.cancel, order.ident.marketOrderId, i.tickerId,
      order.side, order.price, order.qty, priorityInvalid⟩])
  else
    return (m, leavesQty, trade ++ [.update ⟨.modify, order.ident.marketOrderId, i.tickerId,
      order.side, order.price, restQty, order.priority⟩])

/-- The `while` loop of `checkForMatch` over the bids or over the asks; `stops`
is the test that leaves the loop. -/
def matchLoop (i : Incoming) (bids : Bool) (stops : ℕ → Bool) :
    ℕ → MEOrderBook → ℕ → Except Fault (MEOrderBook × ℕ × List Outgoing)
  | 0, _, _ => .error .diverges
  | fuel + 1, m, leavesQty =>
      if leavesQty = 0 then .ok (m, leavesQty, [])
      else match m.book.best bids with
        | none => .ok (m, leavesQty, [])
        | some l => do
            let itr ← deref (m.book.level l).firstOrder
            if stops (m.book.order itr).price then return (m, leavesQty, [])
            let r ← matchOrder m i itr leavesQty
            let s ← matchLoop i bids stops fuel r.1 r.2.1
            return (s.1, s.2.1, r.2.2 ++ s.2.2)

/-- Every turn of a loop that goes on has given one block back to the pool. -/
def checkForMatch (m : MEOrderBook) (i : Incoming) (qty : ℕ) :
    Except Fault (MEOrderBook × ℕ × List Outgoing) :=
  let fuel := m.book.orderPool.size + 2
  match i.side with
  | .buy => matchLoop i false (fun ask => decide (i.price < ask)) fuel m qty
  | .sell => matchLoop i true (fun bid => decide (i.price > bid)) fuel m qty
  | _ => .ok (m, qty, [])

/-- A new order block, entered into the book. -/
def restOrder (m : MEOrderBook) (order : MEOrder) : Except Fault MEOrderBook := do
  let a ← m.book.orderPool.allocate order
  addOrder { m with book := { m.book with orderPool := a.2 } } a.1

def add (m : MEOrderBook) (clientId : ℕ) (clientOrderId : ℕ) (tickerId : ℕ)
    (side : Side) (price : ℕ) (qty : ℕ) : Except Fault (MEOrderBook × List Outgoing) := do
  let newMarketOrderId := m.generateNewMarketOrderId
  let accepted : Outgoing := .response
    ⟨.accepted, clientId, tickerId, clientOrderId, newMarketOrderId, side, price, 0, qty⟩
  -- `checkForMatch` takes the market order id as a `Qty`
  let r ← m.checkForMatch
    ⟨clientId, clientOrderId, tickerId, side, price, newMarketOrderId % 2 ^ 32⟩ qty
  let m := r.1
  let leavesQty := r.2.1
  if leavesQty = 0 then return (m, accepted :: r.2.2)
  let priority ← m.getNextPriority price
  let m ← m.restOrder
    { ident := ⟨tickerId, clientId, clientOrderId, newMarketOrderId⟩
      side := side, price := price, qty := leavesQty, priority := priority }
  return (m, accepted :: r.2.2 ++
    [.update ⟨.add, newMarketOrderId, tickerId, side, price, leavesQty, priority⟩])

def cancel (m : MEOrderBook) (clientId : ℕ) (orderId : ℕ) (tickerId : ℕ) :
    Except Fault (MEOrderBook × List Outgoing) := do
  let exchangeOrder ← if clientId < meMaxNumClients then do
      at? "cid_oid_to_order_" meMaxOrderIds orderId
      pure (m.book.idToOrder (clientId, orderId))
    else pure none
  match exchangeOrder with
  | none =>
      return (m, [.response ⟨.cancelRejected, clientId, tickerId, orderId, orderIdInvalid,
        .invalid, priceInvalid, qtyInvalid, qtyInvalid⟩])
  | some p =>
      let order := m.book.order p
      let m ← m.removeOrder p
      return (m, [.update ⟨.cancel, order.ident.marketOrderId, tickerId, order.side, order.price,
          0, order.priority⟩,
        .response ⟨.canceled, clientId, tickerId, orderId, order.ident.marketOrderId, order.side,
          order.price, qtyInvalid, order.qty⟩])

end MEOrderBook

end HighPerformance
