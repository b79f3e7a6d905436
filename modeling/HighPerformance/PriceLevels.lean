import HighPerformance.MemPool

/-!
# The two-sided book of price levels

`MEOrderBook` of the exchange and `MarketOrderBook` of the trading client keep
their orders in the same way: a circular list of price levels for each side, a
circular list of orders for each level, one table from price index to level,
one from order identification to order, and two memory pools. The functions
that maintain these structures are the same code in both classes up to the
fields that identify an order and one comparison in the search for the place of
a new level. `LevelBook` and its functions are that common code; `BookKind`
holds the differences.

Pointers are nullable indices into the pools. Each assignment through a pointer
is one `modifyOrder` or `modifyLevel`, in the order of the source. A loop gets
one more step of fuel than there are blocks it can visit, so running out of
fuel means that the loop of the source never ends.
-/

namespace HighPerformance

/-- The fields that `MEOrder` and `MarketOrder` share, after those that identify
the order. -/
structure BookOrder (ι : Type) where
  ident : ι
  side : Side := .invalid
  price : ℕ := priceInvalid
  qty : ℕ := qtyInvalid
  priority : ℕ := priorityInvalid
  prevOrder : Option Ptr := none
  nextOrder : Option Ptr := none
  deriving DecidableEq

instance {ι : Type} [Inhabited ι] : Inhabited (BookOrder ι) := ⟨{ ident := default }⟩

/-- `MEOrdersAtPrice` and `MarketOrdersAtPrice` -/
structure OrdersAtPrice where
  side : Side := .invalid
  price : ℕ := priceInvalid
  firstOrder : Option Ptr := none
  prevEntry : Option Ptr := none
  nextEntry : Option Ptr := none
  deriving DecidableEq

instance : Inhabited OrdersAtPrice := ⟨{}⟩

/-- What the two book classes do differently: how an order is found in the
table of live orders, which identifications that table can hold, and the first
comparison of the search in `addOrdersAtPrice`. -/
structure BookKind (ι κ : Type) where
  key : ι → κ
  checkKey : κ → Except Fault Unit
  startsAfter : Side → ℕ → ℕ → Bool

structure LevelBook (ι κ : Type) where
  idToOrder : κ → Option Ptr
  ordersAtPricePool : MemPool OrdersAtPrice
  bidsByPrice : Option Ptr := none
  asksByPrice : Option Ptr := none
  priceOrdersAtPrices : ℕ → Option Ptr
  orderPool : MemPool (BookOrder ι)

def priceToIndex (price : ℕ) : ℕ := price % meMaxPriceLevels

/-- A new level belongs behind a level of price `target`. -/
def behind (side : Side) (price target : ℕ) : Bool :=
  (side == .sell && decide (target < price)) || (side == .buy && decide (price < target))

namespace LevelBook
variable {ι κ : Type}

/-- The members after construction, with null tables. -/
def init [Inhabited ι] : LevelBook ι κ where
  idToOrder := fun _ => none
  ordersAtPricePool := .init meMaxPriceLevels
  priceOrdersAtPrices := fun _ => none
  orderPool := .init meMaxOrderIds

def order (b : LevelBook ι κ) (p : Ptr) : BookOrder ι := b.orderPool.get p
def level (b : LevelBook ι κ) (l : Ptr) : OrdersAtPrice := b.ordersAtPricePool.get l

def modifyOrder (b : LevelBook ι κ) (p : Ptr) (f : BookOrder ι → BookOrder ι) : LevelBook ι κ :=
  { b with orderPool := b.orderPool.modify p f }

def modifyLevel (b : LevelBook ι κ) (l : Ptr) (f : OrdersAtPrice → OrdersAtPrice) :
    LevelBook ι κ :=
  { b with ordersAtPricePool := b.ordersAtPricePool.modify l f }

def setPrevOrder (b : LevelBook ι κ) (p : Ptr) (q : Option Ptr) : LevelBook ι κ :=
  b.modifyOrder p fun o => { o with prevOrder := q }
def setNextOrder (b : LevelBook ι κ) (p : Ptr) (q : Option Ptr) : LevelBook ι κ :=
  b.modifyOrder p fun o => { o with nextOrder := q }
def setFirstOrder (b : LevelBook ι κ) (l : Ptr) (q : Option Ptr) : LevelBook ι κ :=
  b.modifyLevel l fun o => { o with firstOrder := q }
def setPrevEntry (b : LevelBook ι κ) (l : Ptr) (q : Option Ptr) : LevelBook ι κ :=
  b.modifyLevel l fun o => { o with prevEntry := q }
def setNextEntry (b : LevelBook ι κ) (l : Ptr) (q : Option Ptr) : LevelBook ι κ :=
  b.modifyLevel l fun o => { o with nextEntry := q }

def setQty (b : LevelBook ι κ) (p : Ptr) (qty : ℕ) : LevelBook ι κ :=
  b.modifyOrder p fun o => { o with qty := qty }

/-- `(side == Side::BUY ? bids_by_price_ : asks_by_price_)` -/
def best (b : LevelBook ι κ) (isBid : Bool) : Option Ptr :=
  if isBid then b.bidsByPrice else b.asksByPrice

def setBest (b : LevelBook ι κ) (isBid : Bool) (l : Option Ptr) : LevelBook ι κ :=
  if isBid then { b with bidsByPrice := l } else { b with asksByPrice := l }

def getOrdersAtPrice (b : LevelBook ι κ) (price : ℕ) : Option Ptr :=
  b.priceOrdersAtPrices (priceToIndex price)

def setOrdersAtPrice (b : LevelBook ι κ) (price : ℕ) (l : Option Ptr) : LevelBook ι κ :=
  { b with priceOrdersAtPrices := Function.update b.priceOrdersAtPrices (priceToIndex price) l }

/-- The `while` loop of `addOrdersAtPrice`. -/
def seek (b : LevelBook ι κ) (side : Side) (price : ℕ) (best : Ptr) :
    ℕ → Ptr → Bool → Except Fault (Ptr × Bool)
  | 0, _, _ => .error .diverges
  | fuel + 1, target, addAfter =>
      if addAfter = true ∧ target ≠ best then
        if behind side price (b.level target).price then do
          let target ← deref (b.level target).nextEntry
          seek b side price best fuel target true
        else seek b side price best fuel target false
      else .ok (target, addAfter)

/-- `target` and `add_after` when the search of `addOrdersAtPrice` is over. -/
def findTarget (k : BookKind ι κ) (b : LevelBook ι κ) (side : Side) (price : ℕ) (best : Ptr) :
    Except Fault (Ptr × Bool) := do
  let fuel := b.ordersAtPricePool.size + 2
  if k.startsAfter side price (b.level best).price then
    let target ← deref (b.level best).nextEntry
    seek b side price best fuel target (behind side price (b.level target).price)
  else seek b side price best fuel best false

/-- "add new_orders_at_price after target" -/
def linkAfter (b : LevelBook ι κ) (l target : Ptr) : Except Fault (LevelBook ι κ) := do
  let b := b.setPrevEntry l (some target)
  let after ← deref (b.level target).nextEntry
  let b := b.setPrevEntry after (some l)
  let b := b.setNextEntry l (b.level target).nextEntry
  return b.setNextEntry target (some l)

/-- "add new orders at price before target": the four links. -/
def linkBefore (b : LevelBook ι κ) (l target : Ptr) : Except Fault (LevelBook ι κ) := do
  let b := b.setPrevEntry l (b.level target).prevEntry
  let b := b.setNextEntry l (some target)
  let before ← deref (b.level target).prevEntry
  let b := b.setNextEntry before (some l)
  return b.setPrevEntry target (some l)

/-- The new level becomes the best one when its price is better. -/
def updateBest (b : LevelBook ι κ) (l target best : Ptr) : LevelBook ι κ :=
  let side := (b.level l).side
  let price := (b.level l).price
  if (side = .buy ∧ price > (b.level best).price) ∨ (side = .sell ∧ price < (b.level best).price)
  then
    let b := b.setNextEntry target
      (if (b.level target).nextEntry = some best then some l else (b.level target).nextEntry)
    b.setBest (side == .buy) (some l)
  else b

def addOrdersAtPrice (k : BookKind ι κ) (b : LevelBook ι κ) (l : Ptr) :
    Except Fault (LevelBook ι κ) := do
  let side := (b.level l).side
  let price := (b.level l).price
  let b := b.setOrdersAtPrice price (some l)
  match b.best (side == .buy) with
  | none =>
      let b := b.setBest (side == .buy) (some l)
      return (b.setNextEntry l (some l)).setPrevEntry l (some l)
  | some best =>
      let r ← findTarget k b side price best
      if r.2 then
        let target ← if r.1 = best then deref (b.level best).prevEntry else pure r.1
        linkAfter b l target
      else
        let b ← linkBefore b l r.1
        return updateBest b l r.1 best

/-- Push the order at the end of its level's ring. -/
def appendOrder (b : LevelBook ι κ) (p l : Ptr) : Except Fault (LevelBook ι κ) := do
  let first ← deref (b.level l).firstOrder
  let last ← deref (b.order first).prevOrder
  let b := b.setNextOrder last (some p)
  let b := b.setPrevOrder p (b.order first).prevOrder
  let b := b.setNextOrder p (some first)
  return b.setPrevOrder first (some p)

/-- A level of its own for an order at a price without level. -/
def openLevel (k : BookKind ι κ) (b : LevelBook ι κ) (p : Ptr) : Except Fault (LevelBook ι κ) := do
  let b := (b.setPrevOrder p (some p)).setNextOrder p (some p)
  let r ← b.ordersAtPricePool.allocate
    { side := (b.order p).side, price := (b.order p).price, firstOrder := some p }
  addOrdersAtPrice k { b with ordersAtPricePool := r.2 } r.1

/-- The level of its price takes the order, or the order gets one. -/
def joinLevel (k : BookKind ι κ) (b : LevelBook ι κ) (p : Ptr) : Except Fault (LevelBook ι κ) :=
  match b.getOrdersAtPrice (b.order p).price with
  | none => openLevel k b p
  | some l => appendOrder b p l

def addOrder (k : BookKind ι κ) [DecidableEq κ] (b : LevelBook ι κ) (p : Ptr) :
    Except Fault (LevelBook ι κ) := do
  let b ← joinLevel k b p
  let id := k.key (b.order p).ident
  k.checkKey id
  return { b with idToOrder := Function.update b.idToOrder id (some p) }

/-- Take a level out of the ring of its side. -/
def unlinkLevel (b : LevelBook ι κ) (isBid : Bool) (l : Ptr) : Except Fault (LevelBook ι κ) := do
  let best := b.best isBid
  if (b.level l).nextEntry = some l then return b.setBest isBid none
  let before ← deref (b.level l).prevEntry
  let b := b.setNextEntry before (b.level l).nextEntry
  let after ← deref (b.level l).nextEntry
  let b := b.setPrevEntry after (b.level l).prevEntry
  let b := if best = some l then b.setBest isBid (b.level l).nextEntry else b
  return (b.setNextEntry l none).setPrevEntry l none

def removeOrdersAtPrice (b : LevelBook ι κ) (side : Side) (price : ℕ) :
    Except Fault (LevelBook ι κ) := do
  let l ← deref (b.getOrdersAtPrice price)
  let b ← unlinkLevel b (side == .buy) l
  let b := b.setOrdersAtPrice price none
  let pool ← b.ordersAtPricePool.deallocate l
  return { b with ordersAtPricePool := pool }

/-- Take an order that is not alone out of its level's ring. -/
def unlinkOrder (b : LevelBook ι κ) (p : Ptr) (ordersAtPrice : Option Ptr) :
    Except Fault (LevelBook ι κ) := do
  let before ← deref (b.order p).prevOrder
  let after ← deref (b.order p).nextOrder
  let b := b.setNextOrder before (some after)
  let b := b.setPrevOrder after (some before)
  let l ← deref ordersAtPrice
  let b := if (b.level l).firstOrder = some p then b.setFirstOrder l (some after) else b
  return (b.setNextOrder p none).setPrevOrder p none

/-- Out of its level; the level goes too when the order is its only one. -/
def leaveLevel (b : LevelBook ι κ) (p : Ptr) : Except Fault (LevelBook ι κ) :=
  let o := b.order p
  if o.prevOrder = some p then removeOrdersAtPrice b o.side o.price
  else unlinkOrder b p (b.getOrdersAtPrice o.price)

def removeOrder (k : BookKind ι κ) [DecidableEq κ] (b : LevelBook ι κ) (p : Ptr) :
    Except Fault (LevelBook ι κ) := do
  let b ← leaveLevel b p
  let id := k.key (b.order p).ident
  k.checkKey id
  let b := { b with idToOrder := Function.update b.idToOrder id none }
  let pool ← b.orderPool.deallocate p
  return { b with orderPool := pool }

end LevelBook

end HighPerformance
