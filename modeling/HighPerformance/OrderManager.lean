import HighPerformance.PositionKeeper

/-!
# Risk checks and the order manager

`RiskInfo::checkPreTradeRisk` and the state machine of `OrderManager`, which has one order for
each ticker and side. A new order is only logged: `newOrder` builds the request and does not
send it, while `cancelOrder` hands its request to the gateway's queue.
-/

namespace HighPerformance

inductive RiskCheckResult where
  | invalid | orderTooLarge | positionTooLarge | lossTooLarge | allowed
  deriving DecidableEq, Repr

structure RiskCfg (F : Type) where
  maxOrderSize : ℕ
  maxPosition : ℕ
  maxLoss : F

structure TradeEngineCfg (F : Type) where
  clip : ℕ
  threshold : F
  riskCfg : RiskCfg F

structure RiskInfo (F : Type) [NatCast F] where
  positionInfo : PositionInfo F
  riskCfg : RiskCfg F

/-- All arithmetic is of type `int`. -/
def RiskInfo.checkPreTradeRisk {F : Type} [NatCast F] [LT F] [DecidableLT F] (r : RiskInfo F)
    (side : Side) (qty : ℕ) : Except Fault RiskCheckResult := do
  if qty > r.riskCfg.maxOrderSize then return .orderTooLarge
  let change ← int32 (sideToValue side * toInt32 qty)
  let position ← int32 (r.positionInfo.position + change)
  let size ← int32 |position|
  if size > toInt32 r.riskCfg.maxPosition then return .positionTooLarge
  if r.positionInfo.totalPnl < r.riskCfg.maxLoss then return .lossTooLarge
  return .allowed

theorem RiskInfo.checkPreTradeRisk_allowed {F : Type} [NatCast F] [LT F] [DecidableLT F]
    {r : RiskInfo F} {side : Side} {qty : ℕ}
    (h : r.checkPreTradeRisk side qty = .ok .allowed) :
    qty ≤ r.riskCfg.maxOrderSize ∧
      |r.positionInfo.position + sideToValue side * toInt32 qty| ≤
        toInt32 r.riskCfg.maxPosition := by
  unfold checkPreTradeRisk at h
  split at h
  next => cases h
  next hqty =>
    obtain ⟨change, hchange, h⟩ := bind_eq_ok.mp h
    obtain ⟨position, hposition, h⟩ := bind_eq_ok.mp h
    obtain ⟨size, hsize, h⟩ := bind_eq_ok.mp h
    obtain ⟨-, rfl⟩ := int32_eq_ok.mp hchange
    obtain ⟨-, rfl⟩ := int32_eq_ok.mp hposition
    obtain ⟨-, rfl⟩ := int32_eq_ok.mp hsize
    split at h
    next => cases h
    next hlimit => exact ⟨le_of_not_gt hqty, le_of_not_gt hlimit⟩

inductive OMOrderState where
  | invalid | pendingNew | live | pendingCancel | dead
  deriving DecidableEq, Repr

structure OMOrder where
  tickerId : ℕ := tickerIdInvalid
  orderId : ℕ := orderIdInvalid
  side : Side := .invalid
  price : ℕ := priceInvalid
  qty : ℕ := qtyInvalid
  orderState : OMOrderState := .invalid
  deriving DecidableEq, Repr

/-- What the order manager logs when it acts on one of its orders. -/
inductive Decision where
  | newOrder (price : ℕ) (side : Side) (qty : ℕ)
  | cancelOrder (price : ℕ) (side : Side) (qty : ℕ)
  deriving DecidableEq, Repr

/-- `requests` are the requests in the gateway's queue. `decisions` is not a variable of the
program: it keeps the decisions that are logged, with the ticker of the order. -/
structure OrderManager where
  clientId : ℕ
  tickerSideOrder : ℕ → ℕ → OMOrder := fun _ _ => {}
  nextOrderId : ℕ := 1
  requests : List MEClientRequest := []
  decisions : List (ℕ × Decision) := []

namespace OrderManager

def setOrder (m : OrderManager) (tickerId index : ℕ) (order : OMOrder) : OrderManager :=
  { m with
    tickerSideOrder := Function.update m.tickerSideOrder tickerId
      (Function.update (m.tickerSideOrder tickerId) index order) }

def newOrder (m : OrderManager) (tickerId price : ℕ) (side : Side) (qty : ℕ) : OrderManager :=
  { m.setOrder tickerId (sideToIndex side)
      { tickerId, orderId := m.nextOrderId, side, price, qty, orderState := .pendingNew } with
    nextOrderId := (m.nextOrderId + 1) % 2 ^ 64
    decisions := m.decisions ++ [(tickerId, .newOrder price side qty)] }

/-- The request has the fields of the order. -/
def cancelOrder (m : OrderManager) (tickerId index : ℕ) : OrderManager :=
  let order := m.tickerSideOrder tickerId index
  { m.setOrder tickerId index { order with orderState := .pendingCancel } with
    requests := m.requests ++
      [{ type := .cancel, clientId := m.clientId, tickerId := order.tickerId
         orderId := order.orderId, side := order.side, price := order.price, qty := order.qty }]
    decisions := m.decisions ++
      [(tickerId, .cancelOrder order.price order.side order.qty)] }

section Moves
variable {F : Type} [NatCast F] [LT F] [DecidableLT F]

/-- `tickerRisk` are the entries of the risk manager. -/
def moveOrder (tickerRisk : ℕ → RiskInfo F) (m : OrderManager) (tickerId price : ℕ) (side : Side)
    (qty : ℕ) : Except Fault OrderManager :=
  let order := m.tickerSideOrder tickerId (sideToIndex side)
  match order.orderState with
  | .live =>
      if order.price ≠ price ∨ order.qty ≠ qty then .ok (m.cancelOrder tickerId (sideToIndex side))
      else .ok m
  | .invalid | .dead =>
      if price = priceInvalid then .ok m
      else do
        let result ← (tickerRisk tickerId).checkPreTradeRisk side qty
        if result = .allowed then return m.newOrder tickerId price side qty
        return m
  | .pendingNew | .pendingCancel => .ok m

def moveOrders (tickerRisk : ℕ → RiskInfo F) (m : OrderManager) (tickerId bidPrice askPrice : ℕ)
    (clip : ℕ) : Except Fault OrderManager := do
  at? "ticker_side_order_" meMaxTickers tickerId
  let m ← moveOrder tickerRisk m tickerId bidPrice .buy clip
  moveOrder tickerRisk m tickerId askPrice .sell clip

end Moves

/-- The effect of a response on its order. -/
def updatedOrder (order : OMOrder) (r : MEClientResponse) : OMOrder :=
  match r.type with
  | .accepted => { order with orderState := .live }
  | .canceled => { order with orderState := .dead }
  | .filled =>
      let order := { order with qty := r.leavesQty }
      if order.qty = 0 then { order with orderState := .dead } else order
  | _ => order

def onOrderUpdate (m : OrderManager) (r : MEClientResponse) : Except Fault OrderManager := do
  at? "ticker_side_order_" meMaxTickers r.tickerId
  at? "OMOrderSideHashMap" openVwapSize (sideToIndex r.side)
  return m.setOrder r.tickerId (sideToIndex r.side)
    (updatedOrder (m.tickerSideOrder r.tickerId (sideToIndex r.side)) r)

/-- The decisions for the orders of one ticker. -/
def decisionsFor (m : OrderManager) (tickerId : ℕ) : List Decision :=
  (m.decisions.filter fun d => d.1 = tickerId).map (·.2)

section Moves
variable {F : Type} [NatCast F] [LT F] [DecidableLT F] {risk : ℕ → RiskInfo F}
  {tickerId price qty : ℕ} {side : Side} {m : OrderManager}

/-- The three things that `moveOrder` may do. The choice depends on the risk of the ticker and on
the order, whose number plays no part. -/
inductive Move where
  | keep | cancel | new
  deriving DecidableEq

def plannedMove (risk : RiskInfo F) (order : OMOrder) (price : ℕ) (side : Side) (qty : ℕ) :
    Except Fault Move :=
  match order.orderState with
  | .live => .ok (if order.price ≠ price ∨ order.qty ≠ qty then .cancel else .keep)
  | .invalid | .dead =>
      if price = priceInvalid then .ok .keep
      else do
        let result ← risk.checkPreTradeRisk side qty
        return if result = .allowed then .new else .keep
  | .pendingNew | .pendingCancel => .ok .keep

def applyMove (m : OrderManager) (tickerId price : ℕ) (side : Side) (qty : ℕ) :
    Move → OrderManager
  | .keep => m
  | .cancel => m.cancelOrder tickerId (sideToIndex side)
  | .new => m.newOrder tickerId price side qty

theorem enter_eq {check : Except Fault RiskCheckResult} :
    (do let result ← check
        if result = RiskCheckResult.allowed then return m.newOrder tickerId price side qty
        return m) =
      (do let result ← check
          return if result = RiskCheckResult.allowed then Move.new else .keep).map
        (m.applyMove tickerId price side qty) := by
  cases check with
  | error e => rfl
  | ok result =>
    change (if result = .allowed then Except.ok (m.newOrder tickerId price side qty) else .ok m) =
      .ok (m.applyMove tickerId price side qty (if result = .allowed then .new else .keep))
    split <;> rfl

theorem moveOrder_eq : moveOrder risk m tickerId price side qty =
    (plannedMove (risk tickerId) (m.tickerSideOrder tickerId (sideToIndex side)) price side
      qty).map (m.applyMove tickerId price side qty) := by
  unfold moveOrder plannedMove
  cases hstate : (m.tickerSideOrder tickerId (sideToIndex side)).orderState with
  | live =>
    simp only [hstate]
    split <;> rfl
  | invalid =>
    simp only [hstate]
    split
    · rfl
    · exact enter_eq
  | dead =>
    simp only [hstate]
    split
    · rfl
    · exact enter_eq
  | pendingNew => simp only [hstate, Except.map, applyMove]
  | pendingCancel => simp only [hstate, Except.map, applyMove]

theorem plannedMove_cancel {risk : RiskInfo F} {order : OMOrder}
    (h : plannedMove risk order price side qty = .ok .cancel) : order.orderState = .live := by
  unfold plannedMove at h
  split at h
  next hlive => exact hlive
  next =>
    split at h
    · cases h
    · obtain ⟨result, -, h⟩ := bind_eq_ok.mp h
      split at h <;> cases h
  next =>
    split at h
    · cases h
    · obtain ⟨result, -, h⟩ := bind_eq_ok.mp h
      split at h <;> cases h
  next => cases h
  next => cases h

/-- A new order takes the place of one that has never been sent or is dead. -/
theorem plannedMove_new {risk : RiskInfo F} {order : OMOrder}
    (h : plannedMove risk order price side qty = .ok .new) :
    (order.orderState = .invalid ∨ order.orderState = .dead) ∧
      risk.checkPreTradeRisk side qty = .ok .allowed := by
  unfold plannedMove at h
  split at h
  next => split at h <;> cases h
  next hstate =>
    split at h
    · cases h
    · obtain ⟨result, hresult, h⟩ := bind_eq_ok.mp h
      split at h
      next hallowed => exact ⟨.inl hstate, by rw [hresult, hallowed]⟩
      next => cases h
  next hstate =>
    split at h
    · cases h
    · obtain ⟨result, hresult, h⟩ := bind_eq_ok.mp h
      split at h
      next hallowed => exact ⟨.inr hstate, by rw [hresult, hallowed]⟩
      next => cases h
  next => cases h
  next => cases h

/-- The order has never been opened or is dead, its price is valid and the risk check allows it. -/
def Opens (risk : RiskInfo F) (order : OMOrder) (price : ℕ) (side : Side) (qty : ℕ) : Prop :=
  (order.orderState = .invalid ∨ order.orderState = .dead) ∧ price ≠ priceInvalid ∧
    risk.checkPreTradeRisk side qty = .ok .allowed

theorem opens_iff {risk : RiskInfo F} {order : OMOrder} :
    Opens risk order price side qty ↔
      plannedMove risk order price side qty = .ok .new := by
  constructor
  · intro h
    obtain ⟨hstate, hprice, hrisk⟩ := h
    rcases hstate with hs | hs
    · simp [plannedMove, hs, hprice, hrisk]
    · simp [plannedMove, hs, hprice, hrisk]
  · intro h
    have hnew := plannedMove_new h
    refine ⟨hnew.1, ?_, hnew.2⟩
    intro hprice
    rcases hnew.1 with hs | hs
    · simp [plannedMove, hs, hprice] at h
    · simp [plannedMove, hs, hprice] at h

/-- The order after a move, which is the only one that the move changes. -/
def movedOrder (m : OrderManager) (tickerId price : ℕ) (side : Side) (qty : ℕ) : Move → OMOrder
  | .keep => m.tickerSideOrder tickerId (sideToIndex side)
  | .cancel =>
      { m.tickerSideOrder tickerId (sideToIndex side) with orderState := .pendingCancel }
  | .new => { tickerId, orderId := m.nextOrderId, side, price, qty, orderState := .pendingNew }

theorem setOrder_eq (m : OrderManager) (tickerId index : ℕ) (order : OMOrder) (t i : ℕ) :
    (m.setOrder tickerId index order).tickerSideOrder t i =
      if t = tickerId ∧ i = index then order else m.tickerSideOrder t i := by
  by_cases ht : t = tickerId
  · subst ht
    by_cases hi : i = index
    · subst hi
      simp [setOrder]
    · simp [setOrder, hi]
  · simp [setOrder, ht]

theorem applyMove_order (move : Move) (t i : ℕ) :
    (m.applyMove tickerId price side qty move).tickerSideOrder t i =
      if t = tickerId ∧ i = sideToIndex side then m.movedOrder tickerId price side qty move
      else m.tickerSideOrder t i := by
  cases move with
  | keep =>
    split
    next h => rw [h.1, h.2, movedOrder, applyMove]
    next => rfl
  | cancel => exact setOrder_eq m _ _ _ t i
  | new => exact setOrder_eq m _ _ _ t i

theorem applyMove_own (move : Move) :
    (m.applyMove tickerId price side qty move).tickerSideOrder tickerId (sideToIndex side) =
      m.movedOrder tickerId price side qty move := by
  rw [applyMove_order, if_pos ⟨rfl, rfl⟩]

/-- The two moves do not meet: they are made with the orders that the call finds. -/
theorem moveOrders_cases {bid ask clip : ℕ} {n : OrderManager}
    (h : moveOrders risk m tickerId bid ask clip = .ok n) :
    ∃ buy sell,
      plannedMove (risk tickerId) (m.tickerSideOrder tickerId (sideToIndex .buy)) bid .buy clip =
        .ok buy ∧
      plannedMove (risk tickerId) (m.tickerSideOrder tickerId (sideToIndex .sell)) ask .sell clip =
        .ok sell ∧
      tickerId < meMaxTickers ∧
      n = (m.applyMove tickerId bid .buy clip buy).applyMove tickerId ask .sell clip sell := by
  obtain ⟨_, hat, h⟩ := bind_eq_ok.mp h
  obtain ⟨u, hu, h⟩ := bind_eq_ok.mp h
  rw [moveOrder_eq] at hu h
  obtain ⟨buy, hbuy, rfl⟩ := map_eq_ok hu
  obtain ⟨sell, hsell, rfl⟩ := map_eq_ok h
  have hne : ¬(tickerId = tickerId ∧ sideToIndex .sell = sideToIndex .buy) :=
    fun h => absurd h.2 (by decide)
  rw [applyMove_order, if_neg hne] at hsell
  exact ⟨buy, sell, hbuy, hsell, at?_eq_ok.mp hat, rfl⟩

end Moves

end OrderManager

end HighPerformance
