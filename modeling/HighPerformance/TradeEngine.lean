import HighPerformance.OrderManager

/-!
# The trade engine and its two strategies

One trade engine has a book, a position and two orders for each ticker, and one feature engine
and one order manager for all of them. A market update goes to its ticker's book, which calls
the engine back; a response goes to the position keeper and the strategy. In the program the
callback stands between the update of the book and the check in its log line; a failed check
ends the process, so the order of the two does not show.
-/

namespace HighPerformance

inductive AlgoType where
  | invalid | random | maker | taker | max
  deriving DecidableEq, Repr

def BBO.valid (bbo : BBO) : Prop := bbo.bidPrice ≠ priceInvalid ∧ bbo.askPrice ≠ priceInvalid

instance {bbo : BBO} : Decidable bbo.valid := inferInstanceAs (Decidable (_ ∧ _))

/-- The features; `none` is the NaN they start with. -/
structure FeatureEngine (F : Type) where
  mktPrice : Option F := none
  aggTradeQtyRatio : Option F := none

section Features
variable {F : Type} [NatCast F] [Div F] [Sub F] [LE F] [DecidableLE F]

/-- Products and sums of prices are 64 bits wide, the sum of the quantities 32. -/
def FeatureEngine.onOrderBookUpdate (f : FeatureEngine F) (bbo : BBO) : FeatureEngine F :=
  if bbo.valid then
    { f with mktPrice := some (((bbo.bidPrice * bbo.askQty + bbo.askPrice * bbo.bidQty) % 2 ^ 64 :
        ℕ) / ((bbo.bidQty + bbo.askQty) % 2 ^ 32 : ℕ)) }
  else f

def FeatureEngine.onTradeUpdate (f : FeatureEngine F) (u : MEMarketUpdate) (bbo : BBO) :
    FeatureEngine F :=
  if bbo.valid then
    { f with aggTradeQtyRatio := some ((u.qty : F) /
        ((if u.side = .buy then bbo.askQty else bbo.bidQty : ℕ) : F)) }
  else f

/-- A comparison with NaN is false. -/
def FeatureEngine.atLeast (feature : Option F) (threshold : F) : Bool :=
  match feature with
  | none => false
  | some x => decide (x ≥ threshold)

/-- The quote beside one side of the market. -/
def MarketMaker.quote (price : ℕ) (fairPrice : Option F) (threshold : F) : ℕ :=
  if FeatureEngine.atLeast (fairPrice.map (· - (price : F))) threshold then price
  else (price + (2 ^ 64 - 1)) % 2 ^ 64

/-- The bid and the ask that the market maker moves its orders to. A fair price is never equal
to NaN, so the third part of the test holds. -/
def MarketMaker.quotes (bbo : BBO) (fairPrice : Option F) (threshold : F) : Option (ℕ × ℕ) :=
  if bbo.valid then
    some (quote bbo.bidPrice fairPrice threshold, quote bbo.askPrice fairPrice threshold)
  else none

/-- The bid and the ask that the liquidity taker moves its orders to. -/
def LiquidityTaker.quotes (u : MEMarketUpdate) (bbo : BBO) (aggQtyRatio : Option F)
    (threshold : F) : Option (ℕ × ℕ) :=
  if bbo.valid ∧ FeatureEngine.atLeast aggQtyRatio threshold then
    if u.side = .buy then some (bbo.askPrice, priceInvalid) else some (priceInvalid, bbo.bidPrice)
  else none

end Features

structure TradeEngine (F : Type) [NatCast F] where
  algoType : AlgoType
  tickerCfg : ℕ → TradeEngineCfg F
  tickerOrderBook : ℕ → MarketOrderBook := MarketOrderBook.init
  featureEngine : FeatureEngine F := {}
  positionKeeper : PositionKeeper F := {}
  orderManager : OrderManager

namespace TradeEngine
variable {F : Type} [NatCast F] [IntCast F] [Add F] [Sub F] [Mul F] [Div F] [LT F] [DecidableLT F]
  [LE F] [DecidableLE F]

def init (clientId : ℕ) (algoType : AlgoType) (tickerCfg : ℕ → TradeEngineCfg F) : TradeEngine F :=
  { algoType, tickerCfg, orderManager := { clientId } }

/-- `ticker_risk_` points to the positions and has a copy of the configuration. -/
def tickerRisk (e : TradeEngine F) : ℕ → RiskInfo F := fun t =>
  { positionInfo := e.positionKeeper.tickerPosition t, riskCfg := (e.tickerCfg t).riskCfg }

/-- Both strategies end with a call of `moveOrders`, if they act at all. -/
def moveTo (e : TradeEngine F) (tickerId : ℕ) (quotes : Option (ℕ × ℕ)) :
    Except Fault (TradeEngine F) :=
  match quotes with
  | none => .ok e
  | some (bid, ask) => do
      let m ← OrderManager.moveOrders e.tickerRisk e.orderManager tickerId bid ask
        (e.tickerCfg tickerId).clip
      return { e with orderManager := m }

def algoOnOrderBookUpdate (e : TradeEngine F) (tickerId : ℕ) (bbo : BBO) :
    Except Fault (TradeEngine F) :=
  match e.algoType with
  | .maker =>
      e.moveTo tickerId
        (MarketMaker.quotes bbo e.featureEngine.mktPrice (e.tickerCfg tickerId).threshold)
  | _ => .ok e

def algoOnTradeUpdate (e : TradeEngine F) (u : MEMarketUpdate) (bbo : BBO) :
    Except Fault (TradeEngine F) :=
  match e.algoType with
  | .taker =>
      e.moveTo u.tickerId (LiquidityTaker.quotes u bbo e.featureEngine.aggTradeQtyRatio
        (e.tickerCfg u.tickerId).threshold)
  | _ => .ok e

def algoOnOrderUpdate (e : TradeEngine F) (r : MEClientResponse) : Except Fault (TradeEngine F) :=
  match e.algoType with
  | .maker | .taker => do
      let m ← e.orderManager.onOrderUpdate r
      return { e with orderManager := m }
  | _ => .ok e

def onOrderBookUpdate (e : TradeEngine F) (tickerId : ℕ) (bbo : BBO) :
    Except Fault (TradeEngine F) := do
  let k ← e.positionKeeper.updateBBO tickerId bbo
  algoOnOrderBookUpdate
    { e with positionKeeper := k, featureEngine := e.featureEngine.onOrderBookUpdate bbo }
    tickerId bbo

def onTradeUpdate (e : TradeEngine F) (u : MEMarketUpdate) (bbo : BBO) :
    Except Fault (TradeEngine F) :=
  algoOnTradeUpdate { e with featureEngine := e.featureEngine.onTradeUpdate u bbo } u bbo

def onOrderUpdate (e : TradeEngine F) (r : MEClientResponse) : Except Fault (TradeEngine F) := do
  let k ← if r.type = .filled then e.positionKeeper.addFill r else pure e.positionKeeper
  algoOnOrderUpdate { e with positionKeeper := k } r

/-- What `run` does with one market update. -/
def onMarketUpdate (e : TradeEngine F) (u : MEMarketUpdate) : Except Fault (TradeEngine F) := do
  assert (u.tickerId < meMaxTickers) ("Unknown ticker-id on update:" ++ u.toString)
  let book ← (e.tickerOrderBook u.tickerId).onMarketUpdate u
  let e := { e with tickerOrderBook := Function.update e.tickerOrderBook u.tickerId book }
  if u.type = .trade then e.onTradeUpdate u book.bbo
  else e.onOrderBookUpdate u.tickerId book.bbo

/-- What `run` reads from its two queues. -/
inductive Event where
  | response (r : MEClientResponse)
  | update (u : MEMarketUpdate)
  deriving DecidableEq

def Event.tickerId : Event → ℕ
  | .response r => r.tickerId
  | .update u => u.tickerId

def step (e : TradeEngine F) : Event → Except Fault (TradeEngine F)
  | .response r => e.onOrderUpdate r
  | .update u => e.onMarketUpdate u

section Lemmas
variable {e n : TradeEngine F} {r : MEClientResponse}

omit [IntCast F] [Add F] [Sub F] [Mul F] [Div F] [LT F] [DecidableLT F] [LE F] [DecidableLE F] in
theorem algoOnOrderUpdate_eq : e.algoOnOrderUpdate r =
    if e.algoType = .maker ∨ e.algoType = .taker then
      (e.orderManager.onOrderUpdate r).map fun m => { e with orderManager := m }
    else .ok e := by
  unfold algoOnOrderUpdate
  cases e.algoType <;> rfl

omit [LT F] [DecidableLT F] [LE F] [DecidableLE F] in
theorem onOrderUpdate_cases (hn : e.onOrderUpdate r = .ok n) :
    ∃ k, (if r.type = .filled then e.positionKeeper.addFill r else .ok e.positionKeeper) = .ok k ∧
      algoOnOrderUpdate { e with positionKeeper := k } r = .ok n := by
  unfold onOrderUpdate at hn
  split at hn
  next h =>
    rw [if_pos h]
    exact bind_eq_ok.mp hn
  next h =>
    rw [if_neg h]
    exact ⟨e.positionKeeper, rfl, hn⟩

end Lemmas

end TradeEngine

end HighPerformance
