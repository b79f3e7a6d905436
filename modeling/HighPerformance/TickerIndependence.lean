import HighPerformance.TradeEngine
import HighPerformance.Unwinding

/-!
# Tickers do not influence each other

The features and the number of the next order are shared by all tickers. A strategy reads a
feature only where the same call has just computed it from the same ticker's book, under the
same test, and the numbers of the orders decide nothing. What the tickers do share is the process:
an event that fails a check ends it for all of them.
-/

namespace HighPerformance
open FallibleRun

/-- The order without its number. -/
def OMOrder.unnumbered (order : OMOrder) : OMOrder := { order with orderId := 0 }

namespace OrderManager

/-- The orders and the decisions of one ticker, up to the numbers. -/
structure Alike (t : ℕ) (m m' : OrderManager) : Prop where
  orders : ∀ i, (m.tickerSideOrder t i).unnumbered = (m'.tickerSideOrder t i).unnumbered
  decisions : m.decisionsFor t = m'.decisionsFor t

namespace Alike
variable {t : ℕ} {m m' m'' : OrderManager}

theorem refl (m : OrderManager) : Alike t m m := ⟨fun _ => rfl, rfl⟩

theorem symm (h : Alike t m m') : Alike t m' m := ⟨fun i => (h.orders i).symm, h.decisions.symm⟩

theorem trans (h : Alike t m m') (h' : Alike t m' m'') : Alike t m m'' :=
  ⟨fun i => (h.orders i).trans (h'.orders i), h.decisions.trans h'.decisions⟩

end Alike

section Orders
variable {t tickerId i price qty : ℕ} {side : Side} {m m' n n' : OrderManager}
  {order order' : OMOrder} {d : Decision} {r : MEClientResponse}

/-- What is done with an order of another ticker does not show. -/
theorem alike_other (h : t ≠ tickerId)
    (horders : n.tickerSideOrder = (m.setOrder tickerId i order).tickerSideOrder)
    (hdecisions : ∃ ds, n.decisions = m.decisions ++ ds ∧ ∀ d ∈ ds, d.1 = tickerId) :
    Alike t m n := by
  obtain ⟨ds, hn, hds⟩ := hdecisions
  constructor
  · intro j
    rw [horders, setOrder_eq, if_neg fun hsame => h hsame.1]
  · have hnone : ds.filter (fun d => d.1 = t) = [] := by
      simp only [List.filter_eq_nil_iff, decide_eq_true_eq]
      intro d hd heq
      exact h (heq.symm.trans (hds d hd))
    rw [decisionsFor, decisionsFor, hn, List.filter_append, hnone, List.append_nil]

theorem Alike.set (h : Alike t m m') (i : ℕ) (ho : order.unnumbered = order'.unnumbered) :
    Alike t (m.setOrder t i order) (m'.setOrder t i order') := by
  constructor
  · intro j
    rw [setOrder_eq, setOrder_eq]
    by_cases hj : j = i
    · rw [if_pos ⟨rfl, hj⟩, if_pos ⟨rfl, hj⟩, ho]
    · rw [if_neg fun hsame => hj hsame.2, if_neg fun hsame => hj hsame.2, h.orders j]
  · exact h.decisions

theorem Alike.decide (h : Alike t m m') (hn : n.tickerSideOrder = m.tickerSideOrder)
    (hn' : n'.tickerSideOrder = m'.tickerSideOrder) (hd : n.decisions = m.decisions ++ [(t, d)])
    (hd' : n'.decisions = m'.decisions ++ [(t, d)]) : Alike t n n' := by
  constructor
  · intro j
    rw [hn, hn', h.orders j]
  · have hold := h.decisions
    simp only [decisionsFor] at hold ⊢
    rw [hd, hd', List.filter_append, List.filter_append, List.map_append, List.map_append, hold]

theorem newOrder_other (h : t ≠ tickerId) : Alike t m (m.newOrder tickerId price side qty) :=
  alike_other h rfl ⟨[(tickerId, .newOrder price side qty)], rfl, by simp⟩

theorem cancelOrder_other (h : t ≠ tickerId) : Alike t m (m.cancelOrder tickerId i) :=
  alike_other h rfl ⟨[(tickerId, .cancelOrder _ _ _)], rfl, by simp⟩

theorem Alike.newOrder (h : Alike t m m') :
    Alike t (m.newOrder t price side qty) (m'.newOrder t price side qty) := by
  let sent (m : OrderManager) : OMOrder :=
    { tickerId := t, orderId := m.nextOrderId, side, price, qty, orderState := .pendingNew }
  have hsent : (sent m).unnumbered = (sent m').unnumbered := rfl
  exact (h.set (sideToIndex side) hsent).decide rfl rfl rfl rfl

theorem unnumbered_inj (h : order.unnumbered = order'.unnumbered) :
    order.tickerId = order'.tickerId ∧ order.side = order'.side ∧ order.price = order'.price ∧
      order.qty = order'.qty ∧ order.orderState = order'.orderState := by
  simp only [OMOrder.unnumbered, OMOrder.mk.injEq, true_and] at h
  exact h

theorem Alike.cancelOrder (h : Alike t m m') :
    Alike t (m.cancelOrder t i) (m'.cancelOrder t i) := by
  obtain ⟨htid, hside, hprice, hqty, -⟩ := unnumbered_inj (h.orders i)
  let cancelled (m : OrderManager) : OMOrder :=
    { m.tickerSideOrder t i with orderState := .pendingCancel }
  have hcancelled : (cancelled m).unnumbered = (cancelled m').unnumbered := by
    simp only [cancelled, OMOrder.unnumbered, htid, hside, hprice, hqty]
  refine (h.set i hcancelled).decide rfl rfl rfl ?_
  simp only [OrderManager.cancelOrder, setOrder, hside, hprice, hqty]

theorem updatedOrder_unnumbered (h : order.unnumbered = order'.unnumbered)
    (r : MEClientResponse) :
    (updatedOrder order r).unnumbered = (updatedOrder order' r).unnumbered := by
  obtain ⟨htid, hside, hprice, hqty, hstate⟩ := unnumbered_inj h
  unfold updatedOrder
  cases r.type with
  | filled =>
    by_cases hleaves : r.leavesQty = 0
    · simp only [OMOrder.unnumbered, hleaves, if_true, htid, hside, hprice]
    · simp only [OMOrder.unnumbered, hleaves, if_false, htid, hside, hprice, hstate]
  | _ => simp only [OMOrder.unnumbered, htid, hside, hprice, hqty, hstate]

theorem onOrderUpdate_other (h : t ≠ r.tickerId) (hn : m.onOrderUpdate r = .ok n) :
    Alike t m n := by
  obtain ⟨-, -, hn⟩ := bind_eq_ok.mp hn
  obtain ⟨-, -, hn⟩ := bind_eq_ok.mp hn
  cases hn
  exact alike_other h rfl ⟨[], (List.append_nil _).symm, by simp⟩

theorem Alike.onOrderUpdate (h : Alike r.tickerId m m') :
    Agree (Alike r.tickerId) (m.onOrderUpdate r) (m'.onOrderUpdate r) :=
  .bind_same fun _ => .bind_same fun _ => .ok (h.set _ (updatedOrder_unnumbered (h.orders _) r))

end Orders

section Moves
variable {F : Type} [NatCast F] [LT F] [DecidableLT F] {risk risk' : ℕ → RiskInfo F}
  {t tickerId price qty bid ask clip : ℕ} {side : Side} {m m' n n' : OrderManager}

theorem plannedMove_unnumbered {risk : RiskInfo F} {order order' : OMOrder}
    (h : order.unnumbered = order'.unnumbered) :
    plannedMove risk order price side qty = plannedMove risk order' price side qty := by
  obtain ⟨-, -, hprice, hqty, hstate⟩ := unnumbered_inj h
  simp only [plannedMove, hprice, hqty, hstate]

theorem applyMove_other (h : t ≠ tickerId) (move : Move) :
    Alike t m (m.applyMove tickerId price side qty move) := by
  cases move with
  | keep => exact .refl m
  | cancel => exact cancelOrder_other h
  | new => exact newOrder_other h

theorem Alike.applyMove (h : Alike t m m') (move : Move) :
    Alike t (m.applyMove t price side qty move) (m'.applyMove t price side qty move) := by
  cases move with
  | keep => exact h
  | cancel => exact h.cancelOrder
  | new => exact h.newOrder

theorem moveOrder_other (h : t ≠ tickerId)
    (hn : moveOrder risk m tickerId price side qty = .ok n) : Alike t m n := by
  rw [moveOrder_eq] at hn
  obtain ⟨move, -, rfl⟩ := map_eq_ok hn
  exact applyMove_other h move

theorem Alike.moveOrder (h : Alike t m m') (hrisk : risk t = risk' t) :
    Agree (Alike t) (moveOrder risk m t price side qty) (moveOrder risk' m' t price side qty) := by
  rw [moveOrder_eq, moveOrder_eq, hrisk, plannedMove_unnumbered (h.orders _)]
  exact .map_same fun move => h.applyMove move

theorem moveOrders_other (h : t ≠ tickerId)
    (hn : moveOrders risk m tickerId bid ask clip = .ok n) : Alike t m n := by
  obtain ⟨-, -, hn⟩ := bind_eq_ok.mp hn
  obtain ⟨u, hu, hn⟩ := bind_eq_ok.mp hn
  exact (moveOrder_other h hu).trans (moveOrder_other h hn)

theorem Alike.moveOrders (h : Alike t m m') (hrisk : risk t = risk' t) :
    Agree (Alike t) (moveOrders risk m t bid ask clip) (moveOrders risk' m' t bid ask clip) :=
  .bind_same fun _ => (h.moveOrder hrisk).bind fun _ _ hbid => hbid.moveOrder hrisk

end Moves

end OrderManager

section Positions
variable {F : Type} [NatCast F] [IntCast F] [Add F] [Sub F] [Mul F] [Div F]
  {k k' : PositionKeeper F} {r : MEClientResponse} {t : ℕ} {bbo : BBO}

theorem PositionKeeper.addFill_agree
    (h : k.tickerPosition r.tickerId = k'.tickerPosition r.tickerId) :
    Agree (fun n n' : PositionKeeper F => n.tickerPosition r.tickerId = n'.tickerPosition r.tickerId)
      (k.addFill r) (k'.addFill r) := by
  unfold addFill
  rw [h]
  refine .bind_same fun _ => .bind_same fun p => .ok ?_
  simp only [Function.update_self]

theorem PositionKeeper.updateBBO_agree (h : k.tickerPosition t = k'.tickerPosition t) :
    Agree (fun n n' : PositionKeeper F => n.tickerPosition t = n'.tickerPosition t)
      (k.updateBBO t bbo) (k'.updateBBO t bbo) := by
  unfold updateBBO
  rw [h]
  refine .bind_same fun _ => .bind_same fun p => .ok ?_
  simp only [Function.update_self]

end Positions

section Features
set_option linter.unusedSectionVars false
variable {F : Type} [NatCast F] [Div F] [Sub F] [LE F] [DecidableLE F]

/-- The market maker reads the price that the same update has computed, or none. -/
theorem MarketMaker.quotes_fresh (f f' : FeatureEngine F) (bbo : BBO) (threshold : F) :
    quotes bbo (f.onOrderBookUpdate bbo).mktPrice threshold =
      quotes bbo (f'.onOrderBookUpdate bbo).mktPrice threshold := by
  by_cases h : bbo.valid
  · simp only [FeatureEngine.onOrderBookUpdate, if_pos h]
  · rw [quotes, quotes, if_neg h, if_neg h]

/-- The liquidity taker reads the ratio that the same trade has computed, or none. -/
theorem LiquidityTaker.quotes_fresh (f f' : FeatureEngine F) (u : MEMarketUpdate) (bbo : BBO)
    (threshold : F) :
    quotes u bbo (f.onTradeUpdate u bbo).aggTradeQtyRatio threshold =
      quotes u bbo (f'.onTradeUpdate u bbo).aggTradeQtyRatio threshold := by
  by_cases h : bbo.valid
  · simp only [FeatureEngine.onTradeUpdate, if_pos h]
  · simp only [quotes, h, false_and, if_false]

end Features

namespace TradeEngine

/-- The two engines have the same settings and look alike at one ticker. -/
structure Alike {F : Type} [NatCast F] (t : ℕ) (e e' : TradeEngine F) : Prop where
  algoType : e.algoType = e'.algoType
  tickerCfg : e.tickerCfg = e'.tickerCfg
  book : e.tickerOrderBook t = e'.tickerOrderBook t
  position : e.positionKeeper.tickerPosition t = e'.positionKeeper.tickerPosition t
  orders : e.orderManager.Alike t e'.orderManager

section Steps
set_option linter.unusedSectionVars false
variable {F : Type} [NatCast F] [IntCast F] [Add F] [Sub F] [Mul F] [Div F] [LT F] [DecidableLT F]
  [LE F] [DecidableLE F] {t tickerId : ℕ} {e e' n n' : TradeEngine F} {r : MEClientResponse}
  {u : MEMarketUpdate} {bbo : BBO} {quotes quotes' : Option (ℕ × ℕ)}

namespace Alike

theorem refl (e : TradeEngine F) : Alike t e e := ⟨rfl, rfl, rfl, rfl, .refl _⟩

theorem symm (h : Alike t e e') : Alike t e' e :=
  ⟨h.algoType.symm, h.tickerCfg.symm, h.book.symm, h.position.symm, h.orders.symm⟩

theorem trans (h : Alike t e e') (h' : Alike t e' n) : Alike t e n :=
  ⟨h.algoType.trans h'.algoType, h.tickerCfg.trans h'.tickerCfg, h.book.trans h'.book,
    h.position.trans h'.position, h.orders.trans h'.orders⟩

theorem tickerRisk (h : Alike t e e') : e.tickerRisk t = e'.tickerRisk t := by
  simp only [TradeEngine.tickerRisk, h.position, h.tickerCfg]

end Alike

/-! Which strategy runs is the same for all tickers. -/

theorem algoOnOrderBookUpdate_eq : e.algoOnOrderBookUpdate tickerId bbo =
    if e.algoType = .maker then e.moveTo tickerId
      (MarketMaker.quotes bbo e.featureEngine.mktPrice (e.tickerCfg tickerId).threshold)
    else .ok e := by
  unfold algoOnOrderBookUpdate
  cases e.algoType <;> rfl

theorem algoOnTradeUpdate_eq : e.algoOnTradeUpdate u bbo =
    if e.algoType = .taker then e.moveTo u.tickerId (LiquidityTaker.quotes u bbo
      e.featureEngine.aggTradeQtyRatio (e.tickerCfg u.tickerId).threshold)
    else .ok e := by
  unfold algoOnTradeUpdate
  cases e.algoType <;> rfl

theorem moveTo_other (h : t ≠ tickerId) (hn : e.moveTo tickerId quotes = .ok n) :
    Alike t e n := by
  cases quotes with
  | none =>
    cases hn
    exact .refl e
  | some q =>
    obtain ⟨m, hm, hn⟩ := bind_eq_ok.mp hn
    cases hn
    exact ⟨rfl, rfl, rfl, rfl, OrderManager.moveOrders_other h hm⟩

theorem Alike.moveTo (h : Alike t e e') (hquotes : quotes = quotes') :
    Agree (Alike t) (e.moveTo t quotes) (e'.moveTo t quotes') := by
  subst hquotes
  cases quotes with
  | none => exact .ok h
  | some q =>
    unfold TradeEngine.moveTo
    rw [h.tickerCfg]
    exact (h.orders.moveOrders h.tickerRisk).bind fun _ _ hm =>
      .ok ⟨h.algoType, rfl, h.book, h.position, hm⟩

theorem onOrderBookUpdate_other (h : t ≠ tickerId)
    (hn : e.onOrderBookUpdate tickerId bbo = .ok n) : Alike t e n := by
  obtain ⟨k, hk, hn⟩ := bind_eq_ok.mp hn
  have hposition := (PositionKeeper.updateBBO_other h hk).symm
  have hmid : Alike t e
      { e with positionKeeper := k, featureEngine := e.featureEngine.onOrderBookUpdate bbo } :=
    ⟨rfl, rfl, rfl, hposition, .refl _⟩
  rw [algoOnOrderBookUpdate_eq] at hn
  split at hn
  · exact hmid.trans (moveTo_other h hn)
  · cases hn
    exact hmid

theorem Alike.onOrderBookUpdate (h : Alike t e e') :
    Agree (Alike t) (e.onOrderBookUpdate t bbo) (e'.onOrderBookUpdate t bbo) := by
  refine (PositionKeeper.updateBBO_agree h.position).bind fun k k' hposition => ?_
  have hmid : Alike t
      { e with positionKeeper := k, featureEngine := e.featureEngine.onOrderBookUpdate bbo }
      { e' with positionKeeper := k', featureEngine := e'.featureEngine.onOrderBookUpdate bbo } :=
    ⟨h.algoType, h.tickerCfg, h.book, hposition, h.orders⟩
  rw [algoOnOrderBookUpdate_eq, algoOnOrderBookUpdate_eq]
  by_cases hmaker : e.algoType = .maker
  · rw [if_pos hmaker, if_pos (h.algoType.symm.trans hmaker)]
    refine hmid.moveTo ?_
    rw [h.tickerCfg]
    exact MarketMaker.quotes_fresh _ _ _ _
  · rw [if_neg hmaker, if_neg fun hm => hmaker (h.algoType.trans hm)]
    exact .ok hmid

theorem onTradeUpdate_other (h : t ≠ u.tickerId) (hn : e.onTradeUpdate u bbo = .ok n) :
    Alike t e n := by
  have hmid : Alike t e { e with featureEngine := e.featureEngine.onTradeUpdate u bbo } :=
    ⟨rfl, rfl, rfl, rfl, .refl _⟩
  rw [TradeEngine.onTradeUpdate, algoOnTradeUpdate_eq] at hn
  split at hn
  · exact hmid.trans (moveTo_other h hn)
  · cases hn
    exact hmid

theorem Alike.onTradeUpdate (h : Alike u.tickerId e e') :
    Agree (Alike u.tickerId) (e.onTradeUpdate u bbo) (e'.onTradeUpdate u bbo) := by
  have hmid : Alike u.tickerId
      { e with featureEngine := e.featureEngine.onTradeUpdate u bbo }
      { e' with featureEngine := e'.featureEngine.onTradeUpdate u bbo } :=
    ⟨h.algoType, h.tickerCfg, h.book, h.position, h.orders⟩
  rw [TradeEngine.onTradeUpdate, TradeEngine.onTradeUpdate, algoOnTradeUpdate_eq,
    algoOnTradeUpdate_eq]
  by_cases htaker : e.algoType = .taker
  · rw [if_pos htaker, if_pos (h.algoType.symm.trans htaker)]
    refine hmid.moveTo ?_
    rw [h.tickerCfg]
    exact LiquidityTaker.quotes_fresh _ _ _ _ _
  · rw [if_neg htaker, if_neg fun ht => htaker (h.algoType.trans ht)]
    exact .ok hmid

theorem algoOnOrderUpdate_other (h : t ≠ r.tickerId) (hn : e.algoOnOrderUpdate r = .ok n) :
    Alike t e n := by
  rw [algoOnOrderUpdate_eq] at hn
  split at hn
  · obtain ⟨m, hm, rfl⟩ := map_eq_ok hn
    exact ⟨rfl, rfl, rfl, rfl, OrderManager.onOrderUpdate_other h hm⟩
  · cases hn
    exact .refl e

theorem Alike.algoOnOrderUpdate (h : Alike r.tickerId e e') :
    Agree (Alike r.tickerId) (e.algoOnOrderUpdate r) (e'.algoOnOrderUpdate r) := by
  rw [algoOnOrderUpdate_eq, algoOnOrderUpdate_eq]
  by_cases halgo : e.algoType = .maker ∨ e.algoType = .taker
  · have halgo' : e'.algoType = .maker ∨ e'.algoType = .taker := h.algoType ▸ halgo
    rw [if_pos halgo, if_pos halgo']
    exact h.orders.onOrderUpdate.map fun _ _ hm => ⟨h.algoType, h.tickerCfg, h.book, h.position, hm⟩
  · have halgo' : ¬ (e'.algoType = .maker ∨ e'.algoType = .taker) := h.algoType ▸ halgo
    rw [if_neg halgo, if_neg halgo']
    exact .ok h

theorem onOrderUpdate_other (h : t ≠ r.tickerId) (hn : e.onOrderUpdate r = .ok n) :
    Alike t e n := by
  obtain ⟨k, hk, hn⟩ := onOrderUpdate_cases hn
  have hposition : e.positionKeeper.tickerPosition t = k.tickerPosition t := by
    split at hk
    · exact (PositionKeeper.addFill_other h hk).symm
    · cases hk
      rfl
  have hmid : Alike t e { e with positionKeeper := k } := ⟨rfl, rfl, rfl, hposition, .refl _⟩
  exact hmid.trans (algoOnOrderUpdate_other h hn)

theorem Alike.onOrderUpdate (h : Alike r.tickerId e e') :
    Agree (Alike r.tickerId) (e.onOrderUpdate r) (e'.onOrderUpdate r) := by
  have hmid : ∀ k k' : PositionKeeper F,
      k.tickerPosition r.tickerId = k'.tickerPosition r.tickerId →
      Alike r.tickerId { e with positionKeeper := k } { e' with positionKeeper := k' } :=
    fun k k' hposition => ⟨h.algoType, h.tickerCfg, h.book, hposition, h.orders⟩
  unfold TradeEngine.onOrderUpdate
  by_cases hfilled : r.type = .filled
  · rw [if_pos hfilled, if_pos hfilled]
    exact (PositionKeeper.addFill_agree h.position).bind fun k k' hposition =>
      (hmid k k' hposition).algoOnOrderUpdate
  · rw [if_neg hfilled, if_neg hfilled]
    exact (hmid _ _ h.position).algoOnOrderUpdate

theorem onMarketUpdate_other (h : t ≠ u.tickerId) (hn : e.onMarketUpdate u = .ok n) :
    Alike t e n := by
  obtain ⟨-, -, hn⟩ := bind_eq_ok.mp hn
  obtain ⟨book, -, hn⟩ := bind_eq_ok.mp hn
  have hmid : Alike t e
      { e with tickerOrderBook := Function.update e.tickerOrderBook u.tickerId book } :=
    ⟨rfl, rfl, (Function.update_of_ne h _ _).symm, rfl, .refl _⟩
  split at hn
  · exact hmid.trans (onTradeUpdate_other h hn)
  · exact hmid.trans (onOrderBookUpdate_other h hn)

theorem Alike.onMarketUpdate (h : Alike u.tickerId e e') :
    Agree (Alike u.tickerId) (e.onMarketUpdate u) (e'.onMarketUpdate u) := by
  unfold TradeEngine.onMarketUpdate
  rw [h.book]
  refine .bind_same fun _ => .bind_same fun book => ?_
  have hmid : Alike u.tickerId
      { e with tickerOrderBook := Function.update e.tickerOrderBook u.tickerId book }
      { e' with tickerOrderBook := Function.update e'.tickerOrderBook u.tickerId book } := by
    refine ⟨h.algoType, h.tickerCfg, ?_, h.position, h.orders⟩
    simp only [Function.update_self]
  dsimp only
  by_cases htrade : u.type = .trade
  · rw [if_pos htrade, if_pos htrade]
    exact hmid.onTradeUpdate
  · rw [if_neg htrade, if_neg htrade]
    exact hmid.onOrderBookUpdate

/-- An event of another ticker does not show, and alike engines answer an event alike. -/
theorem unwinds (t : ℕ) : Unwinds (step (F := F)) (fun ev => ev.tickerId = t) (Alike t) where
  symm _ _ := Alike.symm
  trans _ _ _ := Alike.trans
  other e ev n hev hn := by
    have hne : t ≠ ev.tickerId := fun h => by simp [h] at hev
    cases ev with
    | response r => exact onOrderUpdate_other hne hn
    | update u => exact onMarketUpdate_other hne hn
  own e e' ev hev h := by
    have heq : ev.tickerId = t := by simpa using hev
    subst heq
    cases ev with
    | response r => exact h.onOrderUpdate
    | update u => exact h.onMarketUpdate

/-- Two runs have the same events of ticker `t`, and no event of another ticker ends them. Then they
stop after the same decisions for it, with the same orders up to their numbers, and either both
return or both fail alike. -/
theorem run_independent (clientId t : ℕ) (algoType : AlgoType) (cfg : ℕ → TradeEngineCfg F)
    (events events' : List Event)
    (hsame : events.filter (fun ev => ev.tickerId = t) = events'.filter fun ev => ev.tickerId = t)
    (hothers : Meets step (OtherReturns step fun ev => ev.tickerId = t)
      (init clientId algoType cfg) events)
    (hothers' : Meets step (OtherReturns step fun ev => ev.tickerId = t)
      (init clientId algoType cfg) events') :
    (lastState step (init clientId algoType cfg) events).orderManager.decisionsFor t =
        (lastState step (init clientId algoType cfg) events').orderManager.decisionsFor t ∧
      (∀ i, ((lastState step (init clientId algoType cfg) events).orderManager.tickerSideOrder t
            i).unnumbered =
          ((lastState step (init clientId algoType cfg) events').orderManager.tickerSideOrder t
            i).unnumbered) ∧
      ((∃ n n', run step (init clientId algoType cfg) events = .ok n ∧
          run step (init clientId algoType cfg) events' = .ok n') ∨
        ∃ f, run step (init clientId algoType cfg) events = .error f ∧
          run step (init clientId algoType cfg) events' = .error f) := by
  obtain ⟨halike, hrun⟩ := (unwinds t).run_same (.refl _) hsame hothers hothers'
  refine ⟨halike.orders.decisions, halike.orders.orders, ?_⟩
  generalize run step (init clientId algoType cfg) events = x at hrun ⊢
  generalize run step (init clientId algoType cfg) events' = x' at hrun ⊢
  cases hrun with
  | ok => exact .inl ⟨_, _, rfl, rfl⟩
  | error f => exact .inr ⟨f, rfl, rfl⟩

end Steps

/-- The settings of the runs below. -/
def smallCfg : ℕ → TradeEngineCfg ℚ := fun _ => ⟨10, 1 / 4, ⟨100, 100, -5⟩⟩

def addOrder (tickerId orderId : ℕ) (side : Side) (price priority : ℕ) : Event :=
  .update { type := .add, orderId, tickerId, side, price, qty := 5, priority }

/-- The market of ticker 0 gets two orders on each side, the order to buy is accepted, and the
market moves. -/
def ownEvents : List Event :=
  [addOrder 0 1 .buy 10 1, addOrder 0 2 .buy 10 2, addOrder 0 3 .sell 12 1, addOrder 0 4 .sell 12 2,
   .response { type := .accepted, tickerId := 0, side := .buy }, addOrder 0 5 .buy 11 1]

/-- In between ticker 1 gets a market, two orders and a fill. -/
def mixedEvents : List Event :=
  [addOrder 1 1 .buy 20 1, addOrder 0 1 .buy 10 1, addOrder 0 2 .buy 10 2, addOrder 1 2 .buy 20 2,
   addOrder 1 3 .sell 30 1, addOrder 1 4 .sell 30 2, addOrder 0 3 .sell 12 1,
   addOrder 0 4 .sell 12 2, .response { type := .accepted, tickerId := 0, side := .buy },
   .response { type := .filled, tickerId := 1, side := .sell, price := 30, execQty := 2
               leavesQty := 0 },
   addOrder 0 5 .buy 11 1]

theorem mixedEvents_independent :
    (lastState step (init 1 .maker smallCfg) mixedEvents).orderManager.decisionsFor 0 =
        [.newOrder 10 .buy 10, .newOrder 11 .sell 10, .cancelOrder 10 .buy 10] ∧
      (lastState step (init 1 .maker smallCfg) mixedEvents).orderManager.decisionsFor 1 =
        [.newOrder 20 .buy 10, .newOrder 29 .sell 10] ∧
      (∀ i, ((lastState step (init 1 .maker smallCfg) mixedEvents).orderManager.tickerSideOrder 0
            i).unnumbered =
          ((lastState step (init 1 .maker smallCfg) ownEvents).orderManager.tickerSideOrder 0
            i).unnumbered) ∧
      ((∃ n n', run step (init 1 .maker smallCfg) mixedEvents = .ok n ∧
          run step (init 1 .maker smallCfg) ownEvents = .ok n') ∨
        ∃ f, run step (init 1 .maker smallCfg) mixedEvents = .error f ∧
          run step (init 1 .maker smallCfg) ownEvents = .error f) := by
  obtain ⟨hdecisions, horders, hend⟩ := run_independent 1 0 .maker smallCfg mixedEvents ownEvents
    (by decide) (by decide +kernel) (by decide +kernel)
  refine ⟨hdecisions.trans ?_, ?_, horders, hend⟩
  · decide +kernel
  · decide +kernel

/-- An order to sell ticker 1 at price 0 fails a check of its book and ends the process, before the
market of ticker 0 gets its two sides. -/
theorem sellAtZero_ends_all : ¬ ∀ events events' : List Event,
    events.filter (fun ev => ev.tickerId = 0) = events'.filter (fun ev => ev.tickerId = 0) →
    (lastState step (init 1 .maker smallCfg) events).orderManager.decisionsFor 0 =
      (lastState step (init 1 .maker smallCfg) events').orderManager.decisionsFor 0 := by
  intro h
  have hsame := h (addOrder 1 1 .sell 0 1 :: ownEvents) ownEvents (by decide)
  revert hsame
  decide +kernel

end TradeEngine

end HighPerformance
