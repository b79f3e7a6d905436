import HighPerformance.TradeEngine

/-!
# The position limit over whole runs

The engine's order manager is called with any prices and quantities, and an exchange answers its
orders. A buy is counted twice in the position that the risk check reads, so the check is stricter
than the limit. A sale is not counted at all: each new sale is allowed as if none had been made.
-/

namespace HighPerformance
open FallibleRun

/-- A new order that is not finished, and the quantity that is not executed. -/
structure WorkingOrder where
  orderId : ℕ
  tickerId : ℕ
  side : Side
  remaining : ℕ
  accepted : Bool := false
  deriving DecidableEq

namespace WorkingOrder

def isFor (o : WorkingOrder) (r : MEClientResponse) : Prop :=
  o.orderId = r.clientOrderId ∧ o.tickerId = r.tickerId ∧ o.side = r.side

instance {o : WorkingOrder} {r : MEClientResponse} : Decidable (o.isFor r) :=
  inferInstanceAs (Decidable (_ ∧ _))

/-- What a response leaves of an order. -/
def answer (r : MEClientResponse) (o : WorkingOrder) : Option WorkingOrder :=
  if o.isFor r then
    match r.type with
    | .accepted => some { o with accepted := true }
    | .canceled => none
    | .filled => if r.leavesQty = 0 then none else some { o with remaining := r.leavesQty }
    | _ => some o
  else some o

/-- An order is accepted first, then filled up to its quantity, and possibly canceled. -/
def Answers (o : WorkingOrder) (r : MEClientResponse) : Prop :=
  o.isFor r ∧
    match r.type with
    | .accepted => o.accepted = false
    | .canceled => o.accepted = true
    | .filled => o.accepted = true ∧ r.execQty + r.leavesQty = o.remaining
    | _ => True

instance {o : WorkingOrder} {r : MEClientResponse} : Decidable (o.Answers r) := by
  unfold Answers
  cases r.type <;> infer_instance

end WorkingOrder

/-- The engine with the orders that the exchange has not finished and the fills so far. -/
structure TradingSession (F : Type) [NatCast F] where
  engine : TradeEngine F
  openOrders : List WorkingOrder := []
  fills : List MEClientResponse := []

namespace TradingSession

/-- The order that one side of a call has opened. -/
def opened (before after : OrderManager) (tickerId : ℕ) (side : Side) : List WorkingOrder :=
  let order := after.tickerSideOrder tickerId (sideToIndex side)
  if order.orderState = .pendingNew ∧
      (before.tickerSideOrder tickerId (sideToIndex side)).orderState ≠ .pendingNew then
    [{ orderId := order.orderId, tickerId := order.tickerId, side := order.side
       remaining := order.qty }]
  else []

/-- A call of `moveOrders`, or a response of the exchange. -/
inductive Event where
  | moveOrders (tickerId bidPrice askPrice clip : ℕ)
  | response (r : MEClientResponse)
  deriving DecidableEq

section Model
variable {F : Type} [NatCast F] [IntCast F] [Add F] [Sub F] [Mul F] [Div F] [LT F] [DecidableLT F]
  [LE F] [DecidableLE F]

def init (clientId : ℕ) (algoType : AlgoType) (tickerCfg : ℕ → TradeEngineCfg F) :
    TradingSession F :=
  { engine := TradeEngine.init clientId algoType tickerCfg }

def step (s : TradingSession F) : Event → Except Fault (TradingSession F)
  | .moveOrders tickerId bidPrice askPrice clip => do
      let before := s.engine.orderManager
      let after ← OrderManager.moveOrders s.engine.tickerRisk before tickerId bidPrice askPrice clip
      return { s with
        engine := { s.engine with orderManager := after }
        openOrders := s.openOrders ++ opened before after tickerId .buy ++
          opened before after tickerId .sell }
  | .response r => do
      let engine ← s.engine.onOrderUpdate r
      return {
        engine
        openOrders := s.openOrders.filterMap (WorkingOrder.answer r)
        fills := if r.type = .filled then s.fills ++ [r] else s.fills }

end Model

section Limits
variable {F : Type} [NatCast F] [IntCast F] [Add F] [Sub F] [Mul F] [Div F] [LT F] [DecidableLT F]
  [LE F] [DecidableLE F]

/-- The quantity executed for the orders of one ticker and side. -/
def executed (s : TradingSession F) (tickerId : ℕ) (side : Side) : ℕ :=
  PositionInfo.qtyOf side (s.fills.filter fun r => r.tickerId = tickerId)

def maxPosition (s : TradingSession F) (tickerId : ℕ) : ℕ :=
  (s.engine.tickerCfg tickerId).riskCfg.maxPosition

/-- What was bought less what was sold. -/
def netPosition (s : TradingSession F) (tickerId : ℕ) : ℤ :=
  s.executed tickerId .buy - s.executed tickerId .sell

/-- The responses are those of an exchange. A cancellation may come too late. -/
def Answered (s : TradingSession F) : Event → Prop
  | .moveOrders .. => True
  | .response r => r.type = .cancelRejected ∨ ∃ o ∈ s.openOrders, o.Answers r

instance {s : TradingSession F} : ∀ c, Decidable (s.Answered c)
  | .moveOrders .. => inferInstanceAs (Decidable True)
  | .response _ => inferInstanceAs (Decidable (_ ∨ _))

/-- A sale is only opened while the true position leaves room for it. -/
def SellsWithinLimit (s : TradingSession F) : Event → Prop
  | .response _ => True
  | .moveOrders tickerId _ askPrice clip =>
      OrderManager.Opens (s.engine.tickerRisk tickerId)
          (s.engine.orderManager.tickerSideOrder tickerId (sideToIndex .sell)) askPrice .sell clip →
        -(s.maxPosition tickerId : ℤ) ≤ s.netPosition tickerId - clip

instance {s : TradingSession F} : ∀ c, Decidable (s.SellsWithinLimit c)
  | .response _ => inferInstanceAs (Decidable True)
  | .moveOrders .. => inferInstanceAs (Decidable (_ ∧ _ ∧ _ → _))

end Limits

/-- The order waits for a response or is working. -/
def Busy (order : OMOrder) : Prop := order.orderState ≠ .invalid ∧ order.orderState ≠ .dead

section Orders
variable {F : Type} [NatCast F] [LT F] [DecidableLT F] {risk : RiskInfo F} {m : OrderManager}
  {t price qty : ℕ} {side : Side} {move : OrderManager.Move} {r : MEClientResponse}

theorem applyMove_busy {u i : ℕ} (h : Busy (m.tickerSideOrder u i)) :
    Busy ((m.applyMove t price side qty move).tickerSideOrder u i) := by
  rw [OrderManager.applyMove_order]
  split
  next hslot =>
    rw [hslot.1, hslot.2] at h
    cases move with
    | keep => exact h
    | cancel => exact ⟨nofun, nofun⟩
    | new => exact ⟨nofun, nofun⟩
  next => exact h

/-- The order that one move opens. -/
def newWorkingOrder (m : OrderManager) (tickerId : ℕ) (side : Side) (qty : ℕ) :
    OrderManager.Move → List WorkingOrder
  | .new => [{ orderId := m.nextOrderId, tickerId, side, remaining := qty }]
  | _ => []

theorem opened_applyMove
    (h : OrderManager.plannedMove risk (m.tickerSideOrder t (sideToIndex side)) price side qty =
      .ok move) :
    opened m (m.applyMove t price side qty move) t side = newWorkingOrder m t side qty move := by
  unfold opened
  rw [OrderManager.applyMove_own]
  cases move with
  | keep => simp [OrderManager.movedOrder, newWorkingOrder]
  | cancel => simp [OrderManager.movedOrder, newWorkingOrder]
  | new =>
    have hstate := (OrderManager.plannedMove_new h).1
    have hne : (m.tickerSideOrder t (sideToIndex side)).orderState ≠ .pendingNew := by
      rcases hstate with hs | hs <;> simp [hs]
    simp [OrderManager.movedOrder, newWorkingOrder, hne]

theorem opened_congr {m' n n' : OrderManager}
    (hm : m.tickerSideOrder t (sideToIndex side) = m'.tickerSideOrder t (sideToIndex side))
    (hn : n.tickerSideOrder t (sideToIndex side) = n'.tickerSideOrder t (sideToIndex side)) :
    opened m n t side = opened m' n' t side := by
  unfold opened
  rw [hm, hn]

end Orders

section Invariant
set_option linter.unusedSectionVars false
variable {F : Type} [NatCast F] [IntCast F] [Add F] [Sub F] [Mul F] [Div F] [LT F] [DecidableLT F]
  [LE F] [DecidableLE F] {s s' : TradingSession F} {t price qty : ℕ} {side : Side}
  {move : OrderManager.Move} {r : MEClientResponse}

/-- How much may be executed for one side: the limit, and for sales also what was bought. -/
def room (s : TradingSession F) (tickerId : ℕ) : Side → ℕ
  | .sell => s.executed tickerId .buy + s.maxPosition tickerId
  | _ => s.maxPosition tickerId

/-- The position that the engine keeps is twice what was bought. Of each ticker and side at most
one order is open, and its order of the manager is busy until then. Every open order fits into
the room that is left. -/
structure Limited (s : TradingSession F) : Prop where
  algoType : s.engine.algoType = .maker ∨ s.engine.algoType = .taker
  position : ∀ t, (s.engine.positionKeeper.tickerPosition t).position = 2 * s.executed t .buy
  sided : ∀ o ∈ s.openOrders, o.side = .buy ∨ o.side = .sell
  apart : s.openOrders.Pairwise fun o o' => ¬(o.tickerId = o'.tickerId ∧ o.side = o'.side)
  busy : ∀ o ∈ s.openOrders,
    Busy (s.engine.orderManager.tickerSideOrder o.tickerId (sideToIndex o.side))
  within : ∀ t side, side = .buy ∨ side = .sell → s.executed t side ≤ s.room t side
  working : ∀ o ∈ s.openOrders,
    s.executed o.tickerId o.side + o.remaining ≤ s.room o.tickerId o.side

theorem Limited.unique (h : Limited s) {o o' : WorkingOrder} (ho : o ∈ s.openOrders)
    (ho' : o' ∈ s.openOrders) (hticker : o.tickerId = o'.tickerId) (hside : o.side = o'.side) :
    o = o' := by
  by_contra hne
  have hsymm : Std.Symm fun o o' : WorkingOrder =>
      ¬(o.tickerId = o'.tickerId ∧ o.side = o'.side) :=
    ⟨fun _ _ hab hba => hab ⟨hba.1.symm, hba.2.symm⟩⟩
  exact h.apart.forall ho ho' hne ⟨hticker, hside⟩

theorem Limited.bound (h : Limited s) (t : ℕ) : |s.netPosition t| ≤ s.maxPosition t := by
  have hbuy := h.within t .buy (.inl rfl)
  have hsell := h.within t .sell (.inr rfl)
  simp only [room] at hbuy hsell
  rw [netPosition, abs_le]
  omega

theorem limited_init (clientId : ℕ) {algoType : AlgoType}
    (halgo : algoType = .maker ∨ algoType = .taker) (cfg : ℕ → TradeEngineCfg F) :
    Limited (init clientId algoType cfg) where
  algoType := halgo
  position _ := rfl
  sided := nofun
  apart := .nil
  busy := nofun
  within _ _ _ := Nat.zero_le _
  working := nofun

/-- The session after one move. -/
def moved (s : TradingSession F) (tickerId price : ℕ) (side : Side) (qty : ℕ)
    (move : OrderManager.Move) : TradingSession F :=
  { s with
    engine := { s.engine with
      orderManager := s.engine.orderManager.applyMove tickerId price side qty move }
    openOrders := s.openOrders ++ newWorkingOrder s.engine.orderManager tickerId side qty move }

theorem Limited.moved (h : Limited s) (hside : side = .buy ∨ side = .sell)
    (hplan : OrderManager.plannedMove (s.engine.tickerRisk t)
      (s.engine.orderManager.tickerSideOrder t (sideToIndex side)) price side qty = .ok move)
    (hroom : move = .new → s.executed t side + qty ≤ s.room t side) :
    Limited (s.moved t price side qty move) := by
  have hbusy : ∀ o ∈ s.openOrders, Busy
      ((s.engine.orderManager.applyMove t price side qty move).tickerSideOrder o.tickerId
        (sideToIndex o.side)) := fun o ho => applyMove_busy (h.busy o ho)
  by_cases hnew : move = .new
  · subst hnew
    have hidle := (OrderManager.plannedMove_new hplan).1
    -- the side is idle, so none of its orders is open
    have hother : ∀ o ∈ s.openOrders, ¬(o.tickerId = t ∧ o.side = side) := by
      intro o ho hsame
      have hob := h.busy o ho
      rw [hsame.1, hsame.2] at hob
      rcases hidle with hs | hs
      · exact hob.1 hs
      · exact hob.2 hs
    have hmem : ∀ o ∈ (s.moved t price side qty .new).openOrders, o ∈ s.openOrders ∨
        o = { orderId := s.engine.orderManager.nextOrderId, tickerId := t, side
              remaining := qty } := by
      intro o ho
      rcases List.mem_append.mp ho with ho | ho
      · exact .inl ho
      · exact .inr (List.mem_singleton.mp ho)
    refine ⟨h.algoType, h.position, ?_, ?_, ?_, h.within, ?_⟩
    · intro o ho
      rcases hmem o ho with ho | rfl
      · exact h.sided o ho
      · exact hside
    · refine List.pairwise_append.mpr ⟨h.apart, List.pairwise_singleton _ _, ?_⟩
      intro o ho o' ho'
      rw [List.mem_singleton.mp ho']
      exact hother o ho
    · intro o ho
      rcases hmem o ho with ho | rfl
      · exact hbusy o ho
      · rw [TradingSession.moved, OrderManager.applyMove_own]
        exact ⟨nofun, nofun⟩
    · intro o ho
      rcases hmem o ho with ho | rfl
      · exact h.working o ho
      · exact hroom rfl
  · have hnone : newWorkingOrder s.engine.orderManager t side qty move = [] := by
      cases move with
      | new => exact absurd rfl hnew
      | _ => rfl
    have hsame : (s.moved t price side qty move).openOrders = s.openOrders := by
      rw [TradingSession.moved, hnone, List.append_nil]
    exact ⟨h.algoType, h.position, hsame ▸ h.sided, hsame ▸ h.apart, hsame ▸ hbusy, h.within,
      hsame ▸ h.working⟩

/-- The limits are small enough for the `int` arithmetic of the risk check. -/
def SmallLimits (cfg : ℕ → TradeEngineCfg F) : Prop :=
  ∀ t, (cfg t).riskCfg.maxPosition < 2 ^ 30 ∧ (cfg t).riskCfg.maxOrderSize < 2 ^ 30

/-- The check of a purchase is stricter than the limit. -/
theorem Limited.room_of_check (h : Limited s) (hcfg : SmallLimits s.engine.tickerCfg)
    (hcheck : (s.engine.tickerRisk t).checkPreTradeRisk .buy qty = .ok .allowed) :
    s.executed t .buy + qty ≤ s.maxPosition t := by
  obtain ⟨hqty, hposition⟩ := RiskInfo.checkPreTradeRisk_allowed hcheck
  have hmax : (s.maxPosition t : ℤ) < 2 ^ 30 := by exact_mod_cast (hcfg t).1
  have hsmall : (qty : ℤ) < 2 ^ 30 := by exact_mod_cast lt_of_le_of_lt hqty (hcfg t).2
  have hlimit : |2 * (s.executed t .buy : ℤ) + 1 * toInt32 qty| ≤ toInt32 (s.maxPosition t) := by
    rw [← h.position t]
    exact hposition
  rw [toInt32_of_fits (by omega) (by omega), toInt32_of_fits (by omega) (by omega), abs_le]
    at hlimit
  omega

theorem Limited.moveOrders {bid ask clip : ℕ} (h : Limited s)
    (hcfg : SmallLimits s.engine.tickerCfg)
    (hsells : s.SellsWithinLimit (.moveOrders t bid ask clip))
    (hs : s.step (.moveOrders t bid ask clip) = .ok s') :
    Limited s' ∧ s'.engine.tickerCfg = s.engine.tickerCfg := by
  obtain ⟨n, hn, hs⟩ := bind_eq_ok.mp hs
  cases hs
  obtain ⟨buy, sell, hbuy, hsell, -, rfl⟩ := OrderManager.moveOrders_cases hn
  refine ⟨?_, rfl⟩
  have hne : ¬(t = t ∧ sideToIndex .sell = sideToIndex .buy) := fun h => absurd h.2 (by decide)
  have hne' : ¬(t = t ∧ sideToIndex .buy = sideToIndex .sell) := fun h => absurd h.2 (by decide)
  have hfound : (s.engine.orderManager.applyMove t bid .buy clip buy).tickerSideOrder t
      (sideToIndex .sell) = s.engine.orderManager.tickerSideOrder t (sideToIndex .sell) := by
    rw [OrderManager.applyMove_order, if_neg hne]
  have hkept : ((s.engine.orderManager.applyMove t bid .buy clip buy).applyMove t ask .sell clip
      sell).tickerSideOrder t (sideToIndex .buy) =
        (s.engine.orderManager.applyMove t bid .buy clip buy).tickerSideOrder t
          (sideToIndex .buy) := by
    rw [OrderManager.applyMove_order, if_neg hne']
  -- the call is one move after the other
  have hfirst : Limited (s.moved t bid .buy clip buy) := by
    refine h.moved (.inl rfl) hbuy fun hnew => ?_
    exact h.room_of_check hcfg (OrderManager.plannedMove_new (hnew ▸ hbuy)).2
  have hplan := hsell
  rw [← hfound] at hplan
  have hsecond : Limited ((s.moved t bid .buy clip buy).moved t ask .sell clip sell) := by
    refine hfirst.moved (.inr rfl) hplan fun hnew => ?_
    have hopens := OrderManager.opens_iff.mpr (hnew ▸ hsell)
    have hroom := hsells hopens
    rw [netPosition] at hroom
    change s.executed t .sell + clip ≤ s.executed t .buy + s.maxPosition t
    omega
  have hbuyOpened := (opened_congr rfl hkept).trans (opened_applyMove hbuy)
  have hsellOpened := (opened_congr hfound.symm rfl).trans (opened_applyMove hplan)
  rw [hbuyOpened, hsellOpened]
  exact hsecond

theorem onOrderUpdate_spec {e n : TradeEngine F} (halgo : e.algoType = .maker ∨ e.algoType = .taker)
    (hn : e.onOrderUpdate r = .ok n) :
    n.algoType = e.algoType ∧ n.tickerCfg = e.tickerCfg ∧
      (∀ t, (n.positionKeeper.tickerPosition t).position =
        if r.type = .filled ∧ t = r.tickerId then
          (e.positionKeeper.tickerPosition t).nextPosition r
        else (e.positionKeeper.tickerPosition t).position) ∧
      ∀ t i, n.orderManager.tickerSideOrder t i =
        if t = r.tickerId ∧ i = sideToIndex r.side then
          OrderManager.updatedOrder (e.orderManager.tickerSideOrder r.tickerId
            (sideToIndex r.side)) r
        else e.orderManager.tickerSideOrder t i := by
  obtain ⟨k, hk, hn⟩ := TradeEngine.onOrderUpdate_cases hn
  rw [TradeEngine.algoOnOrderUpdate_eq, if_pos halgo] at hn
  obtain ⟨m, hm, rfl⟩ := map_eq_ok hn
  obtain ⟨-, -, hm⟩ := bind_eq_ok.mp hm
  obtain ⟨-, -, hm⟩ := bind_eq_ok.mp hm
  cases hm
  refine ⟨rfl, rfl, ?_, fun t i => OrderManager.setOrder_eq _ _ _ _ t i⟩
  intro t
  split at hk
  next hfilled =>
    by_cases ht : t = r.tickerId
    · subst ht
      rw [if_pos ⟨hfilled, rfl⟩]
      exact (PositionInfo.addFill_moves (PositionKeeper.addFill_own hk)).1
    · rw [if_neg fun h => ht h.2]
      exact congrArg _ (PositionKeeper.addFill_other ht hk)
  next hfilled =>
    cases hk
    rw [if_neg fun h => hfilled h.1]

theorem qtyOf_append (fills : List MEClientResponse) :
    PositionInfo.qtyOf side (fills ++ [r]) =
      PositionInfo.qtyOf side fills + if r.side = side then r.execQty else 0 := by
  rw [PositionInfo.qtyOf, List.filter_append, PositionInfo.totalQty, List.map_append,
    List.sum_append]
  by_cases h : r.side = side
  · simp [h, PositionInfo.qtyOf, PositionInfo.totalQty]
  · simp [h, PositionInfo.qtyOf, PositionInfo.totalQty]

theorem executed_response (hs : s.step (.response r) = .ok s') (t : ℕ) (side : Side) :
    s'.executed t side = s.executed t side +
      if r.type = .filled ∧ r.tickerId = t ∧ r.side = side then r.execQty else 0 := by
  obtain ⟨n, -, hs⟩ := bind_eq_ok.mp hs
  cases hs
  by_cases hfilled : r.type = .filled
  · by_cases ht : r.tickerId = t
    · simp [executed, hfilled, ht, List.filter_append, qtyOf_append]
    · simp [executed, hfilled, ht, List.filter_append]
  · simp [executed, hfilled]

/-- A response without effect: the order and the open orders stay as they are. -/
theorem updatedOrder_cancelRejected (order : OMOrder) (hr : r.type = .cancelRejected) :
    OrderManager.updatedOrder order r = order := by
  simp [OrderManager.updatedOrder, hr]

/-- An open order after a response is one that the response is not for, or the answered one. -/
theorem answer_cases {o o' : WorkingOrder} (h : o.answer r = some o') :
    (¬o.isFor r ∧ o' = o) ∨
      (o.isFor r ∧ r.type ≠ .canceled ∧ o'.tickerId = o.tickerId ∧ o'.side = o.side ∧
        (r.type = .filled → r.leavesQty ≠ 0 ∧ o'.remaining = r.leavesQty) ∧
        (r.type ≠ .filled → o'.remaining = o.remaining)) := by
  unfold WorkingOrder.answer at h
  split at h
  next hfor =>
    right
    cases htype : r.type with
    | filled =>
      simp only [htype] at h
      split at h
      next => cases h
      next hleaves =>
        cases h
        exact ⟨hfor, nofun, rfl, rfl, fun _ => ⟨hleaves, rfl⟩, fun h => absurd rfl h⟩
    | canceled =>
      simp only [htype] at h
      cases h
    | _ =>
      simp only [htype] at h
      cases h
      exact ⟨hfor, nofun, rfl, rfl, nofun, fun _ => rfl⟩
  next hfor =>
    cases h
    exact .inl ⟨hfor, rfl⟩

theorem answer_keeps {o o' : WorkingOrder} (h : o.answer r = some o') :
    o'.tickerId = o.tickerId ∧ o'.side = o.side := by
  rcases answer_cases h with ⟨-, rfl⟩ | ⟨-, -, ht, hside, -⟩
  · exact ⟨rfl, rfl⟩
  · exact ⟨ht, hside⟩

theorem updatedOrder_busy {order : OMOrder} (h : Busy order) (hcancel : r.type ≠ .canceled)
    (hfill : r.type = .filled → r.leavesQty ≠ 0) : Busy (OrderManager.updatedOrder order r) := by
  unfold OrderManager.updatedOrder
  cases htype : r.type with
  | accepted => exact ⟨nofun, nofun⟩
  | canceled => exact absurd htype hcancel
  | filled =>
    simp only [hfill htype, if_false]
    exact h
  | _ => exact h

/-- An order of the ticker and side that the response answers is the answered order. -/
theorem Limited.isFor_of_side (h : Limited s) {o o₀ : WorkingOrder} (ho : o ∈ s.openOrders)
    (ho₀ : o₀ ∈ s.openOrders) (hfor : o₀.isFor r) (hticker : o.tickerId = r.tickerId)
    (hside : o.side = r.side) : o = o₀ :=
  h.unique ho ho₀ (hticker.trans hfor.2.1.symm) (hside.trans hfor.2.2.symm)

theorem sideToIndex_inj {side' : Side} (hside : side = .buy ∨ side = .sell)
    (hside' : side' = .buy ∨ side' = .sell) (h : sideToIndex side = sideToIndex side') :
    side = side' := by
  rcases hside with rfl | rfl <;> rcases hside' with rfl | rfl
  · rfl
  · exact absurd h (by decide)
  · exact absurd h (by decide)
  · rfl

theorem Limited.fill_fits (h : Limited s) (hanswered : s.Answered (.response r))
    (hfilled : r.type = .filled) :
    ∃ o ∈ s.openOrders, o.isFor r ∧ r.execQty + r.leavesQty = o.remaining ∧
      s.executed r.tickerId r.side + r.execQty + r.leavesQty ≤ s.room r.tickerId r.side := by
  rcases hanswered with hrej | ⟨o, ho, hfor, htype⟩
  · rw [hfilled] at hrej
    cases hrej
  · simp only [hfilled] at htype
    have hfits := h.working o ho
    rw [hfor.2.1, hfor.2.2, ← htype.2, ← add_assoc] at hfits
    exact ⟨o, ho, hfor, htype.2, hfits⟩

/-- What a response does to the session. -/
structure Responded (s s' : TradingSession F) (r : MEClientResponse) : Prop where
  algoType : s'.engine.algoType = s.engine.algoType
  tickerCfg : s'.engine.tickerCfg = s.engine.tickerCfg
  position : ∀ t, (s'.engine.positionKeeper.tickerPosition t).position =
    if r.type = .filled ∧ t = r.tickerId then
      (s.engine.positionKeeper.tickerPosition t).nextPosition r
    else (s.engine.positionKeeper.tickerPosition t).position
  orders : ∀ t i, s'.engine.orderManager.tickerSideOrder t i =
    if t = r.tickerId ∧ i = sideToIndex r.side then
      OrderManager.updatedOrder (s.engine.orderManager.tickerSideOrder r.tickerId
        (sideToIndex r.side)) r
    else s.engine.orderManager.tickerSideOrder t i
  openOrders : s'.openOrders = s.openOrders.filterMap (WorkingOrder.answer r)
  executed : ∀ t side, s'.executed t side = s.executed t side +
    if r.type = .filled ∧ r.tickerId = t ∧ r.side = side then r.execQty else 0

theorem Limited.responded (h : Limited s) (hs : s.step (.response r) = .ok s') :
    Responded s s' r := by
  have hexec := executed_response hs
  obtain ⟨n, hn, hs⟩ := bind_eq_ok.mp hs
  cases hs
  obtain ⟨halgo, hcfg, hposition, horders⟩ := onOrderUpdate_spec h.algoType hn
  exact ⟨halgo, hcfg, hposition, horders, rfl, hexec⟩

namespace Responded
variable {o' : WorkingOrder}

theorem maxPosition_eq (hr : Responded s s' r) : s'.maxPosition = s.maxPosition := by
  funext t
  rw [maxPosition, hr.tickerCfg, maxPosition]

/-- What was bought adds to the room for sales. -/
theorem room_le (hr : Responded s s' r) (t : ℕ) (side : Side) :
    s.room t side ≤ s'.room t side := by
  cases side with
  | sell =>
    have hmore := hr.executed t .buy
    simp only [room, hr.maxPosition_eq]
    omega
  | _ => simp only [room, hr.maxPosition_eq, le_refl]

theorem exists_answered (hr : Responded s s' r) (ho' : o' ∈ s'.openOrders) :
    ∃ o ∈ s.openOrders, o.answer r = some o' := by
  rw [hr.openOrders] at ho'
  exact List.mem_filterMap.mp ho'

theorem position_eq (hr : Responded s s' r) (h : Limited s) (hcfg : SmallLimits s.engine.tickerCfg)
    (hanswered : s.Answered (.response r)) (t : ℕ) :
    (s'.engine.positionKeeper.tickerPosition t).position = 2 * s'.executed t .buy := by
  rw [hr.position, hr.executed]
  by_cases hfill : r.type = .filled ∧ t = r.tickerId
  · obtain ⟨hfilled, rfl⟩ := hfill
    obtain ⟨o, ho, hfor, -, hfits⟩ := h.fill_fits hanswered hfilled
    have hlimit : (s.maxPosition r.tickerId : ℤ) < 2 ^ 30 := by
      exact_mod_cast (hcfg r.tickerId).1
    rw [if_pos ⟨hfilled, rfl⟩, PositionInfo.nextPosition, h.position]
    rcases hfor.2.2 ▸ h.sided o ho with hside | hside
    · simp only [room, hside] at hfits
      rw [hside, PositionInfo.sideToIndex_buy, if_pos ⟨hfilled, rfl, rfl⟩,
        toInt32_of_fits (by omega) (by omega)]
      push_cast
      ring
    · have hbought := h.within r.tickerId .buy (.inl rfl)
      have hother : Side.sell ≠ Side.buy := by decide
      simp only [room] at hbought
      rw [hside, PositionInfo.sideToIndex_sell, if_neg (fun h => hother h.2.2),
        toInt32_of_fits (by omega) (by omega)]
      simp
  · rw [if_neg hfill, if_neg fun h => hfill ⟨h.1, h.2.1.symm⟩, h.position, add_zero]

theorem busy (hr : Responded s s' r) (h : Limited s) (hanswered : s.Answered (.response r))
    (ho' : o' ∈ s'.openOrders) :
    Busy (s'.engine.orderManager.tickerSideOrder o'.tickerId (sideToIndex o'.side)) := by
  obtain ⟨o, ho, hans⟩ := hr.exists_answered ho'
  have hkeeps := answer_keeps hans
  rw [hkeeps.1, hkeeps.2, hr.orders]
  split
  next hsame =>
    have hb := h.busy o ho
    rw [hsame.1, hsame.2] at hb
    rcases answer_cases hans with ⟨hnot, -⟩ | ⟨-, hcancel, -, -, hfill, -⟩
    · rcases hanswered with hrej | ⟨o₀, ho₀, hfor, -⟩
      · rw [updatedOrder_cancelRejected _ hrej]
        exact hb
      · have hside := sideToIndex_inj (h.sided o ho) (hfor.2.2 ▸ h.sided o₀ ho₀) hsame.2
        have heq := h.isFor_of_side ho ho₀ hfor hsame.1 hside
        exact absurd (heq ▸ hfor) hnot
    · exact updatedOrder_busy hb hcancel fun hf => (hfill hf).1
  next => exact h.busy o ho

theorem within (hr : Responded s s' r) (h : Limited s) (hanswered : s.Answered (.response r))
    (hside : side = .buy ∨ side = .sell) : s'.executed t side ≤ s'.room t side := by
  have hmore := hr.room_le t side
  rw [hr.executed]
  split
  next hfill =>
    obtain ⟨o, -, -, -, hfits⟩ := h.fill_fits hanswered hfill.1
    rw [hfill.2.1, hfill.2.2] at hfits
    omega
  next => exact (h.within t side hside).trans hmore

theorem working (hr : Responded s s' r) (h : Limited s) (hanswered : s.Answered (.response r))
    (ho' : o' ∈ s'.openOrders) :
    s'.executed o'.tickerId o'.side + o'.remaining ≤ s'.room o'.tickerId o'.side := by
  obtain ⟨o, ho, hans⟩ := hr.exists_answered ho'
  have hfits := h.working o ho
  have hmore := hr.room_le o.tickerId o.side
  rcases answer_cases hans with ⟨hnot, rfl⟩ | ⟨hfor, -, ht, hside, hfill, hkeep⟩
  · have hnone : ¬(r.type = .filled ∧ r.tickerId = o'.tickerId ∧ r.side = o'.side) := by
      intro hfilled
      obtain ⟨o₀, ho₀, hfor, -⟩ := h.fill_fits hanswered hfilled.1
      have heq := h.isFor_of_side ho ho₀ hfor hfilled.2.1.symm hfilled.2.2.symm
      exact hnot (heq ▸ hfor)
    rw [hr.executed, if_neg hnone]
    omega
  · rw [ht, hside, hr.executed]
    by_cases hfilled : r.type = .filled
    · obtain ⟨o₀, ho₀, hfor₀, -, hroom₀⟩ := h.fill_fits hanswered hfilled
      rw [if_pos ⟨hfilled, hfor.2.1.symm, hfor.2.2.symm⟩, (hfill hfilled).2]
      rw [← hfor.2.1, ← hfor.2.2] at hroom₀
      omega
    · rw [if_neg fun h => hfilled h.1, hkeep hfilled]
      omega

end Responded

theorem Limited.response (h : Limited s) (hcfg : SmallLimits s.engine.tickerCfg)
    (hanswered : s.Answered (.response r)) (hs : s.step (.response r) = .ok s') : Limited s' := by
  have hr := h.responded hs
  refine ⟨hr.algoType ▸ h.algoType, hr.position_eq h hcfg hanswered, ?_, ?_,
    fun o' ho' => hr.busy h hanswered ho', fun t side hside => hr.within h hanswered hside,
    fun o' ho' => hr.working h hanswered ho'⟩
  · intro o' ho'
    obtain ⟨o, ho, hans⟩ := hr.exists_answered ho'
    rw [(answer_keeps hans).2]
    exact h.sided o ho
  · rw [hr.openOrders]
    refine List.Pairwise.filterMap _ ?_ h.apart
    intro o o' happart a ha a' ha' hsame
    have hkeeps := answer_keeps ha
    have hkeeps' := answer_keeps ha'
    rw [hkeeps.1, hkeeps.2, hkeeps'.1, hkeeps'.2] at hsame
    exact happart hsame

/-- While every sale is opened within the limit, the limit is kept. -/
theorem run_within_limit (clientId : ℕ) {algoType : AlgoType} (cfg : ℕ → TradeEngineCfg F)
    (events : List Event) (halgo : algoType = .maker ∨ algoType = .taker) (hcfg : SmallLimits cfg)
    (hanswered : Meets step Answered (init clientId algoType cfg) events)
    (hsells : Meets step SellsWithinLimit (init clientId algoType cfg) events)
    (hrun : run step (init clientId algoType cfg) events = .ok s) :
    ∀ t, |s.netPosition t| ≤ (cfg t).riskCfg.maxPosition := by
  have hboth : Meets step (fun s c => Answered s c ∧ SellsWithinLimit s c)
      (init clientId algoType cfg) events := hanswered.and hsells
  have hinv := run_invariant (P := fun s => Limited s ∧ s.engine.tickerCfg = cfg)
    ⟨limited_init clientId halgo cfg, rfl⟩ hboth ?_ hrun
  · intro t
    have hbound := hinv.1.bound t
    rw [maxPosition, hinv.2] at hbound
    exact hbound
  · intro u c v hu hc hv
    have hsmall : SmallLimits u.engine.tickerCfg := hu.2 ▸ hcfg
    cases c with
    | moveOrders t bid ask clip =>
      have hnext := hu.1.moveOrders hsmall hc.2 hv
      exact ⟨hnext.1, hnext.2.trans hu.2⟩
    | response r =>
      exact ⟨hu.1.response hsmall hc.1 hv, (hu.1.responded hv).tickerCfg.trans hu.2⟩

end Invariant

/-- Ten units per order and in all. -/
def tenUnits : ℕ → TradeEngineCfg ℚ := fun _ =>
  { clip := 10, threshold := 0, riskCfg := ⟨10, 10, -1000⟩ }

theorem tenUnits_small : SmallLimits tenUnits := by
  intro t
  simp only [tenUnits]
  omega

def sessionResponse (type : ClientResponseType) (side : Side) (orderId execQty leavesQty : ℕ) :
    MEClientResponse :=
  { type, clientId := 0, tickerId := 0, clientOrderId := orderId, side, price := 11
    execQty, leavesQty }

/-- Both sides are worked: the sale is filled, the purchase in part, and what remains is canceled. -/
def workBothSides : List Event :=
  [.moveOrders 0 10 11 5, .response (sessionResponse .accepted .buy 1 0 5),
    .response (sessionResponse .accepted .sell 2 0 5),
    .response (sessionResponse .filled .sell 2 5 0), .response (sessionResponse .filled .buy 1 3 2),
    .moveOrders 0 9 11 2, .response (sessionResponse .canceled .buy 1 0 2)]

theorem workBothSides_within_limit :
    ∃ s : TradingSession ℚ, run step (init 0 .maker tenUnits) workBothSides = .ok s ∧
      ∀ t, |s.netPosition t| ≤ (tenUnits t).riskCfg.maxPosition :=
  ⟨_, rfl, run_within_limit 0 tenUnits workBothSides (.inl rfl) tenUnits_small (by decide)
    (by decide) rfl⟩

/-- Ten units are sold, and then ten more. -/
def sellTwice : List Event :=
  [.moveOrders 0 priceInvalid 11 10, .response (sessionResponse .accepted .sell 1 0 10),
    .response (sessionResponse .filled .sell 1 10 0), .moveOrders 0 priceInvalid 11 10,
    .response (sessionResponse .accepted .sell 2 0 10), .response (sessionResponse .filled .sell 2 10 0)]

/-- The second sale is allowed, because the first did not change the position. -/
theorem sellTwice_exceeds_limit : ¬ ∀ (cfg : ℕ → TradeEngineCfg ℚ) (events : List Event)
    (s : TradingSession ℚ), SmallLimits cfg → Meets step Answered (init 0 .maker cfg) events →
    run step (init 0 .maker cfg) events = .ok s →
    ∀ t, |s.netPosition t| ≤ (cfg t).riskCfg.maxPosition := by
  intro h
  have hbound := h tenUnits sellTwice _ tenUnits_small (by decide) rfl 0
  exact absurd hbound (by decide)

end TradingSession

end HighPerformance
