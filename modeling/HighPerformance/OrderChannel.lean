import HighPerformance.OrderManager

/-!
# The orders and the gateway's queue

The requests in the queue beside the orders of the manager, over any sequence of calls. A
cancellation is written when its order becomes `PENDING_CANCEL`. A new order becomes `PENDING_NEW`
and nothing is written for it.
-/

namespace HighPerformance
open FallibleRun

/-- A call of the strategy, with the risk entries it meets, and a response. -/
inductive OrderCall (F : Type) [NatCast F] where
  | moveOrders (tickerRisk : ℕ → RiskInfo F) (tickerId bidPrice askPrice clip : ℕ)
  | onOrderUpdate (r : MEClientResponse)

/-- The orders that a call may change, in the order in which it does. -/
def OrderCall.slots {F : Type} [NatCast F] : OrderCall F → List (ℕ × ℕ)
  | .moveOrders _ tickerId _ _ _ =>
      [(tickerId, sideToIndex .buy), (tickerId, sideToIndex .sell)]
  | .onOrderUpdate r => [(r.tickerId, sideToIndex r.side)]

/-- The manager with the responses it has been given; `inOrder` says that they are those of an
exchange that takes the requests from the queue and answers them in order. -/
structure OrderChannel where
  manager : OrderManager
  answers : List MEClientResponse := []
  inOrder : Prop := True

namespace OrderChannel

def init (clientId : ℕ) : OrderChannel := { manager := { clientId } }

def newRequests (s : OrderChannel) : List MEClientRequest :=
  s.manager.requests.filter fun q => q.type = .new

def Finished (s : OrderChannel) (orderId : ℕ) : Prop :=
  ∃ r ∈ s.answers, r.clientOrderId = orderId ∧
    (r.type = .canceled ∨ (r.type = .filled ∧ r.leavesQty = 0))

def acceptedIds (s : OrderChannel) : List ℕ :=
  (s.answers.filter fun r => r.type = .accepted).map (·.clientOrderId)

/-- The orders of one ticker and side that the exchange has been sent and has not finished. -/
def Outstanding (s : OrderChannel) (tickerId : ℕ) (side : Side) (orderId : ℕ) : Prop :=
  (∃ q ∈ s.newRequests, q.tickerId = tickerId ∧ q.side = side ∧ q.orderId = orderId) ∧
    ¬s.Finished orderId

/-- The exchange accepts the new orders in the order of the queue, and answers an accepted order
until it is finished. -/
def Answers (s : OrderChannel) (r : MEClientResponse) : Prop :=
  s.Outstanding r.tickerId r.side r.clientOrderId ∧
    if r.type = .accepted then
      s.acceptedIds ++ [r.clientOrderId] <+: s.newRequests.map (·.orderId)
    else r.clientOrderId ∈ s.acceptedIds

section Calls
variable {F : Type} [NatCast F] [LT F] [DecidableLT F]

def step (s : OrderChannel) : OrderCall F → Except Fault OrderChannel
  | .moveOrders tickerRisk tickerId bidPrice askPrice clip =>
      (OrderManager.moveOrders tickerRisk s.manager tickerId bidPrice askPrice clip).map fun m =>
        { s with manager := m }
  | .onOrderUpdate r =>
      (s.manager.onOrderUpdate r).map fun m =>
        { manager := m, answers := s.answers ++ [r], inOrder := s.inOrder ∧ s.Answers r }

end Calls

def requestFor (clientId : ℕ) (type : ClientRequestType) (order : OMOrder) : MEClientRequest :=
  { type, clientId, tickerId := order.tickerId, orderId := order.orderId, side := order.side
    price := order.price, qty := order.qty }

/-- What has to be written for the change of one order. -/
def requestsFor (clientId : ℕ) (before after : OMOrder) : List MEClientRequest :=
  if after.orderState = .pendingNew ∧ before.orderState ≠ .pendingNew then
    [requestFor clientId .new after]
  else if after.orderState = .pendingCancel ∧ before.orderState ≠ .pendingCancel then
    [requestFor clientId .cancel after]
  else []

/-- A call writes what its changes require and changes no other order; the numbers of the new
orders increase, and of one ticker and side at most one order is outstanding. -/
structure CallAgrees {F : Type} [NatCast F] (s s' : OrderChannel) (c : OrderCall F) : Prop where
  writes : s'.manager.requests = s.manager.requests ++ c.slots.flatMap fun slot =>
    requestsFor s.manager.clientId (s.manager.tickerSideOrder slot.1 slot.2)
      (s'.manager.tickerSideOrder slot.1 slot.2)
  others : ∀ t i, (t, i) ∉ c.slots → s'.manager.tickerSideOrder t i = s.manager.tickerSideOrder t i
  increasing : (s'.newRequests.map (·.orderId)).Pairwise (· < ·)
  single : s'.inOrder → ∀ t side id id', s'.Outstanding t side id → s'.Outstanding t side id' →
    id = id'

/-- No new order has been written. -/
def NothingNew (s : OrderChannel) : Prop := s.newRequests = []

/-- The call does not open an order on either side, or does not return. -/
def OpensNone {F : Type} [NatCast F] [LT F] [DecidableLT F] (s : OrderChannel) :
    OrderCall F → Prop
  | .onOrderUpdate _ => True
  | .moveOrders risk t bid ask clip =>
      (∃ m, OrderManager.moveOrders risk s.manager t bid ask clip = .ok m) →
        ¬OrderManager.Opens (risk t) (s.manager.tickerSideOrder t (sideToIndex .buy)) bid .buy
            clip ∧
          ¬OrderManager.Opens (risk t) (s.manager.tickerSideOrder t (sideToIndex .sell)) ask .sell
            clip

section Moves
set_option linter.unusedSectionVars false
variable {F : Type} [NatCast F] [LT F] [DecidableLT F] {risk : RiskInfo F} {m : OrderManager}
  {t price qty : ℕ} {side : Side} {move : OrderManager.Move}

theorem requestsFor_self (clientId : ℕ) (order : OMOrder) :
    requestsFor clientId order order = [] := by
  simp [requestsFor]

/-- A move writes what its change requires, except for a new order. -/
theorem applyMove_requests
    (h : OrderManager.plannedMove risk (m.tickerSideOrder t (sideToIndex side)) price side qty =
      .ok move) :
    (m.applyMove t price side qty move).requests = m.requests ++
      if move = .new then [] else requestsFor m.clientId (m.tickerSideOrder t (sideToIndex side))
        ((m.applyMove t price side qty move).tickerSideOrder t (sideToIndex side)) := by
  rw [OrderManager.applyMove_own]
  cases move with
  | keep =>
    rw [if_neg (by simp), OrderManager.movedOrder, requestsFor_self, List.append_nil]
    rfl
  | cancel =>
    have hlive := OrderManager.plannedMove_cancel h
    simp [OrderManager.applyMove, OrderManager.cancelOrder, OrderManager.movedOrder, requestsFor,
      requestFor, hlive]
  | new => exact (List.append_nil _).symm

theorem requestsFor_new
    (h : OrderManager.plannedMove risk (m.tickerSideOrder t (sideToIndex side)) price side qty =
      .ok move) (hnew : move = .new) :
    (requestsFor m.clientId (m.tickerSideOrder t (sideToIndex side))
      ((m.applyMove t price side qty move).tickerSideOrder t (sideToIndex side))).length = 1 := by
  subst hnew
  have hstate := (OrderManager.plannedMove_new h).1
  have hne : (m.tickerSideOrder t (sideToIndex side)).orderState ≠ .pendingNew := by
    rcases hstate with hs | hs <;> simp [hs]
  rw [OrderManager.applyMove_own]
  simp [requestsFor, OrderManager.movedOrder, hne]

theorem requestsFor_old (hold : move ≠ .new) :
    ∀ q ∈ requestsFor m.clientId (m.tickerSideOrder t (sideToIndex side))
      ((m.applyMove t price side qty move).tickerSideOrder t (sideToIndex side)),
      q.type ≠ .new := by
  rw [OrderManager.applyMove_own]
  intro q hq
  cases move with
  | keep =>
    rw [OrderManager.movedOrder, requestsFor_self] at hq
    exact absurd hq List.not_mem_nil
  | cancel =>
    simp only [requestsFor, OrderManager.movedOrder, reduceCtorEq, false_and, if_false] at hq
    split at hq
    · rw [List.mem_singleton.mp hq]
      simp [requestFor]
    · exact absurd hq List.not_mem_nil
  | new => exact absurd rfl hold

theorem applyMove_clientId : (m.applyMove t price side qty move).clientId = m.clientId := by
  cases move <;> rfl

end Moves

section Calls
set_option linter.unusedSectionVars false
variable {F : Type} [NatCast F] [LT F] [DecidableLT F] {s s' : OrderChannel} {c : OrderCall F}
  {r : MEClientResponse}

theorem NothingNew.increasing (h : s.NothingNew) :
    (s.newRequests.map (·.orderId)).Pairwise (· < ·) := by
  rw [h]
  exact .nil

theorem NothingNew.not_outstanding (h : s.NothingNew) {t id : ℕ} {side : Side} :
    ¬s.Outstanding t side id := by
  rintro ⟨⟨q, hq, -⟩, -⟩
  rw [h] at hq
  exact absurd hq List.not_mem_nil

theorem nothingNew_append {reqs : List MEClientRequest} (h : s.NothingNew)
    (hreqs : s'.manager.requests = s.manager.requests ++ reqs) (hnew : ∀ q ∈ reqs, q.type ≠ .new) :
    s'.NothingNew := by
  have hnone : reqs.filter (fun q => q.type = .new) = [] := by
    simpa [List.filter_eq_nil_iff] using hnew
  rw [NothingNew, newRequests, hreqs, List.filter_append, hnone, List.append_nil]
  exact h

/-- A response writes nothing, and no response makes an order pending. -/
theorem updatedOrder_requestsFor (clientId : ℕ) (order : OMOrder) (r : MEClientResponse) :
    requestsFor clientId order (OrderManager.updatedOrder order r) = [] := by
  have hstate : (OrderManager.updatedOrder order r).orderState = order.orderState ∨
      (OrderManager.updatedOrder order r).orderState = .live ∨
      (OrderManager.updatedOrder order r).orderState = .dead := by
    unfold OrderManager.updatedOrder
    cases r.type with
    | filled => by_cases h : r.leavesQty = 0 <;> simp [h]
    | _ => simp
  rcases hstate with h | h | h <;> simp [requestsFor, h]

theorem onOrderUpdate_agrees (h : s.NothingNew) (hs : s.step (F := F) (.onOrderUpdate r) = .ok s') :
    CallAgrees (F := F) s s' (.onOrderUpdate r) ∧ s'.NothingNew := by
  obtain ⟨n, hn, rfl⟩ := map_eq_ok hs
  obtain ⟨-, -, hn⟩ := bind_eq_ok.mp hn
  obtain ⟨-, -, hn⟩ := bind_eq_ok.mp hn
  cases hn
  have hnothing : NothingNew
      { manager := s.manager.setOrder r.tickerId (sideToIndex r.side)
          (OrderManager.updatedOrder
            (s.manager.tickerSideOrder r.tickerId (sideToIndex r.side)) r)
        answers := s.answers ++ [r], inOrder := s.inOrder ∧ s.Answers r } := h
  refine ⟨⟨?_, ?_, hnothing.increasing, ?_⟩, hnothing⟩
  · have hself : (s.manager.setOrder r.tickerId (sideToIndex r.side) (OrderManager.updatedOrder
        (s.manager.tickerSideOrder r.tickerId (sideToIndex r.side)) r)).tickerSideOrder r.tickerId
          (sideToIndex r.side) = OrderManager.updatedOrder
            (s.manager.tickerSideOrder r.tickerId (sideToIndex r.side)) r := by
      rw [OrderManager.setOrder_eq, if_pos ⟨rfl, rfl⟩]
    simp only [OrderCall.slots, List.flatMap_cons, List.flatMap_nil, List.append_nil, hself,
      updatedOrder_requestsFor]
    rfl
  · intro t i hti
    have hne : ¬(t = r.tickerId ∧ i = sideToIndex r.side) := by
      rintro ⟨rfl, rfl⟩
      exact hti (by simp [OrderCall.slots])
    exact (OrderManager.setOrder_eq _ _ _ _ t i).trans (if_neg hne)
  · intro _ t side id id' hid
    exact absurd hid hnothing.not_outstanding

theorem moveOrders_writes {risk : ℕ → RiskInfo F} {m n : OrderManager} {t bid ask clip : ℕ}
    (h : OrderManager.moveOrders risk m t bid ask clip = .ok n) :
    ∃ buy sell,
      OrderManager.plannedMove (risk t) (m.tickerSideOrder t (sideToIndex .buy)) bid .buy clip =
        .ok buy ∧
      OrderManager.plannedMove (risk t) (m.tickerSideOrder t (sideToIndex .sell)) ask .sell clip =
        .ok sell ∧
      (∀ u i, (u, i) ∉ (OrderCall.moveOrders risk t bid ask clip).slots →
        n.tickerSideOrder u i = m.tickerSideOrder u i) ∧
      n.requests = m.requests ++
        (if buy = .new then [] else requestsFor m.clientId
          (m.tickerSideOrder t (sideToIndex .buy)) (n.tickerSideOrder t (sideToIndex .buy))) ++
        (if sell = .new then [] else requestsFor m.clientId
          (m.tickerSideOrder t (sideToIndex .sell)) (n.tickerSideOrder t (sideToIndex .sell))) ∧
      (buy = .new → (requestsFor m.clientId (m.tickerSideOrder t (sideToIndex .buy))
        (n.tickerSideOrder t (sideToIndex .buy))).length = 1) ∧
      (sell = .new → (requestsFor m.clientId (m.tickerSideOrder t (sideToIndex .sell))
        (n.tickerSideOrder t (sideToIndex .sell))).length = 1) ∧
      (buy ≠ .new → ∀ q ∈ requestsFor m.clientId (m.tickerSideOrder t (sideToIndex .buy))
        (n.tickerSideOrder t (sideToIndex .buy)), q.type ≠ .new) ∧
      (sell ≠ .new → ∀ q ∈ requestsFor m.clientId (m.tickerSideOrder t (sideToIndex .sell))
        (n.tickerSideOrder t (sideToIndex .sell)), q.type ≠ .new) := by
  obtain ⟨buy, sell, hbuy, hsell, -, rfl⟩ := OrderManager.moveOrders_cases h
  have hne : ¬(t = t ∧ sideToIndex .sell = sideToIndex .buy) := fun h => absurd h.2 (by decide)
  have hne' : ¬(t = t ∧ sideToIndex .buy = sideToIndex .sell) := fun h => absurd h.2 (by decide)
  -- the second move finds its order as the call did, and keeps that of the first
  have hfound : (m.applyMove t bid .buy clip buy).tickerSideOrder t (sideToIndex .sell) =
      m.tickerSideOrder t (sideToIndex .sell) := by
    rw [OrderManager.applyMove_order, if_neg hne]
  have hkept : ((m.applyMove t bid .buy clip buy).applyMove t ask .sell clip sell).tickerSideOrder t
      (sideToIndex .buy) = (m.applyMove t bid .buy clip buy).tickerSideOrder t (sideToIndex .buy) := by
    rw [OrderManager.applyMove_order, if_neg hne']
  have hsell' := hsell
  rw [← hfound] at hsell'
  refine ⟨buy, sell, hbuy, hsell, ?_, ?_, ?_, ?_, ?_, ?_⟩
  · intro u i hui
    simp only [OrderCall.slots, List.mem_cons, List.not_mem_nil, or_false, Prod.mk.injEq,
      not_or] at hui
    rw [OrderManager.applyMove_order, if_neg hui.2, OrderManager.applyMove_order, if_neg hui.1]
  · rw [applyMove_requests hsell', applyMove_requests hbuy, applyMove_clientId, hfound, hkept]
  · rw [hkept]
    exact requestsFor_new hbuy
  · have hlen := requestsFor_new hsell'
    rw [applyMove_clientId, hfound] at hlen
    exact hlen
  · rw [hkept]
    exact requestsFor_old
  · intro hold
    have hmem : ∀ q ∈ requestsFor (m.applyMove t bid .buy clip buy).clientId
        ((m.applyMove t bid .buy clip buy).tickerSideOrder t (sideToIndex .sell))
        (((m.applyMove t bid .buy clip buy).applyMove t ask .sell clip sell).tickerSideOrder t
          (sideToIndex .sell)), q.type ≠ .new := requestsFor_old hold
    rw [applyMove_clientId, hfound] at hmem
    exact hmem

theorem moveOrders_agrees_iff {risk : ℕ → RiskInfo F} {t bid ask clip : ℕ} (h : s.NothingNew)
    (hs : s.step (.moveOrders risk t bid ask clip) = .ok s') :
    (CallAgrees s s' (.moveOrders risk t bid ask clip) ↔
      s.OpensNone (.moveOrders risk t bid ask clip)) ∧
    (s.OpensNone (.moveOrders risk t bid ask clip) → s'.NothingNew) := by
  obtain ⟨n, hn, rfl⟩ := map_eq_ok hs
  obtain ⟨buy, sell, hbuy, hsell, hothers, hreqs, hbuyNew, hsellNew, hbuyOld, hsellOld⟩ :=
    moveOrders_writes hn
  have hopens : s.OpensNone (.moveOrders risk t bid ask clip) ↔ buy ≠ .new ∧ sell ≠ .new := by
    simp only [OpensNone, hn, Except.ok.injEq, exists_eq', forall_const, OrderManager.opens_iff,
      hbuy, hsell, ne_eq]
  have hnothing : buy ≠ .new → sell ≠ .new → NothingNew { s with manager := n } := by
    intro hb hse
    rw [if_neg hb, if_neg hse, List.append_assoc] at hreqs
    refine nothingNew_append (s := s) h hreqs fun q hq => ?_
    rcases List.mem_append.mp hq with hq | hq
    · exact hbuyOld hb q hq
    · exact hsellOld hse q hq
  rw [hopens]
  constructor
  · constructor
    · intro hagrees
      have hwrites := congrArg List.length hagrees.writes
      simp only [OrderCall.slots, List.flatMap_cons, List.flatMap_nil, List.append_nil, hreqs,
        List.length_append] at hwrites
      constructor
      · intro hb
        have hlen := hbuyNew hb
        rw [if_pos hb, List.length_nil] at hwrites
        split at hwrites
        · rw [List.length_nil] at hwrites
          omega
        · omega
      · intro hse
        have hlen := hsellNew hse
        rw [if_pos hse, List.length_nil] at hwrites
        split at hwrites
        · rw [List.length_nil] at hwrites
          omega
        · omega
    · rintro ⟨hb, hse⟩
      have hnone := hnothing hb hse
      refine ⟨?_, hothers, hnone.increasing, fun _ t side id id' hid =>
        absurd hid hnone.not_outstanding⟩
      rw [if_neg hb, if_neg hse] at hreqs
      simp only [OrderCall.slots, List.flatMap_cons, List.flatMap_nil, List.append_nil]
      rw [← List.append_assoc]
      exact hreqs
  · rintro ⟨hb, hse⟩
    exact hnothing hb hse

theorem step_agrees_iff (h : s.NothingNew) :
    ((∀ s', s.step c = .ok s' → CallAgrees s s' c) ↔ s.OpensNone c) ∧
      (s.OpensNone c → ∀ s', s.step c = .ok s' → s'.NothingNew) := by
  cases c with
  | onOrderUpdate r =>
    constructor
    · constructor
      · intro _
        trivial
      · intro _ s' hs
        exact (onOrderUpdate_agrees h hs).1
    · intro _ s' hs
      exact (onOrderUpdate_agrees h hs).2
  | moveOrders risk t bid ask clip =>
    constructor
    · constructor
      · intro hall hreturns
        obtain ⟨n, hn⟩ := hreturns
        have hs : s.step (.moveOrders risk t bid ask clip) = .ok { s with manager := n } := by
          simp only [step, hn, Except.map]
        exact (moveOrders_agrees_iff h hs).1.mp (hall _ hs) ⟨n, hn⟩
      · intro hopens s' hs
        exact (moveOrders_agrees_iff h hs).1.mpr hopens
    · intro hopens s' hs
      exact (moveOrders_agrees_iff h hs).2 hopens

/-- In any sequence of calls and responses the queue agrees with the orders exactly when no call
opens an order. -/
theorem run_agrees_iff (clientId : ℕ) (calls : List (OrderCall F)) :
    (∀ done c, done ++ [c] <+: calls → ∀ s, run step (init clientId) done = .ok s →
      ∀ s', s.step c = .ok s' → CallAgrees s s' c) ↔
      Meets step OpensNone (init clientId) calls := by
  have hinit : NothingNew (init clientId) := rfl
  exact forall_call_iff_meets (O := fun s c => ∀ s', step s c = .ok s' → CallAgrees s s' c)
    hinit fun s c hs => step_agrees_iff hs

end Calls

/-- A flat ticker within all limits. -/
def idle : RiskInfo ℚ := { positionInfo := {}, riskCfg := ⟨100, 100, -100⟩ }

/-- The first order of a client is never written. -/
theorem moveOrders_not_agrees :
    ∃ s', step (init 0) (.moveOrders (fun _ => idle) 0 10 priceInvalid 5) = .ok s' ∧
      (s'.manager.tickerSideOrder 0 (sideToIndex .buy)).orderState = .pendingNew ∧
      s'.manager.requests = [] ∧
      ¬CallAgrees (init 0) s' (.moveOrders (fun _ => idle) 0 10 priceInvalid 5) := by
  refine ⟨_, rfl, rfl, rfl, fun h => ?_⟩
  have hwrites : [] = [requestFor 0 .new ⟨0, 1, .buy, 10, 5, .pendingNew⟩] := h.writes
  exact absurd hwrites (List.cons_ne_nil _ _).symm

end OrderChannel

end HighPerformance
