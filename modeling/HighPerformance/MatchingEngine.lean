import HighPerformance.MEOrderBookTrades

/-!
# The matching engine

One order book for each ticker. `processClientRequest` picks the book by the client of the
request and not by its ticker.
-/

namespace HighPerformance
open LevelBook FallibleRun

/-- `ticker_order_book_`; the queues are those of the other components. -/
structure MatchingEngine where
  tickerOrderBook : ℕ → MEOrderBook := MEOrderBook.init

namespace MatchingEngine
open MEOrderBook

def setBook (e : MatchingEngine) (index : ℕ) (book : MEOrderBook) : MatchingEngine :=
  { tickerOrderBook := Function.update e.tickerOrderBook index book }

/-- The book is the one at `client_id_`. -/
def processClientRequest (e : MatchingEngine) (r : MEClientRequest) :
    Except Fault (MatchingEngine × List Outgoing) := do
  at? "ticker_order_book_" meMaxTickers r.clientId
  let orderBook := e.tickerOrderBook r.clientId
  match r.type with
  | .new => do
      let x ← orderBook.add r.clientId r.orderId r.tickerId r.side r.price r.qty
      return (e.setBook r.clientId x.1, x.2)
  | .cancel => do
      let x ← orderBook.cancel r.clientId r.orderId r.tickerId
      return (e.setBook r.clientId x.1, x.2)
  | type => .error (.fatal ("Received invalid client-request-type:" ++
      clientRequestTypeToString type))

def step (e : MatchingEngine) (r : MEClientRequest) : Except Fault MatchingEngine :=
  (e.processClientRequest r).map Prod.fst

/-- The trades that a request for a new order makes. -/
def tradesOf (e : MatchingEngine) (r : MEClientRequest) : List Fill :=
  (e.tickerOrderBook r.clientId).trades ⟨r.clientId, r.orderId, r.tickerId, r.side, r.price,
    (e.tickerOrderBook r.clientId).nextMarketOrderId % 2 ^ 32⟩ r.qty

/-- One request keeps the tickers apart. -/
structure Isolated (e e' : MatchingEngine) (r : MEClientRequest) : Prop where
  holds : ∀ t p, (e'.tickerOrderBook t).book.orderPool.isFree p = false →
    ((e'.tickerOrderBook t).book.order p).ident.tickerId = t
  others : ∀ t, t ≠ r.tickerId → e'.tickerOrderBook t = e.tickerOrderBook t
  trades : r.type = .new → ∀ f ∈ e.tradesOf r, f.order.ident.tickerId = r.tickerId
  cancels : r.type = .cancel → ∀ t p, (e.tickerOrderBook t).book.orderPool.isFree p = false →
    (e'.tickerOrderBook t).book.orderPool.isFree p = true →
    ((e.tickerOrderBook t).book.order p).ident.tickerId = r.tickerId

/-- The client and the ticker of the request have the same number, or the request does nothing:
its quantity is 0, or its client has no order under that id in the book, or it does not return. -/
def OwnBook (e : MatchingEngine) (r : MEClientRequest) : Prop :=
  (∃ e', e.step r = .ok e') → r.clientId = r.tickerId ∨ (r.type = .new ∧ r.qty = 0) ∨
    (r.type = .cancel ∧
      (e.tickerOrderBook r.clientId).book.idToOrder (r.clientId, r.orderId) = none)

/-- Book `t` has only orders of ticker `t`, and leads to no others. -/
def Sorted (e : MatchingEngine) : Prop :=
  ∀ t, HoldsOnly (fun ident => ident.tickerId = t) (e.tickerOrderBook t).book

section Requests
variable {e e' : MatchingEngine} {r : MEClientRequest} {out : List Outgoing}

@[simp] theorem setBook_self (book : MEOrderBook) (t : ℕ) :
    (e.setBook t book).tickerOrderBook t = book := Function.update_self ..

theorem setBook_other {book : MEOrderBook} {t index : ℕ} (h : t ≠ index) :
    (e.setBook index book).tickerOrderBook t = e.tickerOrderBook t :=
  Function.update_of_ne h _ _

theorem setBook_same (t : ℕ) : e.setBook t (e.tickerOrderBook t) = e := by
  rw [setBook, Function.update_eq_self]

/-- A returning request has gone to the book of its client. -/
theorem processClientRequest_cases (hok : e.processClientRequest r = .ok (e', out)) :
    r.clientId < meMaxTickers ∧ ∃ book, e' = e.setBook r.clientId book ∧
      ((r.type = .new ∧ (e.tickerOrderBook r.clientId).add r.clientId r.orderId r.tickerId r.side
          r.price r.qty = .ok (book, out)) ∨
        (r.type = .cancel ∧ (e.tickerOrderBook r.clientId).cancel r.clientId r.orderId r.tickerId =
          .ok (book, out))) := by
  obtain ⟨_, hat, hok⟩ := bind_eq_ok.mp hok
  refine ⟨at?_eq_ok.mp hat, ?_⟩
  cases htype : r.type with
  | new =>
    simp only [htype] at hok
    obtain ⟨x, hx, hok⟩ := bind_eq_ok.mp hok
    cases hok
    exact ⟨x.1, rfl, .inl ⟨rfl, hx⟩⟩
  | cancel =>
    simp only [htype] at hok
    obtain ⟨x, hx, hok⟩ := bind_eq_ok.mp hok
    cases hok
    exact ⟨x.1, rfl, .inr ⟨rfl, hx⟩⟩
  | invalid =>
    simp only [htype] at hok
    cases hok
  | unnamed code =>
    simp only [htype] at hok
    cases hok

theorem step_cases (hok : e.step r = .ok e') :
    ∃ out, e.processClientRequest r = .ok (e', out) := by
  obtain ⟨x, hx, rfl⟩ := map_eq_ok hok
  exact ⟨x.2, hx⟩

theorem sorted_init : Sorted {} := fun t => holds_init t

theorem Sorted.step (h : Sorted e) (hown : r.clientId = r.tickerId) (hok : e.step r = .ok e') :
    Sorted e' := by
  obtain ⟨out, hok⟩ := step_cases hok
  obtain ⟨-, book, rfl, hcall⟩ := processClientRequest_cases hok
  intro t
  by_cases ht : t = r.clientId
  · subst ht
    rw [setBook_self]
    rcases hcall with ⟨-, hadd⟩ | ⟨-, hcancel⟩
    · exact holds_add (h r.clientId) hown.symm hadd
    · exact holds_cancel (h r.clientId) hcancel
  · rw [setBook_other ht]
    exact h t

theorem Sorted.isolated (h : Sorted e) (hown : r.clientId = r.tickerId) (hok : e.step r = .ok e') :
    Isolated e e' r := by
  have hsorted := h.step hown hok
  obtain ⟨out, hok⟩ := step_cases hok
  obtain ⟨-, book, rfl, hcall⟩ := processClientRequest_cases hok
  refine ⟨fun t p hp => (hsorted t).used p hp, fun t ht => ?_, fun hnew => ?_, fun _ t p hp hp' => ?_⟩
  · exact setBook_other (hown ▸ ht)
  · rcases hcall with ⟨-, hadd⟩ | ⟨hcancel, -⟩
    · obtain ⟨x, hx, -⟩ := add_eq_ok hadd
      intro f hf
      rw [← hown]
      exact checkForMatch_holds (h r.clientId) hx f hf
    · rw [hcancel] at hnew
      cases hnew
  · by_cases ht : t = r.clientId
    · rw [(h t).used p hp, ht, hown]
    · rw [setBook_other ht, hp] at hp'
      cases hp'

theorem Sorted.isolated_same (h : Sorted e) (hnone : r.type = .new → e.tradesOf r = []) :
    Isolated e e r := by
  refine ⟨fun t p hp => (h t).used p hp, fun _ _ => rfl, fun hnew f hf => ?_, fun _ t p hp hp' => ?_⟩
  · rw [hnone hnew] at hf
    exact absurd hf List.not_mem_nil
  · rw [hp] at hp'
    cases hp'

/-- A request for another ticker's book that does something is seen: its trade, the order that it
enters or the order that it removes is of the wrong ticker. -/
theorem Sorted.ownBook_of_isolated (h : Sorted e) (hok : e.step r = .ok e')
    (hiso : Isolated e e' r) (hother : r.clientId ≠ r.tickerId) :
    (r.type = .new ∧ r.qty = 0) ∨ (r.type = .cancel ∧
      (e.tickerOrderBook r.clientId).book.idToOrder (r.clientId, r.orderId) = none) := by
  obtain ⟨out, hok⟩ := step_cases hok
  obtain ⟨hclient, book, rfl, ⟨hnew, hadd⟩ | ⟨hcancel, hfound⟩⟩ := processClientRequest_cases hok
  · obtain ⟨x, hx, hrest⟩ := add_eq_ok hadd
    have hnone : e.tradesOf r = [] := by
      cases htrades : e.tradesOf r with
      | nil => rfl
      | cons f fs =>
        have hf : f ∈ e.tradesOf r := htrades ▸ List.mem_cons_self
        have hbook := checkForMatch_holds (h r.clientId) hx f hf
        exact absurd (hbook.symm.trans (hiso.trades hnew f hf)) hother
    have hx' := checkForMatch_untouched hx hnone
    subst hx'
    rcases hrest with ⟨h0, -, -⟩ | ⟨-, priority, hrest, -⟩
    · exact .inl ⟨hnew, h0⟩
    · -- the order that was entered is in the wrong book
      obtain ⟨p, -, -, -, hfree, hident⟩ := restOrder_entry hrest
      have hused : ((e.setBook r.clientId book).tickerOrderBook r.clientId).book.orderPool.isFree p =
          false := by
        rw [setBook_self, hfree, if_pos rfl]
      have hticker := hiso.holds r.clientId p hused
      rw [setBook_self, hident, if_pos rfl] at hticker
      exact absurd hticker.symm hother
  · rcases cancel_eq_ok hfound with ⟨-, -, hnone⟩ | ⟨p, -, hr, -⟩
    · exact .inr ⟨hcancel, hnone (hclient.trans (by decide))⟩
    · obtain ⟨b, hb, rfl⟩ := removeOrder_eq_ok hr
      obtain ⟨hused, -, hfree, -⟩ := removeOrder_entry hb
      have hbook := (h r.clientId).used p hused
      have hgone : ((e.setBook r.clientId
          { e.tickerOrderBook r.clientId with book := b }).tickerOrderBook
            r.clientId).book.orderPool.isFree p = true := by
        rw [setBook_self]
        exact (hfree p).trans (if_pos rfl)
      exact absurd (hbook.symm.trans (hiso.cancels hcancel r.clientId p hused hgone)) hother

theorem step_same (hok : e.step r = .ok e') (hidle : (r.type = .new ∧ r.qty = 0) ∨
    (r.type = .cancel ∧
      (e.tickerOrderBook r.clientId).book.idToOrder (r.clientId, r.orderId) = none)) :
    e' = e ∧ (r.type = .new → e.tradesOf r = []) := by
  obtain ⟨out, hok⟩ := step_cases hok
  obtain ⟨-, book, rfl, ⟨hnew, hadd⟩ | ⟨hcancel, hfound⟩⟩ := processClientRequest_cases hok
  · rcases hidle with ⟨-, h0⟩ | ⟨hcancel, -⟩
    · have hnone : e.tradesOf r = [] := by
        rw [tradesOf, h0]
        exact trades_zero
      obtain ⟨x, hx, hrest⟩ := add_eq_ok hadd
      have hx' := checkForMatch_untouched hx hnone
      subst hx'
      rcases hrest with ⟨-, rfl, -⟩ | ⟨hleft, -⟩
      · exact ⟨setBook_same _, fun _ => hnone⟩
      · exact absurd h0 hleft
    · rw [hnew] at hcancel
      cases hcancel
  · rcases hidle with ⟨hnew, -⟩ | ⟨-, hnone⟩
    · rw [hcancel] at hnew
      cases hnew
    · rcases cancel_eq_ok hfound with ⟨rfl, -, -⟩ | ⟨p, hp, -, -⟩
      · refine ⟨setBook_same _, fun hnew => ?_⟩
        rw [hcancel] at hnew
        cases hnew
      · rw [hnone] at hp
        cases hp

/-- One request keeps the tickers apart exactly when it is for the book of its own ticker. -/
theorem Sorted.isolated_iff (h : Sorted e) :
    ((∀ e', e.step r = .ok e' → Isolated e e' r) ↔ e.OwnBook r) ∧
      (e.OwnBook r → ∀ e', e.step r = .ok e' → Sorted e') := by
  constructor
  · constructor
    · intro hall hreturns
      obtain ⟨e', hok⟩ := hreturns
      by_cases hown : r.clientId = r.tickerId
      · exact .inl hown
      · exact .inr (h.ownBook_of_isolated hok (hall e' hok) hown)
    · intro hown e' hok
      rcases hown ⟨e', hok⟩ with hsame | hidle
      · exact h.isolated hsame hok
      · obtain ⟨rfl, hnone⟩ := step_same hok hidle
        exact h.isolated_same hnone
  · intro hown e' hok
    rcases hown ⟨e', hok⟩ with hsame | hidle
    · exact h.step hsame hok
    · obtain ⟨rfl, -⟩ := step_same hok hidle
      exact h

/-- In any sequence of requests the tickers are kept apart exactly when every request that does
something has its ticker's number as its client's. -/
theorem run_isolated_iff (rs : List MEClientRequest) :
    (∀ done r, done ++ [r] <+: rs → ∀ e, run step {} done = .ok e →
      ∀ e', e.step r = .ok e' → Isolated e e' r) ↔ Meets step OwnBook {} rs := by
  exact forall_call_iff_meets (O := fun e r => ∀ e', step e r = .ok e' → Isolated e e' r)
    sorted_init fun e r he => he.isolated_iff

/-- Client 1 buys at ticker 0. -/
def otherTicker : MEClientRequest :=
  { type := .new, clientId := 1, tickerId := 0, orderId := 1, side := .buy, price := 10, qty := 5 }

/-- The order comes to rest in the book of ticker 1. -/
theorem otherTicker_not_isolated :
    ∃ e', step {} otherTicker = .ok e' ∧ ¬Isolated {} e' otherTicker := by
  have hread : (step {} otherTicker).map (fun e =>
      ((e.tickerOrderBook 1).book.orderPool.isFree 0,
        ((e.tickerOrderBook 1).book.order 0).ident.tickerId)) = .ok (false, 0) := by
    decide
  obtain ⟨e', hok, hpair⟩ := map_eq_ok hread
  obtain ⟨hused, hticker⟩ := Prod.mk.inj hpair
  refine ⟨e', hok, fun hiso => ?_⟩
  have hone := hiso.holds 1 0 hused
  rw [hticker] at hone
  cases hone

end Requests

end MatchingEngine

end HighPerformance
