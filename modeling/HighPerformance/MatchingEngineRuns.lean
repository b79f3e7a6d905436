import HighPerformance.MEOrderBookLedger
import HighPerformance.MatchingEngine
import HighPerformance.RoutedRun

/-!
# Runs of the matching engine

The engine is a table of order books with the client as the key, so its runs are the runs of the
single books. Each book meets the orders of one client only: all responses to a request go to the
client that sent it, and no client ever trades with another one.
-/

namespace HighPerformance.MatchingEngine
open LevelBook FallibleRun RoutedRun MEOrderBook

/-- The call that a request makes of the order book; only the types that make one matter. -/
def bookRequest (r : MEClientRequest) : Request :=
  if r.type = .new then .add r.clientId r.orderId r.tickerId r.side r.price r.qty
  else .cancel r.clientId r.orderId r.tickerId

/-- A request, with its messages behind those of the requests before it. -/
def stepSending (x : MatchingEngine × List Outgoing) (r : MEClientRequest) :
    Except Fault (MatchingEngine × List Outgoing) :=
  (x.1.processClientRequest r).map fun y => (y.1, x.2 ++ y.2)

/-- The engine as one client's book sees it. -/
def bookStep (k : ℕ) (x : MEOrderBook × List Outgoing) (r : MEClientRequest) :
    Except Fault (MEOrderBook × List Outgoing) := do
  at? "ticker_order_book_" meMaxTickers k
  if r.type = .new ∨ r.type = .cancel then MEOrderBook.stepSending x (bookRequest r)
  else .error (.fatal ("Received invalid client-request-type:" ++
    clientRequestTypeToString r.type))

def responseTo (k : ℕ) : Outgoing → Option MEClientResponse
  | .response r => if r.clientId = k then some r else none
  | .update _ => none

/-- The responses that the order server sends to one client. -/
def responsesTo (k : ℕ) (out : List Outgoing) : List MEClientResponse :=
  out.filterMap (responseTo k)

/-- Every order of a book is of the client whose number the book has. -/
def OwnClients (e : MatchingEngine) : Prop :=
  ∀ k, HoldsOnly (fun ident => ident.clientId = k) (e.tickerOrderBook k).book

/-- Every response is to the client `k`. -/
def RespondsTo (k : ℕ) (out : List Outgoing) : Prop := ∀ x, .response x ∈ out → x.clientId = k

section Requests
variable {e e' : MatchingEngine} {r : MEClientRequest} {out sent : List Outgoing} {k j : ℕ}
  {m m' : MEOrderBook} {q : Request}

theorem respondsTo_trades {i : Incoming} {fills : List Fill} (hi : i.clientId = k)
    (hfills : ∀ f ∈ fills, f.order.ident.clientId = k) :
    RespondsTo k (fills.flatMap (Fill.messages i)) := by
  intro x hx
  obtain ⟨f, hf, hx⟩ := List.mem_flatMap.mp hx
  simp only [Fill.messages, tradeMessages, List.mem_cons, Outgoing.response.injEq, reduceCtorEq,
    List.not_mem_nil, or_false, false_or] at hx
  rcases hx with rfl | rfl | hx
  · exact hi
  · exact hfills f hf
  · split at hx
    · cases hx
    · cases hx

/-- A call for one client of a book of that client's orders answers that client. -/
theorem handle_respondsTo (h : HoldsOnly (fun ident => ident.clientId = r.clientId) m.book)
    (hok : m.handle (bookRequest r) = .ok (m', out)) :
    RespondsTo r.clientId out ∧ HoldsOnly (fun ident => ident.clientId = r.clientId) m'.book := by
  unfold bookRequest at hok
  split at hok
  next hnew =>
    refine ⟨?_, holds_add h rfl hok⟩
    obtain ⟨x, hx, -⟩ := add_eq_ok hok
    obtain ⟨rest, rfl, hrest⟩ := add_messages hok
    intro y hy
    rw [List.cons_append, List.mem_cons, List.mem_append] at hy
    rcases hy with hy | hy | hy
    · cases hy
      rfl
    · exact respondsTo_trades rfl (checkForMatch_holds h hx) y hy
    · obtain ⟨leaves, priority, hu⟩ := hrest _ hy
      cases hu
  next hcancel =>
    refine ⟨?_, holds_cancel h hok⟩
    intro y hy
    rcases cancel_eq_ok hok with ⟨-, hout, -⟩ | ⟨p, -, -, hout⟩
    · rw [hout] at hy
      cases List.mem_singleton.mp hy
      rfl
    · rw [hout] at hy
      simp only [List.mem_cons, Outgoing.response.injEq, reduceCtorEq, List.not_mem_nil, or_false,
        false_or] at hy
      rw [hy]

theorem processClientRequest_handle (hok : e.processClientRequest r = .ok (e', out)) :
    r.clientId < meMaxTickers ∧ (r.type = .new ∨ r.type = .cancel) ∧ ∃ book,
      (e.tickerOrderBook r.clientId).handle (bookRequest r) = .ok (book, out) ∧
      e' = e.setBook r.clientId book := by
  obtain ⟨hclient, book, he, ⟨htype, hcall⟩ | ⟨htype, hcall⟩⟩ := processClientRequest_cases hok
  · refine ⟨hclient, .inl htype, book, ?_, he⟩
    rw [bookRequest, if_pos htype]
    exact hcall
  · refine ⟨hclient, .inr htype, book, ?_, he⟩
    have hnew : r.type ≠ .new := by simp [htype]
    rw [bookRequest, if_neg hnew]
    exact hcall

theorem handle_processClientRequest (hclient : r.clientId < meMaxTickers)
    (htype : r.type = .new ∨ r.type = .cancel)
    (hcall : (e.tickerOrderBook r.clientId).handle (bookRequest r) = .ok (m, out)) :
    e.processClientRequest r = .ok (e.setBook r.clientId m, out) := by
  unfold processClientRequest
  rcases htype with htype | htype
  · rw [bookRequest, if_pos htype] at hcall
    simp only [MEOrderBook.handle] at hcall
    simp only [at?_lt hclient, htype, hcall]
    rfl
  · have hnew : r.type ≠ .new := by simp [htype]
    rw [bookRequest, if_neg hnew] at hcall
    simp only [MEOrderBook.handle] at hcall
    simp only [at?_lt hclient, htype, hcall]
    rfl

theorem ownClients_init : OwnClients {} := fun k => holds_init k

theorem OwnClients.request (h : OwnClients e) (hok : e.processClientRequest r = .ok (e', out)) :
    RespondsTo r.clientId out ∧ OwnClients e' := by
  obtain ⟨-, -, book, hcall, rfl⟩ := processClientRequest_handle hok
  obtain ⟨hto, hbook⟩ := handle_respondsTo (h r.clientId) hcall
  refine ⟨hto, fun k => ?_⟩
  by_cases hk : k = r.clientId
  · subst hk
    rw [setBook_self]
    exact hbook
  · rw [setBook_other hk]
    exact h k

theorem bookStep_eq_ok {x y : MEOrderBook × List Outgoing} (hok : bookStep k x r = .ok y) :
    k < meMaxTickers ∧ (r.type = .new ∨ r.type = .cancel) ∧ ∃ book sent,
      x.1.handle (bookRequest r) = .ok (book, sent) ∧ y = (book, x.2 ++ sent) := by
  obtain ⟨_, hat, hok⟩ := bind_eq_ok.mp hok
  split at hok
  next htype =>
    obtain ⟨z, hz, rfl⟩ := map_eq_ok hok
    exact ⟨at?_eq_ok.mp hat, htype, z.1, z.2, hz, rfl⟩
  next => cases hok

theorem bookStep_of_handle {x : MEOrderBook × List Outgoing} (hclient : k < meMaxTickers)
    (htype : r.type = .new ∨ r.type = .cancel)
    (hcall : x.1.handle (bookRequest r) = .ok (m, sent)) :
    bookStep k x r = .ok (m, x.2 ++ sent) := by
  simp only [bookStep, at?_lt hclient, if_pos htype, MEOrderBook.stepSending, hcall]
  rfl

end Requests

/-! ## The engine as a table of books -/

section Table
variable {e e' : MatchingEngine} {r : MEClientRequest} {out out' sent : List Outgoing} {k : ℕ}
  {rs : List MEClientRequest} {table table' : ℕ → MEOrderBook × List Outgoing}

/-- The table holds the engine's books, and for each client the responses to it. -/
structure Tabled (e : MatchingEngine) (out : List Outgoing)
    (table : ℕ → MEOrderBook × List Outgoing) : Prop where
  books : ∀ k, (table k).1 = e.tickerOrderBook k
  responses : ∀ k, responsesTo k out = responsesTo k (table k).2
  clients : OwnClients e

theorem responsesTo_append : responsesTo k (out ++ sent) = responsesTo k out ++ responsesTo k sent :=
  List.filterMap_append

theorem responsesTo_other (h : RespondsTo k sent) {j : ℕ} (hj : j ≠ k) : responsesTo j sent = [] := by
  rw [responsesTo, List.filterMap_eq_nil_iff]
  intro x hx
  cases x with
  | update u => rfl
  | response y => exact if_neg fun hy => hj (hy.symm.trans (h y hx))

theorem tabled_init : Tabled {} [] fun k => (MEOrderBook.init k, []) :=
  ⟨fun _ => rfl, fun _ => rfl, ownClients_init⟩

theorem Tabled.request {book : MEOrderBook} (h : Tabled e out table)
    (hcall : (e.tickerOrderBook r.clientId).handle (bookRequest r) = .ok (book, sent)) :
    Tabled (e.setBook r.clientId book) (out ++ sent)
      (Function.update table r.clientId (book, (table r.clientId).2 ++ sent)) := by
  obtain ⟨hto, hbook⟩ := handle_respondsTo (h.clients r.clientId) hcall
  constructor
  · intro k
    by_cases hk : k = r.clientId
    · subst hk
      rw [Function.update_self, setBook_self]
    · rw [Function.update_of_ne hk, setBook_other hk]
      exact h.books k
  · intro k
    by_cases hk : k = r.clientId
    · subst hk
      rw [Function.update_self, responsesTo_append, responsesTo_append, h.responses]
    · rw [Function.update_of_ne hk, responsesTo_append, responsesTo_other hto hk, List.append_nil,
        h.responses]
  · intro k
    by_cases hk : k = r.clientId
    · subst hk
      rw [setBook_self]
      exact hbook
    · rw [setBook_other hk]
      exact h.clients k

theorem Tabled.run (h : Tabled e out table)
    (hok : run stepSending (e, out) rs = .ok (e', out')) :
    ∃ table', FallibleRun.run (stepAt MEClientRequest.clientId bookStep) table rs = .ok table' ∧
      Tabled e' out' table' := by
  induction rs generalizing e out table with
  | nil =>
    cases hok
    exact ⟨table, rfl, h⟩
  | cons r rs ih =>
    obtain ⟨x, hx, hok⟩ := run_cons_eq_ok.mp hok
    obtain ⟨⟨e₁, sent⟩, hr, rfl⟩ := map_eq_ok hx
    obtain ⟨hclient, htype, book, hcall, rfl⟩ := processClientRequest_handle hr
    obtain ⟨table', hrun, htabled⟩ := ih (h.request hcall) hok
    refine ⟨table', ?_, htabled⟩
    have hbook : bookStep r.clientId (table r.clientId) r =
        .ok (book, (table r.clientId).2 ++ sent) := by
      apply bookStep_of_handle hclient htype
      rw [h.books]
      exact hcall
    have hstep : stepAt MEClientRequest.clientId bookStep table r = .ok (Function.update table r.clientId
        (book, (table r.clientId).2 ++ sent)) := by
      rw [stepAt, hbook]
      rfl
    rw [run_cons_ok hstep]
    exact hrun

theorem Tabled.run_of_table (h : Tabled e out table)
    (hok : FallibleRun.run (stepAt MEClientRequest.clientId bookStep) table rs = .ok table') :
    ∃ e' out', FallibleRun.run stepSending (e, out) rs = .ok (e', out') ∧ Tabled e' out' table' := by
  induction rs generalizing e out table with
  | nil =>
    cases hok
    exact ⟨e, out, rfl, h⟩
  | cons r rs ih =>
    obtain ⟨t, ht, hok⟩ := run_cons_eq_ok.mp hok
    obtain ⟨x, hx, rfl⟩ := stepAt_eq_ok ht
    obtain ⟨hclient, htype, book, sent, hcall, rfl⟩ := bookStep_eq_ok hx
    rw [h.books] at hcall
    obtain ⟨e', out', hrun, htabled⟩ := ih (h.request hcall) hok
    refine ⟨e', out', ?_, htabled⟩
    have hstep : stepSending (e, out) r = .ok (e.setBook r.clientId book, out ++ sent) := by
      rw [stepSending, handle_processClientRequest hclient htype hcall]
      rfl
    rw [run_cons_ok hstep]
    exact hrun

end Table

/-- The engine returns with its books and its responses exactly when every client's book, fed the
requests of that client alone, returns with that book and those responses. -/
theorem run_decomposes (rs : List MEClientRequest) (e : MatchingEngine)
    (responses : ℕ → List MEClientResponse) :
    (∃ out, run stepSending ({}, []) rs = .ok (e, out) ∧
      ∀ k, responsesTo k out = responses k) ↔
    ∀ k, ∃ sent, run (bookStep k) (MEOrderBook.init k, []) (inputsAt MEClientRequest.clientId k rs) =
      .ok (e.tickerOrderBook k, sent) ∧ responsesTo k sent = responses k := by
  constructor
  · rintro ⟨out, hok, hout⟩ k
    obtain ⟨table, hrun, htabled⟩ := tabled_init.run hok
    refine ⟨(table k).2, ?_, ?_⟩
    · rw [← htabled.books k]
      exact run_at hrun k
    · rw [← htabled.responses, hout]
  · intro hall
    choose sent hrun hsent using hall
    have htable : run (stepAt MEClientRequest.clientId bookStep) (fun k => (MEOrderBook.init k, [])) rs =
        .ok fun k => (e.tickerOrderBook k, sent k) := run_of_all hrun
    obtain ⟨e', out, hok, htabled⟩ := tabled_init.run_of_table htable
    have hsame : e' = e := by
      cases e
      cases e'
      congr
      exact (funext htabled.books).symm
    exact ⟨out, hsame ▸ hok, fun k => (htabled.responses k).trans (hsent k)⟩

section Clients
variable {rs : List MEClientRequest} {e e' : MatchingEngine} {out : List Outgoing}

theorem run_ownClients (hrun : run step e rs = .ok e') (h : OwnClients e) : OwnClients e' := by
  apply run_invariant (G := fun _ _ => True) h (meets_of_forall fun _ _ => trivial) _ hrun
  intro e r e' he _ hstep
  obtain ⟨out, hok⟩ := step_cases hstep
  exact (he.request hok).2

/-- All responses to a request go to the client that sent it: in no run does a trade have two
different clients. -/
theorem run_respondsTo (done : List MEClientRequest) (r : MEClientRequest)
    (hrun : run step {} done = .ok e) (hok : e.processClientRequest r = .ok (e', out)) :
    ∀ x, .response x ∈ out → x.clientId = r.clientId :=
  ((run_ownClients hrun ownClients_init).request hok).1

/-- Client 1 sells what client 2 wants to buy at the same ticker and price. -/
def sellOfOne : MEClientRequest :=
  { type := .new, clientId := 1, tickerId := 0, orderId := 0, side := .sell, price := 10, qty := 5 }

def buyOfTwo : MEClientRequest :=
  { type := .new, clientId := 2, tickerId := 0, orderId := 0, side := .buy, price := 10, qty := 5 }

theorem run_respondsTo_two : ∃ e e' out, run step {} [sellOfOne] = .ok e ∧
    e.processClientRequest buyOfTwo = .ok (e', out) ∧
      (∃ x, .response x ∈ out ∧ x.clientId = 2) ∧ out.length = 2 := by
  have hread : (run step {} [sellOfOne]).bind (fun e => (e.processClientRequest buyOfTwo).map
      fun y => (y.2[0]?, y.2.length)) =
      .ok (some (acceptance 2 0 0 1 .buy 10 5), 2) := by
    decide +kernel
  obtain ⟨e, hrun, hread⟩ := bind_eq_ok.mp hread
  obtain ⟨⟨e', out⟩, hok, hpair⟩ := map_eq_ok hread
  obtain ⟨hfirst, hlen⟩ := Prod.mk.inj hpair
  have hmem := List.mem_of_getElem? hfirst
  exact ⟨e, e', out, hrun, hok, ⟨_, hmem, run_respondsTo _ _ hrun hok _ hmem⟩, hlen⟩

end Clients

/-! ## The ledger of a client -/

/-- The request keeps the order of the asks in the book that it goes to. -/
def KeepsOrder (e : MatchingEngine) (r : MEClientRequest) : Prop :=
  KeepsAskOrder (e.tickerOrderBook r.clientId) (bookRequest r)

instance (e : MatchingEngine) : DecidablePred e.KeepsOrder :=
  fun r => inferInstanceAs (Decidable (KeepsAskOrder (e.tickerOrderBook r.clientId) (bookRequest r)))

section Ledger
variable {rs : List MEClientRequest} {e e' : MatchingEngine} {out out' : List Outgoing} {k : ℕ}

/-- The requests of one client, as calls of its book. -/
def clientRequests (k : ℕ) (rs : List MEClientRequest) : List Request :=
  (inputsAt MEClientRequest.clientId k rs).map bookRequest

theorem run_book {x y : MEOrderBook × List Outgoing} {rs : List MEClientRequest}
    (h : run (bookStep k) x rs = .ok y) :
    run MEOrderBook.stepSending x (rs.map bookRequest) = .ok y := by
  induction rs generalizing x with
  | nil => exact h
  | cons r rs ih =>
    obtain ⟨z, hz, h⟩ := run_cons_eq_ok.mp h
    obtain ⟨-, -, book, sent, hcall, rfl⟩ := bookStep_eq_ok hz
    have hstep : MEOrderBook.stepSending x (bookRequest r) = .ok (book, x.2 ++ sent) := by
      rw [MEOrderBook.stepSending, hcall]
      rfl
    rw [List.map_cons, run_cons_ok hstep]
    exact ih h

theorem meets_book (h : Meets step KeepsOrder e rs) (hok : run step e rs = .ok e') (k : ℕ) :
    Meets MEOrderBook.step KeepsAskOrder (e.tickerOrderBook k) (clientRequests k rs) := by
  induction rs generalizing e with
  | nil => trivial
  | cons r rs ih =>
    obtain ⟨e₁, he₁, hok⟩ := run_cons_eq_ok.mp hok
    have hrest := ih (h.2 e₁ he₁) hok
    obtain ⟨sent, hr⟩ := step_cases he₁
    obtain ⟨-, -, book, hcall, rfl⟩ := processClientRequest_handle hr
    by_cases hk : r.clientId = k
    · subst hk
      rw [setBook_self] at hrest
      rw [clientRequests, inputsAt_own, List.map_cons]
      refine ⟨h.1, fun m hm => ?_⟩
      rw [MEOrderBook.step, hcall] at hm
      cases hm
      exact hrest
    · rw [setBook_other (Ne.symm hk)] at hrest
      rw [clientRequests, inputsAt_other hk]
      exact hrest

theorem run_of_stepSending (h : run stepSending (e, out) rs = .ok (e', out')) :
    run step e rs = .ok e' := by
  induction rs generalizing e out with
  | nil =>
    cases h
    rfl
  | cons r rs ih =>
    obtain ⟨x, hx, h⟩ := run_cons_eq_ok.mp h
    obtain ⟨y, hy, rfl⟩ := map_eq_ok hx
    have hstep : step e r = .ok y.1 := by
      rw [step, hy]
      rfl
    rw [run_cons_ok hstep]
    exact ih h

/-- The entries of a client's orders are in the responses to it. -/
theorem sumOut_responsesTo (f : Outgoing → ℕ) (out : List Outgoing) (hu : ∀ u, f (.update u) = 0)
    (hother : ∀ r, r.clientId ≠ k → f (.response r) = 0) :
    sumOut f out = sumOut f ((responsesTo k out).map .response) := by
  induction out with
  | nil => rfl
  | cons x out ih =>
    cases x with
    | update u =>
      rw [sumOut_cons, hu, Nat.zero_add, ih]
      rfl
    | response r =>
      by_cases hr : r.clientId = k
      · have hone : responseTo k (.response r) = some r := if_pos hr
        rw [sumOut_cons, ih, responsesTo, responsesTo, List.filterMap_cons_some hone,
          List.map_cons, sumOut_cons]
      · have hone : responseTo k (.response r) = none := if_neg hr
        rw [sumOut_cons, hother r hr, Nat.zero_add, ih, responsesTo, responsesTo,
          List.filterMap_cons_none hone]

theorem mem_clientRequests {r : MEClientRequest} (hr : r ∈ rs) :
    bookRequest r ∈ clientRequests r.clientId rs :=
  List.mem_map_of_mem (List.mem_filter.mpr ⟨hr, decide_eq_true rfl⟩)

end Ledger

/-- In every such run of the engine, the quantity of every client's order is what the responses to
that client say was executed and cancelled of it and what rests of it in the client's book. -/
theorem run_clientLedger (rs : List MEClientRequest) (hvalid : ∀ r ∈ rs, (bookRequest r).Valid)
    (hkeys : (rs.filterMap fun r => (bookRequest r).newKey).Nodup)
    (hsafe : Meets step KeepsOrder {} rs) {e : MatchingEngine} {out : List Outgoing}
    (hok : run stepSending ({}, []) rs = .ok (e, out)) {r : MEClientRequest} (hr : r ∈ rs)
    (hnew : r.type = .new) :
    sumOut (execQtyOf (r.clientId, r.orderId)) ((responsesTo r.clientId out).map .response) +
      sumOut (canceledQtyOf (r.clientId, r.orderId)) ((responsesTo r.clientId out).map .response) +
      (e.tickerOrderBook r.clientId).restingQty (r.clientId, r.orderId) = r.qty := by
  obtain ⟨table, hrun, htabled⟩ := tabled_init.run hok
  have hbook := run_book (run_at hrun r.clientId)
  have hvalid' : ∀ q ∈ clientRequests r.clientId rs, q.Valid := by
    intro q hq
    obtain ⟨r', hr', rfl⟩ := List.mem_map.mp hq
    exact hvalid r' (List.mem_filter.mp hr').1
  have hkeys' : ((clientRequests r.clientId rs).filterMap Request.newKey).Nodup := by
    rw [clientRequests, List.filterMap_map]
    exact hkeys.sublist (List.filter_sublist.filterMap _)
  have hsafe' := meets_book hsafe (run_of_stepSending hok) r.clientId
  have hadd : Request.add r.clientId r.orderId r.tickerId r.side r.price r.qty ∈
      clientRequests r.clientId rs := by
    have hmem := mem_clientRequests hr
    rwa [bookRequest, if_pos hnew] at hmem
  have hledger := run_ledger r.clientId _ hvalid' hkeys' hsafe' hbook hadd
  rw [htabled.books] at hledger
  have hother : ∀ x : MEClientResponse, x.clientId ≠ r.clientId →
      (x.clientId, x.clientOrderId) ≠ (r.clientId, r.orderId) :=
    fun x hx heq => hx (congrArg Prod.fst heq)
  have hexec := sumOut_responsesTo (execQtyOf (r.clientId, r.orderId)) (table r.clientId).2
    (fun _ => rfl) fun x hx => if_neg fun h => hother x hx h.2
  have hcanceled := sumOut_responsesTo (canceledQtyOf (r.clientId, r.orderId)) (table r.clientId).2
    (fun _ => rfl) fun x hx => if_neg fun h => hother x hx h.2
  rw [hexec, hcanceled, ← htabled.responses] at hledger
  exact hledger

/-- Client 1 sells, buys part of it back and cancels the rest. -/
def ownTrade : List MEClientRequest :=
  [sellOfOne, buyOfTwo, { sellOfOne with orderId := 1, side := .buy, qty := 2 },
    { sellOfOne with type := .cancel }]

theorem run_clientLedger_own : ∃ e out, run stepSending ({}, []) ownTrade = .ok (e, out) ∧
    sumOut (execQtyOf (1, 0)) ((responsesTo 1 out).map .response) +
      sumOut (canceledQtyOf (1, 0)) ((responsesTo 1 out).map .response) +
      (e.tickerOrderBook 1).restingQty (1, 0) = 5 := by
  have hread : (run stepSending ({}, []) ownTrade).map (fun _ => ()) = .ok () := by decide +kernel
  obtain ⟨⟨e, out⟩, hok, -⟩ := map_eq_ok hread
  have hmem : sellOfOne ∈ ownTrade := List.mem_cons_self
  exact ⟨e, out, hok, run_clientLedger ownTrade (by decide) (by decide) (by decide +kernel) hok
    hmem rfl⟩

end HighPerformance.MatchingEngine
