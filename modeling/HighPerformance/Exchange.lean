import HighPerformance.MEOrderBookFaults
import HighPerformance.MatchingEngine
import HighPerformance.OrderEntry

/-!
# The exchange

The way of a request: the bytes of a socket, the order server and its sequencer, the queue to the
matching engine, the order books, and back to the order server with the responses. The log calls
are silent.
-/

namespace HighPerformance
open FallibleRun Framing

namespace OrderServer

/-- The socket is the client's, and the sequence number the expected one. -/
def Accepts (s : OrderServer) (socket : ℕ) (request : OMClientRequest) : Prop :=
  let clientId := request.meClientRequest.clientId
  (s.bindSocket clientId socket).cidTcpSocket clientId = some socket ∧
    request.seqNum = s.cidNextExpSeqNum clientId

instance (s : OrderServer) (socket : ℕ) : DecidablePred (s.Accepts socket) := fun _ =>
  inferInstanceAs (Decidable (_ ∧ _))

/-- The client has a place in the tables, and the sequencer one for the request if it is accepted. -/
def HasPlaces (socket : ℕ) (s : OrderServer) (bytes : List UInt8) : Prop :=
  (OMClientRequest.ofBytes bytes).meClientRequest.clientId < meMaxNumClients ∧
    (s.Accepts socket (OMClientRequest.ofBytes bytes) →
      s.fifoSequencer.pendingClientRequests.length < meMaxPendingRequests)

instance (socket : ℕ) (s : OrderServer) : DecidablePred (HasPlaces socket s) := fun _ =>
  inferInstanceAs (Decidable (_ ∧ (_ → _)))

end OrderServer

structure Exchange where
  orderServer : OrderServer := {}
  matchingEngine : MatchingEngine := {}
  outgoingResponses : List MEClientResponse := []

def Outgoing.response? : Outgoing → Option MEClientResponse
  | .response r => some r
  | .update _ => none

namespace Exchange

inductive Event where
  | receive (socket : ℕ) (bytes : List UInt8) (rxTime : ℤ)
  | recvFinished
  | process
  | respond

/-- The bytes of the socket after this receive. -/
def arrived (e : Exchange) (socket : ℕ) (bytes : List UInt8) : List UInt8 :=
  e.orderServer.rcvBuffer socket ++ bytes

/-- The order server with these bytes in the socket's buffer. -/
def received (e : Exchange) (socket : ℕ) (bytes : List UInt8) : OrderServer :=
  { e.orderServer with
    rcvBuffer := Function.update e.orderServer.rcvBuffer socket (e.arrived socket bytes) }

def receive (e : Exchange) (socket : ℕ) (bytes : List UInt8) (rxTime : ℤ) :
    Except Fault Exchange := do
  let orderServer ← (e.received socket bytes).recvCallback OrderServer.silent socket rxTime
  return { e with orderServer }

/-- The body of the loop of `MatchingEngine::run`. -/
def process (e : Exchange) : Except Fault Exchange :=
  match e.orderServer.fifoSequencer.incomingRequests with
  | [] => .ok e
  | r :: rs => do
      let x ← e.matchingEngine.processClientRequest r
      return {
        orderServer := { e.orderServer with
          fifoSequencer := { e.orderServer.fifoSequencer with incomingRequests := rs } }
        matchingEngine := x.1
        outgoingResponses := e.outgoingResponses ++ x.2.filterMap Outgoing.response? }

def respond (e : Exchange) : Except Fault Exchange :=
  match e.outgoingResponses with
  | [] => .ok e
  | r :: rs => do
      let orderServer ← e.orderServer.sendResponse OrderServer.silent r
      return { e with orderServer, outgoingResponses := rs }

def step (sort : List RecvTimeClientRequest → List RecvTimeClientRequest) (e : Exchange) :
    Event → Except Fault Exchange
  | .receive socket bytes rxTime => e.receive socket bytes rxTime
  | .recvFinished =>
      .ok { e with orderServer := { e.orderServer with
        fifoSequencer := e.orderServer.fifoSequencer.sequenceAndPulish sort } }
  | .process => e.process
  | .respond => e.respond

/-- The tables that the fields of a request index. -/
def requestTables : List String :=
  ["cid_tcp_socket_", "cid_next_exp_seq_num_", "ticker_order_book_", "cid_oid_to_order_"]

/-- An access outside of one of these tables, or `FATAL`. -/
def Crash : Fault → Prop
  | .fatal _ => True
  | .outOfRange table => table ∈ requestTables
  | .assertion _ | .nullDeref | .diverges => False

instance : DecidablePred Crash
  | .fatal _ => inferInstanceAs (Decidable True)
  | .outOfRange _ => inferInstanceAs (Decidable (_ ∈ _))
  | .assertion _ | .nullDeref | .diverges => inferInstanceAs (Decidable False)

/-- The trades that the new order makes leave nothing of it, so that it does not come to rest. -/
def Filled (e : MatchingEngine) (r : MEClientRequest) : Prop :=
  r.type = .new ∧ ((e.tradesOf r).map MEOrderBook.Fill.execQty).sum = r.qty

/-- A new order or a cancellation, with ids for which the matching engine's tables have places,
as far as they are looked up. -/
structure Admissible (e : MatchingEngine) (r : MEClientRequest) : Prop where
  type : r.type = .new ∨ r.type = .cancel
  clientId : r.clientId < meMaxTickers
  orderId : Filled e r ∨ r.orderId < meMaxOrderIds

instance {e : MatchingEngine} {r : MEClientRequest} : Decidable (Filled e r) :=
  inferInstanceAs (Decidable (_ ∧ _))

instance {e : MatchingEngine} {r : MEClientRequest} : Decidable (Admissible e r) :=
  decidable_of_iff ((r.type = .new ∨ r.type = .cancel) ∧ r.clientId < meMaxTickers ∧
    (Filled e r ∨ r.orderId < meMaxOrderIds))
    ⟨fun h => ⟨h.1, h.2.1, h.2.2⟩, fun h => ⟨h.1, h.2, h.3⟩⟩

/-- The client of each request that a receive completes has a place in the order server's tables,
and there is room for the requests that are accepted; the request that is processed is
admissible. -/
def Admits (e : Exchange) : Event → Prop
  | .receive socket bytes rxTime =>
      Meets (OrderServer.receiveRequest OrderServer.silent socket rxTime)
        (OrderServer.HasPlaces socket) (e.received socket bytes)
        (frames OMClientRequest.size (e.arrived socket bytes))
  | .process => ∀ r ∈ e.orderServer.fifoSequencer.incomingRequests.head?,
      Admissible e.matchingEngine r
  | .recvFinished | .respond => True

instance (e : Exchange) : DecidablePred e.Admits
  | .receive _ _ _ => inferInstanceAs (Decidable (Meets _ _ _ _))
  | .process => inferInstanceAs (Decidable (∀ _ ∈ _, _))
  | .recvFinished | .respond => inferInstanceAs (Decidable True)

/-- All order ids in the books have places in `cid_oid_to_order_`. -/
def Fits (e : Exchange) : Prop :=
  ∀ t, LevelBook.HoldsOnly MEOrderBook.KeyFits (e.matchingEngine.tickerOrderBook t).book

end Exchange

namespace OrderServer
variable {s : OrderServer} {socket : ℕ} {rxTime : ℤ} {bytes : List UInt8} {fs : List (List UInt8)}

theorem bindSocket_fifoSequencer (c : ℕ) :
    (s.bindSocket c socket).fifoSequencer = s.fifoSequencer := by
  unfold bindSocket
  split <;> rfl

theorem bindSocket_cidNextExpSeqNum (c : ℕ) :
    (s.bindSocket c socket).cidNextExpSeqNum = s.cidNextExpSeqNum := by
  unfold bindSocket
  split <;> rfl

/-- Only the test for room could fail, and it is made only for an accepted request. -/
theorem receiveRequest_ok (rxTime : ℤ) (h : HasPlaces socket s bytes) :
    ∃ s', receiveRequest silent socket rxTime s bytes = .ok s' := by
  obtain ⟨hclient, hroom⟩ := h
  unfold receiveRequest FIFOSequencer.addClientRequest
  simp only [at?_lt hclient, silent, bindSocket_fifoSequencer, bindSocket_cidNextExpSeqNum]
  split
  · exact ⟨_, rfl⟩
  next hsocket =>
    split
    · exact ⟨_, rfl⟩
    next hseq =>
      have hplace := hroom ⟨not_not.mp hsocket, not_not.mp hseq⟩
      rw [if_neg (Nat.not_le.mpr hplace)]
      exact ⟨_, rfl⟩

theorem receiveRequest_bound {s' : OrderServer}
    (h : s.fifoSequencer.pendingClientRequests.length ≤ meMaxPendingRequests)
    (hok : receiveRequest silent socket rxTime s bytes = .ok s') :
    s'.fifoSequencer.pendingClientRequests.length ≤ meMaxPendingRequests := by
  simp only [receiveRequest, silent] at hok
  obtain ⟨_, -, hok⟩ := bind_eq_ok.mp hok
  obtain ⟨_, -, hok⟩ := bind_eq_ok.mp hok
  split at hok
  · cases hok
    exact (bindSocket_fifoSequencer _).symm ▸ h
  · split at hok
    · cases hok
      exact (bindSocket_fifoSequencer _).symm ▸ h
    · obtain ⟨fifo, hadd, hok⟩ := bind_eq_ok.mp hok
      cases hok
      unfold FIFOSequencer.addClientRequest at hadd
      split at hadd
      · cases hadd
      next hroom =>
        cases hadd
        rw [bindSocket_fifoSequencer] at hroom ⊢
        rw [List.length_append, List.length_singleton]
        exact Nat.not_le.mp hroom

theorem run_receiveRequest_bound {s' : OrderServer}
    (h : s.fifoSequencer.pendingClientRequests.length ≤ meMaxPendingRequests)
    (hok : run (receiveRequest silent socket rxTime) s fs = .ok s') :
    s'.fifoSequencer.pendingClientRequests.length ≤ meMaxPendingRequests := by
  induction fs generalizing s with
  | nil =>
    cases hok
    exact h
  | cons f fs ih =>
    obtain ⟨s₁, hone, hok⟩ := run_cons_eq_ok.mp hok
    exact ih (receiveRequest_bound h hone) hok

theorem run_receiveRequest_ok
    (h : Meets (receiveRequest silent socket rxTime) (HasPlaces socket) s fs) :
    ∃ s', run (receiveRequest silent socket rxTime) s fs = .ok s' := by
  obtain ⟨s', hs', -⟩ := forall_run_ok_of_meets (P := fun _ => True) trivial h
    (fun _ _ _ hplaces => (receiveRequest_ok rxTime hplaces).imp fun _ hok => ⟨hok, trivial⟩)
    fs (List.prefix_refl fs)
  exact ⟨s', hs'⟩

end OrderServer

namespace MatchingEngine
open MEOrderBook
variable {e e' : MatchingEngine} {r : MEClientRequest} {out : List Outgoing}

/-- An admissible request ends neither in a bounds check nor in `FATAL`. -/
theorem failsOnly_processClientRequest
    (h : ∀ t, LevelBook.HoldsOnly KeyFits (e.tickerOrderBook t).book)
    (hr : Exchange.Admissible e r) : FailsOnly Structural (e.processClientRequest r) := by
  unfold processClientRequest
  rw [at?_lt hr.clientId]
  rcases hr.type with hnew | hcancel
  · simp only [hnew]
    refine (failsOnly_add (h r.clientId) fun hrests => ?_).bind fun _ _ => failsOnly_pure
    have horder : r.orderId < meMaxOrderIds :=
      hr.orderId.resolve_left fun hfilled => hrests hfilled.2
    have hclient : r.clientId < meMaxNumClients := hr.clientId.trans (by decide)
    simp only [checkClientOrderKey, at?_lt hclient, at?_lt horder]
    rfl
  · simp only [hcancel]
    have horder : r.orderId < meMaxOrderIds := by
      rcases hr.orderId with ⟨hnew, -⟩ | horder
      · rw [hcancel] at hnew
        cases hnew
      · exact horder
    exact (failsOnly_cancel (h r.clientId) horder).bind fun _ _ => failsOnly_pure

theorem fits_processClientRequest
    (h : ∀ t, LevelBook.HoldsOnly KeyFits (e.tickerOrderBook t).book)
    (hok : e.processClientRequest r = .ok (e', out)) (t : ℕ) :
    LevelBook.HoldsOnly KeyFits (e'.tickerOrderBook t).book := by
  obtain ⟨-, book, rfl, hcall⟩ := processClientRequest_cases hok
  by_cases ht : t = r.clientId
  · subst ht
    rw [setBook_self]
    rcases hcall with ⟨-, hadd⟩ | ⟨-, hcancel⟩
    · exact fits_add (h r.clientId) hadd
    · exact holds_cancel (h r.clientId) hcancel
  · rw [setBook_other ht]
    exact h t

end MatchingEngine

namespace Exchange

section Steps
variable {sort : List RecvTimeClientRequest → List RecvTimeClientRequest} {e e' : Exchange}
  {ev : Event} {f : Fault}

theorem not_crash_of_structural (h : Structural f) : ¬Crash f := by
  cases f with
  | fatal msg => exact h.elim
  | outOfRange table => exact h.elim
  | assertion msg => exact id
  | nullDeref => exact id
  | diverges => exact id

theorem fits_init : Fits {} := fun t => MEOrderBook.holds_init t

theorem Fits.step (h : Fits e) (hok : step sort e ev = .ok e') : Fits e' := by
  cases ev with
  | receive socket bytes rxTime =>
    obtain ⟨orderServer, -, hok⟩ := bind_eq_ok.mp hok
    cases hok
    exact h
  | recvFinished =>
    cases hok
    exact h
  | process =>
    simp only [Exchange.step, process] at hok
    split at hok
    · cases hok
      exact h
    · obtain ⟨x, hx, hok⟩ := bind_eq_ok.mp hok
      cases hok
      exact MatchingEngine.fits_processClientRequest h hx
  | respond =>
    simp only [Exchange.step, respond] at hok
    split at hok
    · cases hok
      exact h
    · obtain ⟨orderServer, -, hok⟩ := bind_eq_ok.mp hok
      cases hok
      exact h

theorem receive_ok {socket : ℕ} {bytes : List UInt8} {rxTime : ℤ}
    (h : e.Admits (.receive socket bytes rxTime)) : ∃ e', e.receive socket bytes rxTime = .ok e' := by
  obtain ⟨s', hs'⟩ := OrderServer.run_receiveRequest_ok h
  have hbuffer : (e.received socket bytes).rcvBuffer socket = e.arrived socket bytes :=
    Function.update_self ..
  have hcall : (e.received socket bytes).recvCallback OrderServer.silent socket rxTime =
      .ok { s' with
        rcvBuffer := Function.update s'.rcvBuffer socket
          (rest OMClientRequest.size (e.arrived socket bytes)) } := by
    rw [OrderServer.recvCallback_eq, hbuffer, hs']
    rfl
  unfold receive
  rw [hcall]
  exact ⟨_, rfl⟩

/-- The responses use a table of their own. -/
theorem sendResponse_noCrash {s : OrderServer} {r : MEClientResponse} :
    FailsOnly (fun f => ¬Crash f) (s.sendResponse OrderServer.silent r) := by
  have hother : ¬Crash (.outOfRange "cid_next_outgoing_seq_num_") := by decide
  have hbound : FailsOnly (fun f => ¬Crash f)
      (at? "cid_next_outgoing_seq_num_" meMaxNumClients r.clientId) := by
    unfold at?
    split
    · exact failsOnly_ok
    · exact failsOnly_error hother
  unfold OrderServer.sendResponse
  apply hbound.bind
  intro _ _
  cases s.cidTcpSocket r.clientId with
  | none => exact failsOnly_error id
  | some socket => exact failsOnly_ok

theorem respond_noCrash : FailsOnly (fun f => ¬Crash f) e.respond := by
  unfold respond
  split
  · exact failsOnly_ok
  · apply FailsOnly.bind
    · exact sendResponse_noCrash
    · exact fun _ _ => failsOnly_pure

theorem Fits.noCrash (h : Fits e) (hev : e.Admits ev) :
    FailsOnly (fun f => ¬Crash f) (Exchange.step sort e ev) := by
  cases ev with
  | receive socket bytes rxTime =>
    obtain ⟨e', he'⟩ := receive_ok hev
    exact failsOnly_of_ok he'
  | recvFinished => exact failsOnly_ok
  | process =>
    have hfails : FailsOnly Structural e.process := by
      unfold process
      split
      · exact failsOnly_ok
      next r rs hqueue =>
        have hr : Admissible e.matchingEngine r := hev r (by rw [hqueue]; rfl)
        exact (MatchingEngine.failsOnly_processClientRequest h hr).bind fun _ _ => failsOnly_pure
    exact hfails.mono fun f hf => not_crash_of_structural hf
  | respond => exact respond_noCrash

end Steps

/-- Whatever has gone through the exchange, admissible requests do not make it crash. -/
theorem run_noCrash (sort : List RecvTimeClientRequest → List RecvTimeClientRequest)
    (events path : List Event) (e : Exchange) (hok : run (step sort) {} events = .ok e)
    (hpath : Meets (step sort) Admits e path) :
    FailsOnly (fun f => ¬Crash f) (run (step sort) e path) := by
  have hfits : Fits e := run_invariant (G := fun _ _ => True) fits_init
    (meets_of_forall fun _ _ => trivial) (fun _ _ _ h _ hok => h.step hok) hok
  exact failsOnly_run hfits hpath (fun _ _ h hev => h.noCrash hev) fun _ _ _ h _ hok => h.step hok

/-- A request on socket 0, and its way to the book. -/
def pathWith (seqNum : ℕ) (r : MEClientRequest) : List Event :=
  [.receive 0 (OMClientRequest.bytes { seqNum, meClientRequest := r }) 0, .recvFinished, .process]

/-- The first request of a client. -/
def pathOf (r : MEClientRequest) : List Event := pathWith 1 r

/-- A request with sequence number 0 is passed over. -/
def zeros : List Event := [.receive 3 (List.replicate OMClientRequest.size 0) 0, .recvFinished]

/-- The second order has an id without a place; it is filled and does not rest. -/
def sellAndBuy : List Event :=
  pathOf { type := .new, clientId := 1, orderId := 1, side := .sell, price := 10, qty := 5 } ++
    pathWith 2
      { type := .new, clientId := 1, orderId := 2 ^ 20, side := .buy, price := 10, qty := 5 } ++
    [.respond]

theorem sellAndBuy_noCrash : ∃ e, run (step id) {} zeros = .ok e ∧
    FailsOnly (fun f => ¬Crash f) (run (step id) e sellAndBuy) :=
  ⟨_, rfl, run_noCrash id zeros sellAndBuy _ rfl (by decide)⟩

/-- Each of these requests is received, and what comes of it. -/
def crashes : List (MEClientRequest × Fault) :=
  [({ type := .new, clientId := 256 }, .outOfRange "cid_tcp_socket_"),
    ({ type := .new, clientId := 8 }, .outOfRange "ticker_order_book_"),
    ({ type := .invalid, clientId := 1 }, .fatal "Received invalid client-request-type:INVALID"),
    ({ type := .cancel, clientId := 1, orderId := 2 ^ 20 }, .outOfRange "cid_oid_to_order_"),
    ({ type := .new, clientId := 1, orderId := 2 ^ 20, side := .buy, price := 10, qty := 5 },
      .outOfRange "cid_oid_to_order_")]

/-- One more request than the sequencer has places for, all in one chunk. -/
def flood : List MEClientRequest :=
  List.replicate (meMaxPendingRequests + 1) { type := .cancel, clientId := 1 }

theorem flood_crashes : run (step id) {} [.receive 0 ((numbered 64 1 flood).flatMap requestBytes) 0] =
    .error FIFOSequencer.tooManyPending := by
  have hframes : frames OMClientRequest.size ((numbered 64 1 flood).flatMap requestBytes) =
      (numbered 64 1 flood).map requestBytes :=
    frames_flatMap (by decide) fun m _ => OMClientRequest.length_bytes _
  have hfit : ∀ r ∈ flood, r.clientId = 1 ∧ r.InRange := by
    intro r hr
    rw [List.eq_of_mem_replicate hr]
    decide
  let server : OrderServer :=
    { rcvBuffer := Function.update (fun _ => []) 0 ((numbered 64 1 flood).flatMap requestBytes) }
  have hcall : server.recvCallback OrderServer.silent 0 0 = .error FIFOSequencer.tooManyPending := by
    have hbound : server.MayBind 1 0 := .inl rfl
    rw [OrderServer.recvCallback_eq]
    rcases OrderServer.run_receiveRequest (e := 1) 0 (by decide) hbound rfl hfit with
      ⟨s', hs', haccepted⟩ | herror
    · -- one more than fit would be pending
      have hle := OrderServer.run_receiveRequest_bound (Nat.zero_le _) hs'
      rw [haccepted.pending, List.nil_append, List.length_map, flood, List.length_replicate] at hle
      exact absurd hle (Nat.not_succ_le_self _)
    · have hbuffer : server.rcvBuffer 0 = (numbered 64 1 flood).flatMap requestBytes := rfl
      rw [hbuffer, hframes, herror]
      rfl
  have hreceive : receive {} 0 ((numbered 64 1 flood).flatMap requestBytes) 0 =
      .error FIFOSequencer.tooManyPending := by
    unfold receive
    rw [received, arrived, List.nil_append, hcall]
    rfl
  exact run_cons_error hreceive

theorem requests_crash :
    (∀ c ∈ crashes, run (step id) {} (pathOf c.1) = .error c.2 ∧ Crash c.2) ∧
      run (step id) {} [.receive 0 ((numbered 64 1 flood).flatMap requestBytes) 0] =
        .error FIFOSequencer.tooManyPending ∧ Crash FIFOSequencer.tooManyPending := by
  refine ⟨fun c hc => ?_, flood_crashes, trivial⟩
  simp only [crashes, List.mem_cons, List.not_mem_nil, or_false] at hc
  rcases hc with rfl | rfl | rfl | rfl | rfl
  · exact ⟨rfl, by decide⟩
  · exact ⟨rfl, by decide⟩
  · exact ⟨rfl, by decide⟩
  · exact ⟨rfl, by decide⟩
  · exact ⟨rfl, by decide⟩

end Exchange

end HighPerformance
