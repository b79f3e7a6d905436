import HighPerformance.FramedStream
import HighPerformance.OrderServer

/-!
# Order entry sessions

Every client has one gateway and one connection to the order server. The bytes that one end has
sent arrive at the other in chunks of any size, and the chunks of the clients in any order. `received`
and `read` count the bytes of a client that have arrived at the server and at its gateway. The log
calls are silent.
-/

namespace HighPerformance
open FallibleRun Framing

/-- `OrderGateway` with the bytes it has sent, the valid part of its receive buffer and what it has
handed to the queue of its trade engine. -/
structure OrderGateway where
  clientId : ℕ
  nextOutgoingSeqNum : ℕ := 1
  nextExpSeqNum : ℕ := 1
  outbound : List UInt8 := []
  rcvBuffer : List UInt8 := []
  incomingResponses : List MEClientResponse := []

namespace OrderGateway

/-- The body of the loop over the requests in `run`. -/
def sendRequest (g : OrderGateway) (r : MEClientRequest) : OrderGateway :=
  { g with
    outbound := g.outbound ++ (leBytes 8 g.nextOutgoingSeqNum ++ r.bytes)
    nextOutgoingSeqNum := (g.nextOutgoingSeqNum + 1) % 2 ^ 64 }

/-- The body of the loop over the responses in the receive buffer. -/
def receiveResponse (g : OrderGateway) (bytes : List UInt8) : OrderGateway :=
  let response := OMClientResponse.ofBytes bytes
  if response.meClientResponse.clientId ≠ g.clientId then g
  else if response.seqNum ≠ g.nextExpSeqNum then g
  else
    { g with
      nextExpSeqNum := (g.nextExpSeqNum + 1) % 2 ^ 64
      incomingResponses := g.incomingResponses ++ [response.meClientResponse] }

def recvCallback (g : OrderGateway) : OrderGateway :=
  if g.rcvBuffer.length < OMClientResponse.size then g
  else
    { (frames OMClientResponse.size g.rcvBuffer).foldl receiveResponse g with
      rcvBuffer := rest OMClientResponse.size g.rcvBuffer }

end OrderGateway

/-- A request with its number, as it is sent. -/
def requestBytes (m : ℕ × MEClientRequest) : List UInt8 :=
  OMClientRequest.bytes { seqNum := m.1, meClientRequest := m.2 }

def responseBytes (m : ℕ × MEClientResponse) : List UInt8 :=
  OMClientResponse.bytes { seqNum := m.1, meClientResponse := m.2 }

/-- `handed` are the requests for which `addClientRequest` was called. -/
structure OrderEntry where
  server : OrderServer := {}
  gateway : ℕ → OrderGateway := fun c => { clientId := c }
  received : ℕ → ℕ := fun _ => 0
  read : ℕ → ℕ := fun _ => 0
  handed : List MEClientRequest := []

namespace OrderEntry

inductive Event where
  | sendRequest (clientId : ℕ) (r : MEClientRequest)
  | receive (clientId bytes : ℕ) (rxTime : ℤ)
  | recvFinished
  | sendResponse (r : MEClientResponse)
  | deliver (clientId bytes : ℕ)
  deriving DecidableEq

/-- The gateway of a client sends its own requests, and all values are those of their types. -/
def Event.Proper : Event → Prop
  | .sendRequest c r => c < meMaxNumClients ∧ r.clientId = c ∧ r.InRange
  | .receive c _ _ => c < meMaxNumClients
  | .recvFinished => True
  | .sendResponse r => r.clientId < meMaxNumClients ∧ r.InRange
  | .deliver c _ => c < meMaxNumClients

instance : DecidablePred Event.Proper
  | .sendRequest _ _ => inferInstanceAs (Decidable (_ ∧ _ ∧ _))
  | .receive _ _ _ => inferInstanceAs (Decidable (_ < _))
  | .recvFinished => inferInstanceAs (Decidable True)
  | .sendResponse _ => inferInstanceAs (Decidable (_ ∧ _))
  | .deliver _ _ => inferInstanceAs (Decidable (_ < _))

section Model
variable (socket : ℕ → ℕ) (sort : List RecvTimeClientRequest → List RecvTimeClientRequest)

/-- The next bytes that arrive. -/
def nextChunk (sent : List UInt8) (received bytes : ℕ) : List UInt8 :=
  (sent.drop received).take bytes

def receive (s : OrderEntry) (c bytes : ℕ) (rxTime : ℤ) : Except Fault OrderEntry := do
  let chunk := nextChunk (s.gateway c).outbound (s.received c) bytes
  let server ← OrderServer.recvCallback OrderServer.silent
    { s.server with
      rcvBuffer := Function.update s.server.rcvBuffer (socket c)
        (s.server.rcvBuffer (socket c) ++ chunk) }
    (socket c) rxTime
  let added := server.fifoSequencer.pendingClientRequests.drop
    s.server.fifoSequencer.pendingClientRequests.length
  return { s with
    server
    received := Function.update s.received c (s.received c + chunk.length)
    handed := s.handed ++ added.map (·.request) }

def deliver (s : OrderEntry) (c bytes : ℕ) : OrderEntry :=
  let chunk := nextChunk (s.server.outbound (socket c)) (s.read c) bytes
  let g := s.gateway c
  { s with
    gateway := Function.update s.gateway c
      ({ g with rcvBuffer := g.rcvBuffer ++ chunk } : OrderGateway).recvCallback
    read := Function.update s.read c (s.read c + chunk.length) }

def step (s : OrderEntry) : Event → Except Fault OrderEntry
  | .sendRequest c r =>
      .ok { s with gateway := Function.update s.gateway c ((s.gateway c).sendRequest r) }
  | .receive c bytes rxTime => s.receive socket c bytes rxTime
  | .recvFinished =>
      .ok { s with server := { s.server with
        fifoSequencer := s.server.fifoSequencer.sequenceAndPulish sort } }
  | .sendResponse r => (s.server.sendResponse OrderServer.silent r).map fun server => { s with server }
  | .deliver c bytes => .ok (s.deliver socket c bytes)

end Model

/-- The requests that the gateway of a client has sent. -/
def requestsOf (c : ℕ) (events : List Event) : List MEClientRequest :=
  events.filterMap fun
    | .sendRequest c' r => if c' = c then some r else none
    | _ => none

/-- The responses that the server has sent to a client. -/
def responsesOf (c : ℕ) (events : List Event) : List MEClientResponse :=
  events.filterMap fun
    | .sendResponse r => if r.clientId = c then some r else none
    | _ => none

def handedFor (s : OrderEntry) (c : ℕ) : List MEClientRequest :=
  s.handed.filter fun r => r.clientId = c

end OrderEntry

section Gateway
variable {g : OrderGateway} {e : ℕ} {rs : List MEClientResponse} {r : MEClientResponse}

theorem ofBytes_responseBytes (hr : r.InRange) :
    OMClientResponse.ofBytes (responseBytes (e % 2 ^ 64, r)) =
      { seqNum := e % 2 ^ 64, meClientResponse := r } :=
  OMClientResponse.ofBytes_bytes (Nat.mod_lt _ (by decide)) hr

namespace OrderGateway

theorem foldl_receiveResponse (hexp : g.nextExpSeqNum = e % 2 ^ 64)
    (hrs : ∀ r ∈ rs, r.clientId = g.clientId ∧ r.InRange) :
    ((numbered 64 e rs).map responseBytes).foldl receiveResponse g =
      { g with
        nextExpSeqNum := (e + rs.length) % 2 ^ 64
        incomingResponses := g.incomingResponses ++ rs } := by
  induction rs generalizing g e with
  | nil =>
    rw [numbered, List.map_nil, List.foldl_nil, List.length_nil, Nat.add_zero, List.append_nil,
      ← hexp]
  | cons r rs ih =>
    have hr := hrs r List.mem_cons_self
    have hone : g.receiveResponse (responseBytes (e % 2 ^ 64, r)) =
        { g with
          nextExpSeqNum := (g.nextExpSeqNum + 1) % 2 ^ 64
          incomingResponses := g.incomingResponses ++ [r] } := by
      simp only [receiveResponse, ofBytes_responseBytes hr.2]
      rw [if_neg (not_not.mpr hr.1), if_neg (not_not.mpr hexp.symm)]
    rw [numbered, List.map_cons, List.foldl_cons, hone, ih]
    · simp only [List.length_cons, List.append_assoc, List.singleton_append]
      rw [Nat.add_right_comm, Nat.add_assoc]
    · simp only [hexp, Nat.mod_add_mod]
    · intro r' hr'
      exact hrs r' (List.mem_cons_of_mem r hr')

/-- `recvCallback` with or without the test that the buffer has a complete response. -/
theorem recvCallback_eq : g.recvCallback =
    { (frames OMClientResponse.size g.rcvBuffer).foldl receiveResponse g with
      rcvBuffer := rest OMClientResponse.size g.rcvBuffer } := by
  unfold recvCallback
  split
  next h =>
    rw [frames_of_lt h, List.foldl_nil, rest_of_lt h]
  next => rfl

end OrderGateway

end Gateway

namespace OrderServer
variable {s s' : OrderServer} {socket c e : ℕ} {rxTime : ℤ} {rs : List MEClientRequest}
  {r : MEClientRequest}

theorem ofBytes_requestBytes (hr : r.InRange) :
    OMClientRequest.ofBytes (requestBytes (e % 2 ^ 64, r)) =
      { seqNum := e % 2 ^ 64, meClientRequest := r } :=
  OMClientRequest.ofBytes_bytes (Nat.mod_lt _ (by decide)) hr

/-- Requests of client `c` have been accepted on its socket. -/
structure Accepted (socket c : ℕ) (rxTime : ℤ) (rs : List MEClientRequest) (s s' : OrderServer) :
    Prop where
  exp : ∀ e, s.cidNextExpSeqNum c = e % 2 ^ 64 → s'.cidNextExpSeqNum c = (e + rs.length) % 2 ^ 64
  expOther : ∀ d, d ≠ c → s'.cidNextExpSeqNum d = s.cidNextExpSeqNum d
  bound : s'.cidTcpSocket c = if rs = [] then s.cidTcpSocket c else some socket
  boundOther : ∀ d, d ≠ c → s'.cidTcpSocket d = s.cidTcpSocket d
  pending : s'.fifoSequencer.pendingClientRequests = s.fifoSequencer.pendingClientRequests ++
    rs.map fun r => { recvTime := rxTime, request := r }
  rcvBuffer : s'.rcvBuffer = s.rcvBuffer
  outbound : s'.outbound = s.outbound
  outgoing : s'.cidNextOutgoingSeqNum = s.cidNextOutgoingSeqNum

theorem Accepted.refl : Accepted socket c rxTime [] s s where
  exp _ h := by rw [h, List.length_nil, Nat.add_zero]
  expOther _ _ := rfl
  bound := rfl
  boundOther _ _ := rfl
  pending := by rw [List.map_nil, List.append_nil]
  rcvBuffer := rfl
  outbound := rfl
  outgoing := rfl

/-- The socket of a client that has none yet, or has this one. -/
def MayBind (s : OrderServer) (c socket : ℕ) : Prop :=
  s.cidTcpSocket c = none ∨ s.cidTcpSocket c = some socket

/-- One request with the expected number on the right socket: it is accepted, unless too many are
pending. -/
theorem receiveRequest_accepts (rxTime : ℤ) (hc : r.clientId < meMaxNumClients) (hr : r.InRange)
    (hbound : s.MayBind r.clientId socket)
    (hexp : s.cidNextExpSeqNum r.clientId = e % 2 ^ 64) :
    (∃ s', receiveRequest silent socket rxTime s (requestBytes (e % 2 ^ 64, r)) = .ok s' ∧
        Accepted socket r.clientId rxTime [r] s s') ∨
      receiveRequest silent socket rxTime s (requestBytes (e % 2 ^ 64, r)) =
        .error FIFOSequencer.tooManyPending := by
  have hsocket : (s.bindSocket r.clientId socket).cidTcpSocket =
      Function.update s.cidTcpSocket r.clientId (some socket) := by
    unfold bindSocket
    rcases hbound with hnone | hsome
    · rw [if_pos hnone]
    · rw [if_neg (by simp [hsome]), ← hsome, Function.update_eq_self]
  have hsame : (s.bindSocket r.clientId socket).cidNextExpSeqNum = s.cidNextExpSeqNum ∧
      (s.bindSocket r.clientId socket).fifoSequencer = s.fifoSequencer ∧
      (s.bindSocket r.clientId socket).rcvBuffer = s.rcvBuffer ∧
      (s.bindSocket r.clientId socket).outbound = s.outbound ∧
      (s.bindSocket r.clientId socket).cidNextOutgoingSeqNum = s.cidNextOutgoingSeqNum := by
    unfold bindSocket
    split <;> exact ⟨rfl, rfl, rfl, rfl, rfl⟩
  obtain ⟨hnum, hfifo, hbuffer, hout, houtgoing⟩ := hsame
  unfold receiveRequest
  simp only [ofBytes_requestBytes hr, at?_lt hc, silent, hsocket, hnum, hfifo,
    Function.update_self, ne_eq, not_true, if_false, hexp]
  unfold FIFOSequencer.addClientRequest
  split
  next => exact .inr rfl
  next =>
    refine .inl ⟨_, rfl, ?_⟩
    constructor
    · intro e' he'
      have hnext : (e % 2 ^ 64 + 1) % 2 ^ 64 = (e' + 1) % 2 ^ 64 := by
        rw [← hexp, he', Nat.mod_add_mod]
      simpa only [Function.update_self, List.length_singleton] using hnext
    · intro d hd
      exact Function.update_of_ne hd _ _
    · simp only [Function.update_self, List.cons_ne_self, if_false]
    · intro d hd
      exact Function.update_of_ne hd _ _
    · rfl
    · exact hbuffer
    · exact hout
    · exact houtgoing

theorem Accepted.trans {s'' : OrderServer} {rs' : List MEClientRequest}
    (h : Accepted socket c rxTime rs s s') (h' : Accepted socket c rxTime rs' s' s'') :
    Accepted socket c rxTime (rs ++ rs') s s'' where
  exp e he := by
    rw [h'.exp _ (h.exp e he), List.length_append, Nat.add_assoc]
  expOther d hd := (h'.expOther d hd).trans (h.expOther d hd)
  bound := by
    rw [h'.bound, h.bound]
    cases rs with
    | nil => rfl
    | cons r rs =>
      simp only [List.cons_append, reduceCtorEq, if_false, ite_self]
  boundOther d hd := (h'.boundOther d hd).trans (h.boundOther d hd)
  pending := by rw [h'.pending, h.pending, List.map_append, List.append_assoc]
  rcvBuffer := h'.rcvBuffer.trans h.rcvBuffer
  outbound := h'.outbound.trans h.outbound
  outgoing := h'.outgoing.trans h.outgoing

theorem Accepted.mayBind (h : Accepted socket c rxTime rs s s') (hs : s.MayBind c socket) :
    s'.MayBind c socket := by
  rw [MayBind, h.bound]
  split
  · exact hs
  · exact .inr rfl

theorem Accepted.added (h : Accepted socket c rxTime rs s s') :
    (s'.fifoSequencer.pendingClientRequests.drop
      s.fifoSequencer.pendingClientRequests.length).map (·.request) = rs := by
  rw [h.pending, List.drop_left, List.map_map]
  exact List.map_id rs

/-- The requests with the next numbers are all accepted. -/
theorem run_receiveRequest (rxTime : ℤ) (hc : c < meMaxNumClients) (hbound : s.MayBind c socket)
    (hexp : s.cidNextExpSeqNum c = e % 2 ^ 64) (hrs : ∀ r ∈ rs, r.clientId = c ∧ r.InRange) :
    (∃ s', run (receiveRequest silent socket rxTime) s ((numbered 64 e rs).map requestBytes) =
        .ok s' ∧ Accepted socket c rxTime rs s s') ∨
      run (receiveRequest silent socket rxTime) s ((numbered 64 e rs).map requestBytes) =
        .error FIFOSequencer.tooManyPending := by
  induction rs generalizing s e with
  | nil => exact .inl ⟨s, rfl, .refl⟩
  | cons r rs ih =>
    obtain ⟨hclient, hr⟩ := hrs r List.mem_cons_self
    rw [numbered, List.map_cons]
    rcases receiveRequest_accepts rxTime (hclient ▸ hc) hr (hclient ▸ hbound) (hclient ▸ hexp) with
      ⟨s₁, hs₁, hone⟩ | herror
    · rw [hclient] at hone
      have hsocket : s₁.cidTcpSocket c = some socket := hone.bound
      have hbound₁ : s₁.MayBind c socket := .inr hsocket
      have hexp₁ : s₁.cidNextExpSeqNum c = (e + 1) % 2 ^ 64 := hone.exp e hexp
      have hrest := ih hbound₁ hexp₁ fun r' hr' => hrs r' (List.mem_cons_of_mem r hr')
      rw [run_cons_ok hs₁]
      rcases hrest with ⟨s', hs', hmore⟩ | herror
      · exact .inl ⟨s', hs', hone.trans hmore⟩
      · exact .inr herror
    · exact .inr (run_cons_error herror)

end OrderServer

namespace OrderEntry

/-- The two directions of the session of client `c`, after these requests and responses. -/
structure Session (socket : ℕ → ℕ) (requests : List MEClientRequest)
    (responses : List MEClientResponse) (s : OrderEntry) (c : ℕ) : Prop where
  clientId : (s.gateway c).clientId = c
  requestsFit : ∀ r ∈ requests, r.clientId = c ∧ r.InRange
  responsesFit : ∀ r ∈ responses, r.clientId = c ∧ r.InRange
  outgoing : (s.gateway c).nextOutgoingSeqNum = (1 + requests.length) % 2 ^ 64
  toServer : Reassembles OMClientRequest.size requestBytes (numbered 64 1 requests)
    (s.gateway c).outbound (s.received c) (s.server.rcvBuffer (socket c))
  exp : s.server.cidNextExpSeqNum c = (1 + s.received c / OMClientRequest.size) % 2 ^ 64
  bound : s.server.MayBind c (socket c)
  handed : s.handedFor c = requests.take (s.received c / OMClientRequest.size)
  serverOutgoing : s.server.cidNextOutgoingSeqNum c = (1 + responses.length) % 2 ^ 64
  toClient : Reassembles OMClientResponse.size responseBytes (numbered 64 1 responses)
    (s.server.outbound (socket c)) (s.read c) (s.gateway c).rcvBuffer
  clientExp : (s.gateway c).nextExpSeqNum = (1 + s.read c / OMClientResponse.size) % 2 ^ 64
  delivered : (s.gateway c).incomingResponses = responses.take (s.read c / OMClientResponse.size)

/-- The parts of the state that belong to the session of client `c`. -/
structure SameFor (socket : ℕ → ℕ) (c : ℕ) (s s' : OrderEntry) : Prop where
  gateway : s'.gateway c = s.gateway c
  received : s'.received c = s.received c
  read : s'.read c = s.read c
  rcvBuffer : s'.server.rcvBuffer (socket c) = s.server.rcvBuffer (socket c)
  outbound : s'.server.outbound (socket c) = s.server.outbound (socket c)
  exp : s'.server.cidNextExpSeqNum c = s.server.cidNextExpSeqNum c
  bound : s'.server.cidTcpSocket c = s.server.cidTcpSocket c
  outgoing : s'.server.cidNextOutgoingSeqNum c = s.server.cidNextOutgoingSeqNum c
  handed : s'.handedFor c = s.handedFor c

section Sessions
variable {socket : ℕ → ℕ} {sort : List RecvTimeClientRequest → List RecvTimeClientRequest}
  {s s' : OrderEntry} {c d bytes : ℕ} {rxTime : ℤ} {requests : List MEClientRequest}
  {responses : List MEClientResponse} {r : MEClientRequest} {p : MEClientResponse}
  {done : List Event} {ev : Event}

theorem Session.congr (h : Session socket requests responses s c) (hs : SameFor socket c s s') :
    Session socket requests responses s' c where
  clientId := by rw [hs.gateway, h.clientId]
  requestsFit := h.requestsFit
  responsesFit := h.responsesFit
  outgoing := by rw [hs.gateway, h.outgoing]
  toServer := by
    rw [hs.gateway, hs.received, hs.rcvBuffer]
    exact h.toServer
  exp := by rw [hs.exp, hs.received, h.exp]
  bound := by
    rw [OrderServer.MayBind, hs.bound]
    exact h.bound
  handed := by rw [hs.handed, hs.received, h.handed]
  serverOutgoing := by rw [hs.outgoing, h.serverOutgoing]
  toClient := by
    rw [hs.gateway, hs.read, hs.outbound]
    exact h.toClient
  clientExp := by rw [hs.gateway, hs.read, h.clientExp]
  delivered := by rw [hs.gateway, hs.read, h.delivered]

theorem session_init (socket : ℕ → ℕ) (c : ℕ) : Session socket [] [] {} c where
  clientId := rfl
  requestsFit := nofun
  responsesFit := nofun
  outgoing := rfl
  toServer := reassembles_nil
  exp := by simp
  bound := .inl rfl
  handed := by rw [List.take_nil]; rfl
  serverOutgoing := rfl
  toClient := reassembles_nil
  clientExp := by simp
  delivered := by rw [List.take_nil]

theorem Session.requestSize (m : ℕ × MEClientRequest) :
    (requestBytes m).length = OMClientRequest.size := OMClientRequest.length_bytes _

theorem Session.responseSize (m : ℕ × MEClientResponse) :
    (responseBytes m).length = OMClientResponse.size := OMClientResponse.length_bytes _

theorem Session.received_le (h : Session socket requests responses s c) :
    s.received c / OMClientRequest.size ≤ requests.length := by
  have hle := h.toServer.div_le fun m _ => requestSize m
  rw [length_numbered] at hle
  exact hle

theorem Session.read_le (h : Session socket requests responses s c) :
    s.read c / OMClientResponse.size ≤ responses.length := by
  have hle := h.toClient.div_le fun m _ => responseSize m
  rw [length_numbered] at hle
  exact hle

theorem numbered_snoc {α : Type} (xs : List α) (x : α) :
    numbered 64 1 (xs ++ [x]) = numbered 64 1 xs ++ [((1 + xs.length) % 2 ^ 64, x)] := by
  rw [numbered_append]
  rfl

theorem Session.sendRequest (h : Session socket requests responses s c) (hclient : r.clientId = c)
    (hr : r.InRange) (hs : s' =
      { s with gateway := Function.update s.gateway c ((s.gateway c).sendRequest r) }) :
    Session socket (requests ++ [r]) responses s' c := by
  have hg : s'.gateway c =
      { s.gateway c with
        outbound := (s.gateway c).outbound ++
          requestBytes ((1 + requests.length) % 2 ^ 64, r)
        nextOutgoingSeqNum := (1 + (requests ++ [r]).length) % 2 ^ 64 } := by
    have hsent : s'.gateway c = (s.gateway c).sendRequest r := by
      rw [hs]
      exact Function.update_self ..
    rw [hsent, OrderGateway.sendRequest, h.outgoing, Nat.mod_add_mod, List.length_append,
      List.length_singleton, Nat.add_assoc]
    rfl
  have hserver : s'.server = s.server := by rw [hs]
  have hreceived : s'.received = s.received := by rw [hs]
  have hread : s'.read = s.read := by rw [hs]
  have hhanded : s'.handedFor c = s.handedFor c := by rw [hs]; rfl
  constructor
  · rw [hg, h.clientId]
  · intro r' hr'
    rcases List.mem_append.mp hr' with hr' | hr'
    · exact h.requestsFit r' hr'
    · rw [List.mem_singleton.mp hr']
      exact ⟨hclient, hr⟩
  · exact h.responsesFit
  · rw [hg]
  · rw [hg, hreceived, hserver, numbered_snoc]
    exact h.toServer.send _
  · rw [hserver, hreceived, h.exp]
  · rw [hserver]
    exact h.bound
  · rw [hhanded, hreceived, List.take_append_of_le_length h.received_le, h.handed]
  · rw [hserver, h.serverOutgoing]
  · rw [hg, hserver, hread]
    exact h.toClient
  · rw [hg, hread, h.clientExp]
  · rw [hg, hread, h.delivered]

/-- What a chunk of client `c` with the requests `rs` leaves as it is. -/
structure ReceivesFrom (socket : ℕ → ℕ) (c : ℕ) (rs : List MEClientRequest) (s s' : OrderEntry) :
    Prop where
  client : ∀ r ∈ rs, r.clientId = c
  handed : s'.handed = s.handed ++ rs
  gateway : s'.gateway = s.gateway
  read : s'.read = s.read
  received : ∀ d, d ≠ c → s'.received d = s.received d
  rcvBuffer : ∀ k, k ≠ socket c → s'.server.rcvBuffer k = s.server.rcvBuffer k
  outbound : s'.server.outbound = s.server.outbound
  outgoing : s'.server.cidNextOutgoingSeqNum = s.server.cidNextOutgoingSeqNum
  exp : ∀ d, d ≠ c → s'.server.cidNextExpSeqNum d = s.server.cidNextExpSeqNum d
  bound : ∀ d, d ≠ c → s'.server.cidTcpSocket d = s.server.cidTcpSocket d

theorem ReceivesFrom.handedFor {rs : List MEClientRequest} (h : ReceivesFrom socket c rs s s') :
    s'.handedFor c = s.handedFor c ++ rs := by
  have hall : rs.filter (fun r => r.clientId = c) = rs :=
    List.filter_eq_self.mpr fun r hr => decide_eq_true (h.client r hr)
  rw [OrderEntry.handedFor, h.handed, List.filter_append, hall]
  rfl

theorem ReceivesFrom.sameFor {rs : List MEClientRequest} (h : ReceivesFrom socket c rs s s')
    (hd : d ≠ c) (hsocket : socket d ≠ socket c) : SameFor socket d s s' where
  gateway := by rw [h.gateway]
  received := h.received d hd
  read := by rw [h.read]
  rcvBuffer := h.rcvBuffer _ hsocket
  outbound := by rw [h.outbound]
  exp := h.exp d hd
  bound := h.bound d hd
  outgoing := by rw [h.outgoing]
  handed := by
    have hnone : rs.filter (fun r => r.clientId = d) = [] := by
      rw [List.filter_eq_nil_iff]
      intro r hr
      rw [h.client r hr, decide_eq_true_eq]
      exact fun hc => hd hc.symm
    rw [OrderEntry.handedFor, h.handed, List.filter_append, hnone, List.append_nil]
    rfl

/-- The order server when a chunk of client `c` has arrived. -/
def arrive (socket : ℕ → ℕ) (s : OrderEntry) (c : ℕ) (chunk : List UInt8) : OrderServer :=
  { s.server with
    rcvBuffer := Function.update s.server.rcvBuffer (socket c)
      (s.server.rcvBuffer (socket c) ++ chunk) }

/-- The state after the chunk, when `server` has accepted the requests `rs` that it completes. -/
def afterChunk (socket : ℕ → ℕ) (s : OrderEntry) (c : ℕ) (chunk : List UInt8)
    (rs : List MEClientRequest) (server : OrderServer) : OrderEntry :=
  { s with
    server := { server with
      rcvBuffer := Function.update server.rcvBuffer (socket c)
        (rest OMClientRequest.size (s.server.rcvBuffer (socket c) ++ chunk)) }
    received := Function.update s.received c (s.received c + chunk.length)
    handed := s.handed ++ rs }

section Chunk
variable {chunk : List UInt8} {rs : List MEClientRequest} {server : OrderServer}

theorem receive_eq (hchunk : nextChunk (s.gateway c).outbound (s.received c) bytes = chunk) :
    s.receive socket c bytes rxTime =
      (run (OrderServer.receiveRequest OrderServer.silent (socket c) rxTime)
        (arrive socket s c chunk)
        (frames OMClientRequest.size (s.server.rcvBuffer (socket c) ++ chunk))).map fun server =>
          afterChunk socket s c chunk ((server.fifoSequencer.pendingClientRequests.drop
            s.server.fifoSequencer.pendingClientRequests.length).map (·.request)) server := by
  have hbuffer : (arrive socket s c chunk).rcvBuffer (socket c) =
      s.server.rcvBuffer (socket c) ++ chunk := Function.update_self ..
  have hcall : (arrive socket s c chunk).recvCallback OrderServer.silent (socket c) rxTime = _ :=
    OrderServer.recvCallback_eq
  rw [hbuffer] at hcall
  unfold OrderEntry.receive
  simp only
  rw [hchunk]
  unfold arrive at hcall ⊢
  rw [hcall]
  cases run (OrderServer.receiveRequest OrderServer.silent (socket c) rxTime) _ _ with
  | error f => rfl
  | ok server => rfl

theorem receivesFrom_afterChunk (hrs : ∀ r ∈ rs, r.clientId = c)
    (hacc : OrderServer.Accepted (socket c) c rxTime rs (arrive socket s c chunk) server) :
    ReceivesFrom socket c rs s (afterChunk socket s c chunk rs server) where
  client := hrs
  handed := rfl
  gateway := rfl
  read := rfl
  received d hd := Function.update_of_ne hd _ _
  rcvBuffer k hk := by
    have hkeep : (afterChunk socket s c chunk rs server).server.rcvBuffer k =
        (arrive socket s c chunk).rcvBuffer k := by
      rw [← hacc.rcvBuffer]
      exact Function.update_of_ne hk _ _
    exact hkeep.trans (Function.update_of_ne hk _ _)
  outbound := hacc.outbound
  outgoing := hacc.outgoing
  exp := hacc.expOther
  bound := hacc.boundOther

theorem Session.afterChunk (h : Session socket requests responses s c)
    (hrs : rs = completed OMClientRequest.size requests (s.received c) chunk.length)
    (hfit : ∀ r ∈ rs, r.clientId = c)
    (hnext : Reassembles OMClientRequest.size requestBytes (numbered 64 1 requests)
      (s.gateway c).outbound (s.received c + chunk.length)
      (rest OMClientRequest.size (s.server.rcvBuffer (socket c) ++ chunk)))
    (hacc : OrderServer.Accepted (socket c) c rxTime rs (arrive socket s c chunk) server) :
    Session socket requests responses (afterChunk socket s c chunk rs server) c := by
  have hreceived : (OrderEntry.afterChunk socket s c chunk rs server).received c =
      s.received c + chunk.length := Function.update_self ..
  constructor
  · exact h.clientId
  · exact h.requestsFit
  · exact h.responsesFit
  · exact h.outgoing
  · have hrest : (OrderEntry.afterChunk socket s c chunk rs server).server.rcvBuffer (socket c) =
        rest OMClientRequest.size (s.server.rcvBuffer (socket c) ++ chunk) :=
      Function.update_self ..
    rw [hreceived, hrest]
    exact hnext
  · have hle := hnext.div_le fun m _ => requestSize m
    rw [length_numbered] at hle
    rw [hreceived, ← length_completed h.received_le hle, ← hrs, ← Nat.add_assoc]
    exact hacc.exp _ h.exp
  · exact hacc.mayBind h.bound
  · rw [(receivesFrom_afterChunk hfit hacc).handedFor, h.handed, hreceived, hrs]
    exact take_completed OMClientRequest.size requests (s.received c) chunk.length
  · exact (congrFun hacc.outgoing c).trans h.serverOutgoing
  · have hout : (OrderEntry.afterChunk socket s c chunk rs server).server.outbound (socket c) =
        s.server.outbound (socket c) := congrFun hacc.outbound _
    rw [hout]
    exact h.toClient
  · exact h.clientExp
  · exact h.delivered

end Chunk

/-- A chunk: the requests that it completes are handed over, unless too many are pending. -/
theorem Session.receive (h : Session socket requests responses s c) (hc : c < meMaxNumClients)
    (bytes : ℕ) (rxTime : ℤ) :
    (∃ s' rs, s.receive socket c bytes rxTime = .ok s' ∧ ReceivesFrom socket c rs s s' ∧
      Session socket requests responses s' c) ∨
    s.receive socket c bytes rxTime = .error FIFOSequencer.tooManyPending := by
  set chunk := nextChunk (s.gateway c).outbound (s.received c) bytes with hchunk
  set rs := completed OMClientRequest.size requests (s.received c) chunk.length with hrs
  have hprefix : chunk <+: (s.gateway c).outbound.drop (s.received c) := List.take_prefix _ _
  obtain ⟨hframes, hnext⟩ := h.toServer.receive (by decide) (fun m _ => requestSize m) hprefix
  rw [completed_numbered, ← hrs] at hframes
  have hfit : ∀ r ∈ rs, r.clientId = c ∧ r.InRange := fun r hr =>
    h.requestsFit r (List.mem_of_mem_take (List.mem_of_mem_drop hr))
  have hbound : (arrive socket s c chunk).MayBind c (socket c) := h.bound
  rcases OrderServer.run_receiveRequest rxTime hc hbound h.exp hfit with
    ⟨server, hrun, hacc⟩ | herror
  · left
    have hreceives := receivesFrom_afterChunk (fun r hr => (hfit r hr).1) hacc
    have hsession := h.afterChunk hrs (fun r hr => (hfit r hr).1) hnext hacc
    refine ⟨_, rs, ?_, hreceives, hsession⟩
    have hadded := hacc.added
    rw [receive_eq hchunk.symm, hframes, hrun]
    exact congrArg (fun rs => Except.ok (OrderEntry.afterChunk socket s c chunk rs server)) hadded
  · right
    rw [receive_eq hchunk.symm, hframes, herror]
    rfl

theorem Session.sendResponse (h : Session socket requests responses s p.clientId)
    (hc : p.clientId < meMaxNumClients) (hp : p.InRange) :
    (∃ server, s.server.sendResponse OrderServer.silent p = .ok server ∧
      Session socket requests (responses ++ [p]) { s with server } p.clientId ∧
      ∀ d, d ≠ p.clientId → socket d ≠ socket p.clientId → SameFor socket d s { s with server }) ∨
    s.server.sendResponse OrderServer.silent p = .error (OrderServer.noSocket p.clientId) := by
  unfold OrderServer.sendResponse
  simp only [at?_lt hc, OrderServer.silent]
  rcases h.bound with hnone | hsome
  · right
    rw [hnone]
    rfl
  · left
    rw [hsome]
    refine ⟨_, rfl, ?_, ?_⟩
    · constructor
      · exact h.clientId
      · exact h.requestsFit
      · intro p' hp'
        rcases List.mem_append.mp hp' with hp' | hp'
        · exact h.responsesFit p' hp'
        · rw [List.mem_singleton.mp hp']
          exact ⟨rfl, hp⟩
      · exact h.outgoing
      · exact h.toServer
      · exact h.exp
      · exact h.bound
      · exact h.handed
      · simp only [Function.update_self, h.serverOutgoing, Nat.mod_add_mod, List.length_append,
          List.length_singleton, Nat.add_assoc]
      · simp only [Function.update_self, h.serverOutgoing]
        rw [numbered_snoc]
        exact h.toClient.send _
      · exact h.clientExp
      · rw [List.take_append_of_le_length h.read_le]
        exact h.delivered
    · intro d hd hsocket
      constructor
      · rfl
      · rfl
      · rfl
      · rfl
      · exact Function.update_of_ne hsocket _ _
      · rfl
      · rfl
      · exact Function.update_of_ne hd _ _
      · rfl

/-- A chunk for the gateway: the responses that it completes are handed on. -/
theorem Session.deliver (h : Session socket requests responses s c) (bytes : ℕ) :
    Session socket requests responses (s.deliver socket c bytes) c := by
  set chunk := nextChunk (s.server.outbound (socket c)) (s.read c) bytes with hchunk
  set ps := completed OMClientResponse.size responses (s.read c) chunk.length with hps
  have hprefix : chunk <+: (s.server.outbound (socket c)).drop (s.read c) := List.take_prefix _ _
  obtain ⟨hframes, hnext⟩ := h.toClient.receive (by decide) (fun m _ => responseSize m) hprefix
  rw [completed_numbered, ← hps] at hframes
  have hfit : ∀ p ∈ ps, p.clientId = (s.gateway c).clientId ∧ p.InRange := fun p hp =>
    h.clientId.symm ▸ h.responsesFit p (List.mem_of_mem_take (List.mem_of_mem_drop hp))
  have hle := hnext.div_le fun m _ => responseSize m
  rw [length_numbered] at hle
  have hdiv : s.read c / OMClientResponse.size + ps.length =
      (s.read c + chunk.length) / OMClientResponse.size := length_completed h.read_le hle
  have hgateway : (s.deliver socket c bytes).gateway c =
      { s.gateway c with
        rcvBuffer := rest OMClientResponse.size ((s.gateway c).rcvBuffer ++ chunk)
        nextExpSeqNum := (1 + s.read c / OMClientResponse.size + ps.length) % 2 ^ 64
        incomingResponses := (s.gateway c).incomingResponses ++ ps } := by
    let g : OrderGateway := { s.gateway c with rcvBuffer := (s.gateway c).rcvBuffer ++ chunk }
    have hself : (s.deliver socket c bytes).gateway c = g.recvCallback := Function.update_self ..
    have hfold := OrderGateway.foldl_receiveResponse (g := g) h.clientExp hfit
    have hbuffer : frames OMClientResponse.size g.rcvBuffer =
        (numbered 64 (1 + s.read c / OMClientResponse.size) ps).map responseBytes := hframes
    rw [hself, OrderGateway.recvCallback_eq, hbuffer, hfold]
  have hread : (s.deliver socket c bytes).read c = s.read c + chunk.length :=
    Function.update_self ..
  constructor
  · rw [hgateway]
    exact h.clientId
  · exact h.requestsFit
  · exact h.responsesFit
  · rw [hgateway]
    exact h.outgoing
  · rw [hgateway]
    exact h.toServer
  · exact h.exp
  · exact h.bound
  · exact h.handed
  · exact h.serverOutgoing
  · rw [hgateway, hread]
    exact hnext
  · rw [hgateway, hread, ← hdiv, Nat.add_assoc]
  · rw [hgateway, hread, h.delivered, hps]
    exact take_completed OMClientResponse.size responses (s.read c) chunk.length

theorem deliver_sameFor (hd : d ≠ c) (bytes : ℕ) :
    SameFor socket d s (s.deliver socket c bytes) where
  gateway := Function.update_of_ne hd _ _
  received := rfl
  read := Function.update_of_ne hd _ _
  rcvBuffer := rfl
  outbound := rfl
  exp := rfl
  bound := rfl
  outgoing := rfl
  handed := rfl

/-- Every session is as its part of the events says. -/
def Sessions (socket : ℕ → ℕ) (events : List Event) (s : OrderEntry) : Prop :=
  ∀ c, c < meMaxNumClients → Session socket (requestsOf c events) (responsesOf c events) s c

/-- Two clients have two connections. -/
def Connected (socket : ℕ → ℕ) : Prop :=
  ∀ c d, c < meMaxNumClients → d < meMaxNumClients → socket c = socket d → c = d

/-- The two failures that end a run. -/
def Ends (e : Fault) : Prop :=
  e = FIFOSequencer.tooManyPending ∨ ∃ c, e = OrderServer.noSocket c

theorem sessions_snoc (h : ∀ c, c < meMaxNumClients →
      Session socket (requestsOf c done ++ requestsOf c [ev]) (responsesOf c done ++
        responsesOf c [ev]) s c) : Sessions socket (done ++ [ev]) s := by
  intro c hc
  rw [requestsOf, List.filterMap_append, responsesOf, List.filterMap_append]
  exact h c hc

theorem requestsOf_other {c c' : ℕ} (hc : c' ≠ c) (r : MEClientRequest) :
    requestsOf c [.sendRequest c' r] = [] := by
  simp [requestsOf, hc]

theorem sessions_step (hsocket : Connected socket) (h : Sessions socket done s)
    (hev : ev.Proper) :
    (∃ s', step socket sort s ev = .ok s' ∧ Sessions socket (done ++ [ev]) s') ∨
      ∃ e, step socket sort s ev = .error e ∧ Ends e := by
  cases ev with
  | sendRequest c r =>
    obtain ⟨hc, hclient, hr⟩ := hev
    refine .inl ⟨_, rfl, sessions_snoc fun d hd => ?_⟩
    by_cases hdc : d = c
    · subst hdc
      have hone : requestsOf d [.sendRequest d r] = [r] := by simp [requestsOf]
      have hnone : responsesOf d [.sendRequest d r] = [] := rfl
      rw [hone, hnone, List.append_nil]
      exact (h d hd).sendRequest hclient hr rfl
    · have hnone : responsesOf d [.sendRequest c r] = [] := rfl
      rw [requestsOf_other (Ne.symm hdc), hnone, List.append_nil, List.append_nil]
      apply (h d hd).congr
      exact ⟨Function.update_of_ne hdc _ _, rfl, rfl, rfl, rfl, rfl, rfl, rfl, rfl⟩
  | receive c bytes rxTime =>
    rcases (h c hev).receive hev bytes rxTime with ⟨s', rs, hs', hframe, hsession⟩ | herror
    · refine .inl ⟨s', hs', sessions_snoc fun d hd => ?_⟩
      have hreq : requestsOf d [.receive c bytes rxTime] = [] := rfl
      have hres : responsesOf d [.receive c bytes rxTime] = [] := rfl
      rw [hreq, hres, List.append_nil, List.append_nil]
      by_cases hdc : d = c
      · subst hdc
        exact hsession
      · exact (h d hd).congr (hframe.sameFor hdc fun hk => hdc (hsocket d c hd hev hk))
    · exact .inr ⟨_, herror, .inl rfl⟩
  | recvFinished =>
    refine .inl ⟨_, rfl, sessions_snoc fun d hd => ?_⟩
    have hreq : requestsOf d [.recvFinished] = [] := rfl
    have hres : responsesOf d [.recvFinished] = [] := rfl
    rw [hreq, hres, List.append_nil, List.append_nil]
    apply (h d hd).congr
    exact ⟨rfl, rfl, rfl, rfl, rfl, rfl, rfl, rfl, rfl⟩
  | sendResponse p =>
    obtain ⟨hc, hp⟩ := hev
    rcases (h p.clientId hc).sendResponse hc hp with ⟨server, hserver, hsession, hother⟩ | herror
    · have hstep : step socket sort s (.sendResponse p) = .ok { s with server } := by
        simp only [step, hserver]
        rfl
      refine .inl ⟨_, hstep, sessions_snoc fun d hd => ?_⟩
      have hreq : requestsOf d [.sendResponse p] = [] := rfl
      rw [hreq, List.append_nil]
      by_cases hdc : d = p.clientId
      · have hone : responsesOf d [.sendResponse p] = [p] := by simp [responsesOf, hdc]
        rw [hone, hdc]
        exact hsession
      · have hnone : responsesOf d [.sendResponse p] = [] := by simp [responsesOf, Ne.symm hdc]
        rw [hnone, List.append_nil]
        exact (h d hd).congr (hother d hdc fun hk => hdc (hsocket d _ hd hc hk))
    · have hstep : step socket sort s (.sendResponse p) =
          .error (OrderServer.noSocket p.clientId) := by
        simp only [step, herror]
        rfl
      exact .inr ⟨_, hstep, .inr ⟨_, rfl⟩⟩
  | deliver c bytes =>
    refine .inl ⟨_, rfl, sessions_snoc fun d hd => ?_⟩
    have hreq : requestsOf d [.deliver c bytes] = [] := rfl
    have hres : responsesOf d [.deliver c bytes] = [] := rfl
    rw [hreq, hres, List.append_nil, List.append_nil]
    by_cases hdc : d = c
    · subst hdc
      exact (h d hd).deliver bytes
    · exact (h d hd).congr (deliver_sameFor hdc bytes)

/-- At both ends the messages have been handed on in order, each once: those that have arrived
whole, and so all of them when all bytes have arrived. -/
structure ExactlyOnce (socket : ℕ → ℕ) (events : List Event) (s : OrderEntry) (c : ℕ) : Prop where
  requests : s.handedFor c = (requestsOf c events).take (s.received c / OMClientRequest.size)
  allRequests : s.received c = (s.gateway c).outbound.length →
    s.handedFor c = requestsOf c events
  responses : (s.gateway c).incomingResponses =
    (responsesOf c events).take (s.read c / OMClientResponse.size)
  allResponses : s.read c = (s.server.outbound (socket c)).length →
    (s.gateway c).incomingResponses = responsesOf c events

theorem Session.exactlyOnce {events : List Event}
    (h : Session socket (requestsOf c events) (responsesOf c events) s c) :
    ExactlyOnce socket events s c where
  requests := h.handed
  allRequests hall := by
    have hlen := h.toServer.all (by decide) (fun m _ => requestSize m) hall
    rw [length_numbered] at hlen
    rw [h.handed, hlen, List.take_length]
  responses := h.delivered
  allResponses hall := by
    have hlen := h.toClient.all (by decide) (fun m _ => responseSize m) hall
    rw [length_numbered] at hlen
    rw [h.delivered, hlen, List.take_length]

/-- For any cutting of the streams and any order of the chunks, every request and every response
is handed on exactly once and in order. A run ends only when too many requests are pending or a
response is for a client that has not sent anything. -/
theorem run_exactlyOnce (hsocket : Connected socket)
    (sort : List RecvTimeClientRequest → List RecvTimeClientRequest) (events : List Event)
    (hproper : ∀ ev ∈ events, ev.Proper) :
    (∃ s, run (step socket sort) {} events = .ok s ∧
      ∀ c, c < meMaxNumClients → ExactlyOnce socket events s c) ∨
    ∃ e, run (step socket sort) {} events = .error e ∧ Ends e := by
  have hstart : Sessions socket [] {} := fun c _ => session_init socket c
  have hrun : (∃ s, run (step socket sort) {} events = .ok s ∧ Sessions socket events s) ∨
      ∃ e, run (step socket sort) {} events = .error e ∧ Ends e := by
    apply run_progress_history (G := fun _ _ => True) hstart (meets_of_forall fun _ _ => trivial)
    intro done ev s hdone hsessions _
    exact sessions_step hsocket hsessions (hproper ev (hdone.subset (by simp)))
  rcases hrun with ⟨s, hs, hsessions⟩ | herror
  · exact .inl ⟨s, hs, fun c hc => (hsessions c hc).exactlyOnce⟩
  · exact .inr herror

/-- Two requests of client 1 and one of client 2, cut in the middle, and one response. -/
def twoClients : List Event :=
  [.sendRequest 1
      { type := .new, clientId := 1, orderId := 1, side := .buy, price := 10, qty := 5 },
    .sendRequest 1 { type := .cancel, clientId := 1, orderId := 1 }, .receive 1 50 100,
    .sendRequest 2
      { type := .new, clientId := 2, orderId := 1, side := .sell, price := 9, qty := 5 },
    .receive 2 38 101, .receive 1 26 102, .recvFinished,
    .sendResponse { type := .accepted, clientId := 1, clientOrderId := 1 }, .deliver 1 30,
    .deliver 1 20]

theorem twoClients_exactlyOnce : ∃ s, run (step id id) {} twoClients = .ok s ∧
    ∀ c, c < meMaxNumClients → ExactlyOnce id twoClients s c := by
  have hconnected : Connected id := fun _ _ _ _ h => h
  have hreturns : ∃ s, run (step id id) {} twoClients = .ok s := ⟨_, rfl⟩
  rcases run_exactlyOnce hconnected id twoClients (by decide) with hok | ⟨e, herror, -⟩
  · exact hok
  · obtain ⟨s, hs⟩ := hreturns
    rw [hs] at herror
    cases herror

end Sessions

end OrderEntry

end HighPerformance
