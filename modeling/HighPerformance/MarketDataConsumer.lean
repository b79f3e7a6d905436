import HighPerformance.FallibleRun
import HighPerformance.Packing
import HighPerformance.SnapshotSynthesizer

/-!
# The market data stream

`MarketDataPublisher::run` numbers the updates and hands the packed messages to
its socket; `MarketDataConsumer::recvCallback` cuts the received bytes into
messages again, checks the numbers, and goes into recovery when one is not the
expected one. Sockets can always be created, and neither the buffers of the
sockets nor the queue of events overflow.

A state of the consumer also records what it has done to the queue of events.
-/

namespace HighPerformance
open FallibleRun Framing

/-- The members of `MarketDataPublisher` that its incremental stream needs, with
all bytes that its socket has been given. -/
structure MarketDataPublisher where
  nextIncSeqNum : ℕ := 1
  outbound : List UInt8 := []

namespace MarketDataPublisher

/-- `McastSocket::send` -/
def send (p : MarketDataPublisher) (data : List UInt8) : MarketDataPublisher :=
  { p with outbound := p.outbound ++ data }

/-- The body of the loop in `run`. -/
def sendUpdate (p : MarketDataPublisher) (u : MEMarketUpdate) : MarketDataPublisher :=
  { (p.send (leBytes 8 p.nextIncSeqNum)).send u.bytes with
    nextIncSeqNum := (p.nextIncSeqNum + 1) % 2 ^ 64 }

def run (us : List MEMarketUpdate) : MarketDataPublisher := us.foldl sendUpdate {}

theorem foldl_sendUpdate (us : List MEMarketUpdate) (p : MarketDataPublisher) :
    (us.foldl sendUpdate p).outbound =
      p.outbound ++ (numberFrom p.nextIncSeqNum us).flatMap MDPMarketUpdate.bytes := by
  induction us generalizing p with
  | nil => rw [List.foldl_nil, numberFrom, List.flatMap_nil, List.append_nil]
  | cons u us ih =>
    rw [List.foldl_cons, ih, numberFrom, List.flatMap_cons, MDPMarketUpdate.bytes]
    simp only [sendUpdate, send, List.append_assoc]

theorem run_outbound (us : List MEMarketUpdate) :
    (run us).outbound = (publish us).flatMap MDPMarketUpdate.bytes :=
  foldl_sendUpdate us {}

end MarketDataPublisher

/-- What the consumer has done: an event that `recvCallback` has written itself,
the begin of a recovery at a message, and its end with the events written then. -/
inductive FeedEvent where
  | wrote (u : MEMarketUpdate)
  | started (seqNum : ℕ)
  | ended (us : List MEMarketUpdate)
  deriving DecidableEq

/-- The queued messages are in the order of their keys. -/
structure MarketDataConsumer where
  nextExpIncSeqNum : ℕ := 1
  incomingMdUpdates : List MEMarketUpdate := []
  inRecovery : Bool := false
  snapshotOpen : Bool := false
  incrementalInbound : List UInt8 := []
  snapshotInbound : List UInt8 := []
  snapshotQueuedMsgs : List (ℕ × MEMarketUpdate) := []
  incrementalQueuedMsgs : List (ℕ × MEMarketUpdate) := []
  history : List FeedEvent := []
  deriving DecidableEq

/-- The loop of `checkSnapshotSync` steps over a map that it has cleared, which is
undefined; with the state before that step. -/
inductive DeadIterator where
  | deadIterator (s : MarketDataConsumer)
  deriving DecidableEq

namespace MarketDataConsumer

/-- `operator[]` of a `std::map` and an assignment. -/
def insert (k : ℕ) (u : MEMarketUpdate) : List (ℕ × MEMarketUpdate) → List (ℕ × MEMarketUpdate)
  | [] => [(k, u)]
  | (j, v) :: rest =>
      if k < j then (k, u) :: (j, v) :: rest
      else if k = j then (k, u) :: rest
      else (j, v) :: insert k u rest

def IsSnapshotMark (u : MEMarketUpdate) : Prop := u.type = .snapshotStart ∨ u.type = .snapshotEnd

instance (u : MEMarketUpdate) : Decidable (IsSnapshotMark u) :=
  inferInstanceAs (Decidable (_ ∨ _))

/-- The loop over the queued incrementals: the events and the next number, or
`none` for the number at which it has found a gap. -/
def collectIncrementals : ℕ → List MEMarketUpdate → List (ℕ × MEMarketUpdate) →
    Option (List MEMarketUpdate) × ℕ
  | next, events, [] => (some events, next)
  | next, events, (k, u) :: rest =>
      if k < next then collectIncrementals next events rest
      else if k ≠ next then (none, next)
      else collectIncrementals ((next + 1) % 2 ^ 64)
        (if IsSnapshotMark u then events else events ++ [u]) rest

def startSnapshotSync (s : MarketDataConsumer) : MarketDataConsumer :=
  { s with snapshotQueuedMsgs := [], incrementalQueuedMsgs := [], snapshotOpen := true }

/-- The loop over the queued snapshot messages begins with the number 0, and none
of its branches comes back to it for a second message. -/
def checkSnapshotSync (s : MarketDataConsumer) : Except DeadIterator MarketDataConsumer :=
  match s.snapshotQueuedMsgs with
  | [] => .ok s
  | (k, first) :: rest =>
      if first.type ≠ .snapshotStart then .ok { s with snapshotQueuedMsgs := [] }
      else if k ≠ 0 then .ok s
      else
        let last := (((k, first) :: rest).getLast (by simp)).2
        if last.type ≠ .snapshotEnd then .ok s
        else
          match collectIncrementals ((last.orderId + 1) % 2 ^ 64) [] s.incrementalQueuedMsgs with
          | (none, next) => .ok { s with nextExpIncSeqNum := next, snapshotQueuedMsgs := [] }
          | (some events, next) =>
              .error (.deadIterator { s with
                nextExpIncSeqNum := next
                incomingMdUpdates := s.incomingMdUpdates ++ events
                snapshotQueuedMsgs := []
                incrementalQueuedMsgs := []
                inRecovery := false
                snapshotOpen := false
                history := s.history ++ [.ended events] })

/-- Both kinds of messages go to `snapshot_queued_msgs_`. -/
def queueMessage (s : MarketDataConsumer) (isSnapshot : Bool) (m : MDPMarketUpdate) :
    Except DeadIterator MarketDataConsumer :=
  let queued :=
    if isSnapshot ∧ m.seqNum ∈ s.snapshotQueuedMsgs.map Prod.fst then [] else s.snapshotQueuedMsgs
  checkSnapshotSync { s with snapshotQueuedMsgs := insert m.seqNum m.meMarketUpdate queued }

/-- One message in the loop of `recvCallback`. -/
def receive (isSnapshot : Bool) (s : MarketDataConsumer) (m : MDPMarketUpdate) :
    Except DeadIterator MarketDataConsumer :=
  if s.inRecovery then queueMessage s isSnapshot m
  else if m.seqNum ≠ s.nextExpIncSeqNum then
    queueMessage { startSnapshotSync s with
      inRecovery := true, history := s.history ++ [.started m.seqNum] } isSnapshot m
  else if isSnapshot then .ok s
  else .ok { s with
    nextExpIncSeqNum := (s.nextExpIncSeqNum + 1) % 2 ^ 64
    incomingMdUpdates := s.incomingMdUpdates ++ [m.meMarketUpdate]
    history := s.history ++ [.wrote m.meMarketUpdate] }

inductive Socket where
  | incremental | snapshot
  deriving DecidableEq

def setInbound (s : MarketDataConsumer) (socket : Socket) (bs : List UInt8) : MarketDataConsumer :=
  match socket with
  | .incremental => { s with incrementalInbound := bs }
  | .snapshot => { s with snapshotInbound := bs }

def inbound (s : MarketDataConsumer) : Socket → List UInt8
  | .incremental => s.incrementalInbound
  | .snapshot => s.snapshotInbound

def recvCallback (s : MarketDataConsumer) (socket : Socket) :
    Except DeadIterator MarketDataConsumer :=
  if socket = .snapshot ∧ s.inRecovery = false then .ok (s.setInbound socket [])
  else
    match FallibleRun.run (receive (socket = .snapshot)) s
      ((frames MDPMarketUpdate.size (s.inbound socket)).map .ofBytes) with
    | .error e => .error e
    | .ok t => .ok (t.setInbound socket (rest MDPMarketUpdate.size (s.inbound socket)))

/-- `McastSocket::sendAndRecv` when `recv` gives these bytes. A snapshot socket that is
not open receives nothing. -/
def sendAndRecv (s : MarketDataConsumer) (input : Socket × List UInt8) :
    Except DeadIterator MarketDataConsumer :=
  if input.2 = [] ∨ input.1 = .snapshot ∧ s.snapshotOpen = false then .ok s
  else (s.setInbound input.1 (s.inbound input.1 ++ input.2)).recvCallback input.1

end MarketDataConsumer

end HighPerformance
