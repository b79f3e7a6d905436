import HighPerformance.FIFOSequencer
import HighPerformance.Logger
import HighPerformance.OrderPacking

/-!
# The order server

`OrderServer::recvCallback` decodes the complete requests in the receive buffer of a socket and
hands those of the right socket and sequence number to the sequencer; `run` sends the
responses. A socket is its descriptor, `rcvBuffer` the valid part of its receive buffer and
`outbound` all bytes it has been given to send. The functions take the log function as a parameter:
`logger` is the one of the program.
-/

namespace HighPerformance
open FallibleRun Framing

/-- A log call: line, function, format and the arguments behind file, line, function and time. -/
abbrev Log := ℤ → String → String → List LogArgument → Except Fault Unit

structure OrderServer where
  cidNextOutgoingSeqNum : ℕ → ℕ := fun _ => 1
  cidNextExpSeqNum : ℕ → ℕ := fun _ => 1
  cidTcpSocket : ℕ → Option ℕ := fun _ => none
  fifoSequencer : FIFOSequencer := {}
  rcvBuffer : ℕ → List UInt8 := fun _ => []
  outbound : ℕ → List UInt8 := fun _ => []

namespace OrderServer

def logger (time : List Char) : Log := fun line function format args =>
  (Logger.log ([.text "order_server.cpp".toList, .element (.integer line),
    .text function.toList, .text time] ++ args) format.toList []).map fun _ => ()

def silent : Log := fun _ _ _ _ => .ok ()

def bindSocket (s : OrderServer) (clientId socket : ℕ) : OrderServer :=
  if s.cidTcpSocket clientId = none then
    { s with cidTcpSocket := Function.update s.cidTcpSocket clientId (some socket) }
  else s

/-- The body of the loop over the requests in the receive buffer. -/
def receiveRequest (log : Log) (socket : ℕ) (rxTime : ℤ) (s : OrderServer) (bytes : List UInt8) :
    Except Fault OrderServer := do
  let request := OMClientRequest.ofBytes bytes
  let clientId := request.meClientRequest.clientId
  log 34 "recvCallback" "%:% %() % Received %\n" []
  at? "cid_tcp_socket_" meMaxNumClients clientId
  let s := s.bindSocket clientId socket
  if s.cidTcpSocket clientId ≠ some socket then
    log 42 "recvCallback"
      "%:% %() % Received ClientRequest from ClientId:% on different socket:% expected:%\n"
      [.element (.unsignedInteger clientId), .element (.integer socket),
        .element (.integer ((s.cidTcpSocket clientId).getD 0))]
    return s
  if request.seqNum ≠ s.cidNextExpSeqNum clientId then
    log 49 "recvCallback"
      "%:% %() % Incorrect sequence number. ClientId:% SeqNum expected:% received:%\n"
      [.element (.unsignedInteger clientId),
        .element (.unsignedLongInteger (s.cidNextExpSeqNum clientId)),
        .element (.unsignedLongInteger request.seqNum)]
    return s
  let fifo ← s.fifoSequencer.addClientRequest { recvTime := rxTime, request := request.meClientRequest }
  return { s with
    cidNextExpSeqNum := Function.update s.cidNextExpSeqNum clientId
      ((s.cidNextExpSeqNum clientId + 1) % 2 ^ 64)
    fifoSequencer := fifo }

/-- The bytes behind the last complete request are moved to the front of the buffer. -/
def recvCallback (log : Log) (s : OrderServer) (socket : ℕ) (rxTime : ℤ) :
    Except Fault OrderServer := do
  let buffer := s.rcvBuffer socket
  log 28 "recvCallback" "%:% %() % Received socket:% len:% rx:%\n"
    [.element (.integer socket), .element (.unsignedLongInteger buffer.length),
      .element (.longInteger rxTime)]
  if buffer.length < OMClientRequest.size then return s
  let s ← run (receiveRequest log socket rxTime) s (frames OMClientRequest.size buffer)
  return { s with
    rcvBuffer := Function.update s.rcvBuffer socket (rest OMClientRequest.size buffer) }

def noSocket (clientId : ℕ) : Fault :=
  .assertion ("Dont have a TCPSocket for ClientId:" ++ toString clientId)

/-- The body of the loop over the responses in `run`. -/
def sendResponse (log : Log) (s : OrderServer) (response : MEClientResponse) :
    Except Fault OrderServer := do
  let clientId := response.clientId
  at? "cid_next_outgoing_seq_num_" meMaxNumClients clientId
  let seqNum := s.cidNextOutgoingSeqNum clientId
  log 83 "run" "%:% %() Processing cid:% seq:% %\n"
    [.element (.unsignedInteger clientId), .element (.unsignedLongInteger seqNum),
      .text response.toString.toList]
  match s.cidTcpSocket clientId with
  | none => .error (noSocket clientId)
  | some socket =>
      return { s with
        outbound := Function.update s.outbound socket
          (s.outbound socket ++ (leBytes 8 seqNum ++ response.bytes))
        cidNextOutgoingSeqNum := Function.update s.cidNextOutgoingSeqNum clientId
          ((seqNum + 1) % 2 ^ 64) }

section Receive
variable {s : OrderServer} {socket : ℕ} {rxTime : ℤ}

/-- `recvCallback` with or without the test that the buffer has a complete request. -/
theorem recvCallback_eq : s.recvCallback silent socket rxTime =
    (run (receiveRequest silent socket rxTime) s
      (frames OMClientRequest.size (s.rcvBuffer socket))).map fun s' =>
        { s' with
          rcvBuffer := Function.update s'.rcvBuffer socket
            (rest OMClientRequest.size (s.rcvBuffer socket)) } := by
  unfold recvCallback
  simp only [silent]
  by_cases h : (s.rcvBuffer socket).length < OMClientRequest.size
  · rw [if_pos h, frames_of_lt h, rest_of_lt h]
    simp only [run_nil, Except.map, Function.update_eq_self]
    rfl
  · rw [if_neg h]
    rfl

end Receive

/-! ## The log calls -/

/-- The call ends in one of the two failures of the logger. -/
def LogFatal {α : Type} (x : Except Fault α) : Prop :=
  x = .error Logger.extraArguments ∨ x = .error Logger.missingArguments

/-- What the order server does with a socket that has received something, and with a response. -/
inductive Call where
  | received (socket : ℕ) (rxTime : ℤ)
  | response (r : MEClientResponse)

def perform (log : Log) (s : OrderServer) : Call → Except Fault OrderServer
  | .received socket rxTime => s.recvCallback log socket rxTime
  | .response r => s.sendResponse log r

/-- No complete request is there. A response is always logged. -/
def NothingToLog (s : OrderServer) : Call → Prop
  | .received socket _ => (s.rcvBuffer socket).length < OMClientRequest.size
  | .response _ => False

/-- The client of a response has an entry in `cid_next_outgoing_seq_num_`, which is read first. -/
def Call.InRange : Call → Prop
  | .received _ _ => True
  | .response r => r.clientId < meMaxNumClients

/-- The logger fills the placeholders in order, and ends the process exactly when their number is
not that of the arguments. -/
structure LogLaw (args : List LogArgument) (format : List Char) (queue : List LogElement) :
    Prop where
  emits : Logger.placeholders format = args.length →
    Logger.log args format queue =
      .ok (queue ++ Logger.fill (Logger.pieces format) args)
  fatal_iff : LogFatal (Logger.log args format queue) ↔
    Logger.placeholders format ≠ args.length

theorem logLaw (args : List LogArgument) (format : List Char) (queue : List LogElement) :
    LogLaw args format queue := by
  constructor
  · intro h
    rw [Logger.log_eq, Logger.outcome, if_pos h]
  · rw [Logger.log_eq, Logger.outcome, LogFatal]
    by_cases h : Logger.placeholders format = args.length
    · simp [h]
    · by_cases hlt : Logger.placeholders format < args.length
      · simp [h, hlt]
      · simp [h, hlt]

section Calls
variable {time : List Char} {s : OrderServer} {socket clientId : ℕ} {rxTime : ℤ}
  {bytes : List UInt8} {line : ℤ} {function format : String} {args : List LogArgument}

/-- Four arguments stand in front of those of the call. -/
theorem logger_ok (h : Logger.placeholders format.toList = 4 + args.length) :
    logger time line function format args = .ok () := by
  have hlen : Logger.placeholders format.toList =
      ([LogArgument.text "order_server.cpp".toList, .element (.integer line),
        .text function.toList, .text time] ++ args).length := by
    rw [h, List.length_append]
    rfl
  rw [logger, (logLaw _ _ _).emits hlen]
  rfl

theorem logger_missing (h : 4 + args.length < Logger.placeholders format.toList) :
    logger time line function format args = .error Logger.missingArguments := by
  simp only [logger, Logger.log_eq, Logger.outcome, List.length_append, List.length_cons,
    List.length_nil]
  rw [if_neg (by omega), if_neg (by omega)]
  rfl

theorem logger_extra (h : Logger.placeholders format.toList < 4 + args.length) :
    logger time line function format args = .error Logger.extraArguments := by
  simp only [logger, Logger.log_eq, Logger.outcome, List.length_append, List.length_cons,
    List.length_nil]
  rw [if_neg (by omega), if_pos (by omega)]
  rfl

/-- The log call for a decoded request has five placeholders and four arguments. -/
theorem receiveRequest_missing :
    receiveRequest (logger time) socket rxTime s bytes = .error Logger.missingArguments := by
  unfold receiveRequest
  rw [logger_missing (by decide)]
  rfl

theorem placeholders_received :
    Logger.placeholders "%:% %() % Received socket:% len:% rx:%\n".toList = 7 := by decide

theorem recvCallback_short (h : (s.rcvBuffer socket).length < OMClientRequest.size) :
    s.recvCallback (logger time) socket rxTime = .ok s := by
  unfold recvCallback
  simp only
  rw [logger_ok placeholders_received, if_pos h]
  rfl

theorem recvCallback_missing (h : OMClientRequest.size ≤ (s.rcvBuffer socket).length) :
    s.recvCallback (logger time) socket rxTime = .error Logger.missingArguments := by
  unfold recvCallback
  simp only
  rw [logger_ok placeholders_received, if_neg (by omega), frames_of_le (by decide) h,
    run_cons_error receiveRequest_missing]
  rfl

/-- The log call for a response has six placeholders and seven arguments. -/
theorem sendResponse_extra {r : MEClientResponse} (h : r.clientId < meMaxNumClients) :
    s.sendResponse (logger time) r = .error Logger.extraArguments := by
  have hformat : Logger.placeholders "%:% %() Processing cid:% seq:% %\n".toList < 7 := by decide
  unfold sendResponse
  simp only
  rw [at?_lt h, logger_extra hformat]
  rfl

theorem sendResponse_outOfRange {r : MEClientResponse} (h : meMaxNumClients ≤ r.clientId) :
    s.sendResponse (logger time) r = .error (.outOfRange "cid_next_outgoing_seq_num_") := by
  have hat : at? "cid_next_outgoing_seq_num_" meMaxNumClients r.clientId =
      .error (.outOfRange "cid_next_outgoing_seq_num_") := if_neg (by omega)
  unfold sendResponse
  simp only
  rw [hat]
  rfl

end Calls

theorem perform_ok_iff (time : List Char) (s : OrderServer) (call : Call) :
    (∃ s', s.perform (logger time) call = .ok s') ↔ s.NothingToLog call := by
  cases call with
  | received socket rxTime =>
    rw [perform, NothingToLog]
    by_cases h : (s.rcvBuffer socket).length < OMClientRequest.size
    · simp [recvCallback_short h, h]
    · simp [recvCallback_missing (Nat.not_lt.mp h), h]
  | response r =>
    rw [perform, NothingToLog]
    by_cases h : r.clientId < meMaxNumClients
    · simp [sendResponse_extra h]
    · simp [sendResponse_outOfRange (Nat.not_lt.mp h)]

theorem perform_logFatal_iff (time : List Char) (s : OrderServer) (call : Call) :
    LogFatal (s.perform (logger time) call) ↔ ¬s.NothingToLog call ∧ call.InRange := by
  cases call with
  | received socket rxTime =>
    rw [perform, NothingToLog, Call.InRange]
    by_cases h : (s.rcvBuffer socket).length < OMClientRequest.size
    · simp [recvCallback_short h, LogFatal, h]
    · simp [recvCallback_missing (Nat.not_lt.mp h), LogFatal, h]
  | response r =>
    rw [perform, NothingToLog, Call.InRange]
    by_cases h : r.clientId < meMaxNumClients
    · simp [sendResponse_extra h, LogFatal, h]
    · simp [sendResponse_outOfRange (Nat.not_lt.mp h), LogFatal, h, Logger.extraArguments,
        Logger.missingArguments]

/-- A call returns exactly when it has nothing to log, and what stops a call whose first access is
in range is the logger. -/
theorem logging_safe_iff (time : List Char) :
    (∀ args format queue, LogLaw args format queue) ∧
      ∀ (s : OrderServer) (call : Call),
        ((∃ s', s.perform (logger time) call = .ok s') ↔ s.NothingToLog call) ∧
          (LogFatal (s.perform (logger time) call) ↔ ¬s.NothingToLog call ∧ call.InRange) :=
  ⟨logLaw, fun s call => ⟨perform_ok_iff time s call, perform_logFatal_iff time s call⟩⟩

/-- One request has arrived, with all its fields 0. -/
theorem request_ends_process : ¬ ∀ (time : List Char),
    (∀ args format queue, LogLaw args format queue) ∧
      ∀ (s : OrderServer) (call : Call), ¬ LogFatal (s.perform (logger time) call) := by
  intro h
  let s : OrderServer := { rcvBuffer := fun _ => List.replicate OMClientRequest.size 0 }
  apply (h []).2 s (.received 0 0)
  rw [perform_logFatal_iff]
  exact ⟨Nat.not_lt.mpr (Nat.le_of_eq (List.length_replicate).symm), trivial⟩

end OrderServer

end HighPerformance
