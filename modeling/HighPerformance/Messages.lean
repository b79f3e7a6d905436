import HighPerformance.Types

/-!
# Requests, responses and market updates

The packed message structures that the exchange and its clients exchange, with
the texts their `toString` functions print into the messages of assertions.
-/

namespace HighPerformance

/-- `ClientRequestType`, a `uint8_t`. -/
inductive ClientRequestType where
  | invalid | new | cancel
  | unnamed (code : Fin 253)
  deriving DecidableEq, Repr

def clientRequestTypeToString : ClientRequestType → String
  | .new => "NEW"
  | .cancel => "CANCEL"
  | .invalid => "INVALID"
  | .unnamed _ => "UNKNOWN"

structure MEClientRequest where
  type : ClientRequestType := .invalid
  clientId : ℕ := clientIdInvalid
  tickerId : ℕ := tickerIdInvalid
  orderId : ℕ := orderIdInvalid
  side : Side := .invalid
  price : ℕ := priceInvalid
  qty : ℕ := qtyInvalid
  deriving DecidableEq, Repr

/-- `OMClientRequest`: what a participant sends. -/
structure OMClientRequest where
  seqNum : ℕ
  meClientRequest : MEClientRequest
  deriving DecidableEq, Repr

/-- `ClientResponseType`, a `uint8_t`. -/
inductive ClientResponseType where
  | invalid | accepted | canceled | filled | cancelRejected
  | unnamed (code : Fin 251)
  deriving DecidableEq, Repr

def clientResponseTypeToString : ClientResponseType → String
  | .accepted => "ACCEPTED"
  | .canceled => "CANCELED"
  | .filled => "FILLED"
  | .cancelRejected => "CANCEL_REJECTED"
  | .invalid => "INVALID"
  | .unnamed _ => "UNKNOWN"

structure MEClientResponse where
  type : ClientResponseType := .invalid
  clientId : ℕ := clientIdInvalid
  tickerId : ℕ := tickerIdInvalid
  clientOrderId : ℕ := orderIdInvalid
  marketOrderId : ℕ := orderIdInvalid
  side : Side := .invalid
  price : ℕ := priceInvalid
  execQty : ℕ := qtyInvalid
  leavesQty : ℕ := qtyInvalid
  deriving DecidableEq, Repr

def MEClientResponse.toString (r : MEClientResponse) : String :=
  "MEClientResponse [" ++ "type:" ++ clientResponseTypeToString r.type ++
    " client:" ++ clientIdToString r.clientId ++ " ticker:" ++ tickerIdToString r.tickerId ++
    " coid:" ++ orderIdToString r.clientOrderId ++ " moid:" ++ orderIdToString r.marketOrderId ++
    " side:" ++ sideToString r.side ++ " exec_qty:" ++ qtyToString r.execQty ++
    " leaves_qty:" ++ qtyToString r.leavesQty ++ " price:" ++ priceToString r.price ++ "]"

/-- `OMClientResponse`: what the order server sends. -/
structure OMClientResponse where
  seqNum : ℕ
  meClientResponse : MEClientResponse
  deriving DecidableEq, Repr

/-- `MarketUpdateType`, a `uint8_t`. -/
inductive MarketUpdateType where
  | invalid | clear | add | modify | cancel | trade | snapshotStart | snapshotEnd
  | unnamed (code : Fin 248)
  deriving DecidableEq, Repr

def marketUpdateTypeToString : MarketUpdateType → String
  | .add => "ADD"
  | .modify => "MODIFY"
  | .cancel => "CANCEL"
  | .trade => "TRADE"
  | .invalid => "INVALID"
  | _ => "UNKNOWN"

structure MEMarketUpdate where
  type : MarketUpdateType := .invalid
  orderId : ℕ := orderIdInvalid
  tickerId : ℕ := tickerIdInvalid
  side : Side := .invalid
  price : ℕ := priceInvalid
  qty : ℕ := qtyInvalid
  priority : ℕ := priorityInvalid
  deriving DecidableEq, Repr

def MEMarketUpdate.toString (u : MEMarketUpdate) : String :=
  "MEMarketUpdate [" ++ "type:" ++ marketUpdateTypeToString u.type ++
    " ticker:" ++ tickerIdToString u.tickerId ++ " oid:" ++ orderIdToString u.orderId ++
    " side:" ++ sideToString u.side ++ " qty:" ++ qtyToString u.qty ++
    " price:" ++ priceToString u.price ++ " priority:" ++ priorityToString u.priority ++ "]"

/-- `MDPMarketUpdate`: an update with its number in its stream. -/
structure MDPMarketUpdate where
  seqNum : ℕ
  meMarketUpdate : MEMarketUpdate
  deriving DecidableEq, Repr

end HighPerformance
