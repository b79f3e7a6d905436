import HighPerformance.Packing

/-!
# The packed order messages

The bytes of the requests and responses of the order entry sessions, in the order of their
fields and without padding. Both directions put a sequence number of eight bytes in front.
-/

namespace HighPerformance
open Framing

section Enumerations

def ClientRequestType.byte : ClientRequestType → UInt8
  | .invalid => 0
  | .new => 1
  | .cancel => 2
  | .unnamed code => UInt8.ofNat (code.val + 3)

def ClientRequestType.ofByte (b : UInt8) : ClientRequestType :=
  match b.toNat with
  | 0 => .invalid
  | 1 => .new
  | 2 => .cancel
  | k + 3 => .unnamed (Fin.ofNat 253 k)

def ClientResponseType.byte : ClientResponseType → UInt8
  | .invalid => 0
  | .accepted => 1
  | .canceled => 2
  | .filled => 3
  | .cancelRejected => 4
  | .unnamed code => UInt8.ofNat (code.val + 5)

def ClientResponseType.ofByte (b : UInt8) : ClientResponseType :=
  match b.toNat with
  | 0 => .invalid
  | 1 => .accepted
  | 2 => .canceled
  | 3 => .filled
  | 4 => .cancelRejected
  | k + 5 => .unnamed (Fin.ofNat 251 k)

theorem ClientRequestType.ofByte_byte (t : ClientRequestType) : ofByte t.byte = t := by
  cases t with
  | unnamed code =>
    have hcode : (UInt8.ofNat (code.val + 3)).toNat = code.val + 3 := by
      rw [UInt8.toNat_ofNat']
      omega
    have hfin : Fin.ofNat 253 code.val = code := Fin.ext (Nat.mod_eq_of_lt code.isLt)
    rw [byte, ofByte, hcode]
    exact congrArg ClientRequestType.unnamed hfin
  | invalid | new | cancel => rfl

theorem ClientResponseType.ofByte_byte (t : ClientResponseType) : ofByte t.byte = t := by
  cases t with
  | unnamed code =>
    have hcode : (UInt8.ofNat (code.val + 5)).toNat = code.val + 5 := by
      rw [UInt8.toNat_ofNat']
      omega
    have hfin : Fin.ofNat 251 code.val = code := Fin.ext (Nat.mod_eq_of_lt code.isLt)
    rw [byte, ofByte, hcode]
    exact congrArg ClientResponseType.unnamed hfin
  | invalid | accepted | canceled | filled | cancelRejected => rfl

end Enumerations

namespace MEClientRequest

def bytes (r : MEClientRequest) : List UInt8 :=
  r.type.byte :: (leBytes 4 r.clientId ++ (leBytes 4 r.tickerId ++ (leBytes 8 r.orderId ++
    r.side.byte :: (leBytes 8 r.price ++ leBytes 4 r.qty))))

def ofBytes (bs : List UInt8) : MEClientRequest where
  type := .ofByte (bs.getD 0 0)
  clientId := field bs 1 4
  tickerId := field bs 5 4
  orderId := field bs 9 8
  side := .ofByte (bs.getD 17 0)
  price := field bs 18 8
  qty := field bs 26 4

structure InRange (r : MEClientRequest) : Prop where
  clientId : r.clientId < 2 ^ 32
  tickerId : r.tickerId < 2 ^ 32
  orderId : r.orderId < 2 ^ 64
  price : r.price < 2 ^ 64
  qty : r.qty < 2 ^ 32

instance {r : MEClientRequest} : Decidable r.InRange :=
  decidable_of_iff (r.clientId < 2 ^ 32 ∧ r.tickerId < 2 ^ 32 ∧ r.orderId < 2 ^ 64 ∧
      r.price < 2 ^ 64 ∧ r.qty < 2 ^ 32)
    ⟨fun h => ⟨h.1, h.2.1, h.2.2.1, h.2.2.2.1, h.2.2.2.2⟩,
      fun h => ⟨h.clientId, h.tickerId, h.orderId, h.price, h.qty⟩⟩

theorem length_bytes (r : MEClientRequest) : r.bytes.length = 30 := by
  simp only [bytes, List.length_cons, List.length_append, length_leBytes]

theorem ofBytes_bytes {r : MEClientRequest} (h : r.InRange) : ofBytes r.bytes = r := by
  cases r with
  | mk type clientId tickerId orderId side price qty =>
    have hclient : leValue (leBytes 4 clientId) = clientId := leValue_leBytes h.clientId
    have hticker : leValue (leBytes 4 tickerId) = tickerId := leValue_leBytes h.tickerId
    have horder : leValue (leBytes 8 orderId) = orderId := leValue_leBytes h.orderId
    have hprice : leValue (leBytes 8 price) = price := leValue_leBytes h.price
    have hqty : leValue (leBytes 4 qty) = qty := leValue_leBytes h.qty
    simp [ofBytes, bytes, field, List.drop_append, List.take_of_length_le,
      List.drop_of_length_le, hclient, hticker, horder, hprice, hqty,
      ClientRequestType.ofByte_byte, Side.ofByte_byte]

end MEClientRequest

namespace MEClientResponse

def bytes (r : MEClientResponse) : List UInt8 :=
  r.type.byte :: (leBytes 4 r.clientId ++ (leBytes 4 r.tickerId ++ (leBytes 8 r.clientOrderId ++
    (leBytes 8 r.marketOrderId ++ r.side.byte :: (leBytes 8 r.price ++ (leBytes 4 r.execQty ++
      leBytes 4 r.leavesQty))))))

def ofBytes (bs : List UInt8) : MEClientResponse where
  type := .ofByte (bs.getD 0 0)
  clientId := field bs 1 4
  tickerId := field bs 5 4
  clientOrderId := field bs 9 8
  marketOrderId := field bs 17 8
  side := .ofByte (bs.getD 25 0)
  price := field bs 26 8
  execQty := field bs 34 4
  leavesQty := field bs 38 4

structure InRange (r : MEClientResponse) : Prop where
  clientId : r.clientId < 2 ^ 32
  tickerId : r.tickerId < 2 ^ 32
  clientOrderId : r.clientOrderId < 2 ^ 64
  marketOrderId : r.marketOrderId < 2 ^ 64
  price : r.price < 2 ^ 64
  execQty : r.execQty < 2 ^ 32
  leavesQty : r.leavesQty < 2 ^ 32

instance {r : MEClientResponse} : Decidable r.InRange :=
  decidable_of_iff (r.clientId < 2 ^ 32 ∧ r.tickerId < 2 ^ 32 ∧ r.clientOrderId < 2 ^ 64 ∧
      r.marketOrderId < 2 ^ 64 ∧ r.price < 2 ^ 64 ∧ r.execQty < 2 ^ 32 ∧ r.leavesQty < 2 ^ 32)
    ⟨fun h => ⟨h.1, h.2.1, h.2.2.1, h.2.2.2.1, h.2.2.2.2.1, h.2.2.2.2.2.1, h.2.2.2.2.2.2⟩,
      fun h => ⟨h.clientId, h.tickerId, h.clientOrderId, h.marketOrderId, h.price, h.execQty,
        h.leavesQty⟩⟩

theorem length_bytes (r : MEClientResponse) : r.bytes.length = 42 := by
  simp only [bytes, List.length_cons, List.length_append, length_leBytes]

theorem ofBytes_bytes {r : MEClientResponse} (h : r.InRange) : ofBytes r.bytes = r := by
  cases r with
  | mk type clientId tickerId clientOrderId marketOrderId side price execQty leavesQty =>
    have hclient : leValue (leBytes 4 clientId) = clientId := leValue_leBytes h.clientId
    have hticker : leValue (leBytes 4 tickerId) = tickerId := leValue_leBytes h.tickerId
    have horder : leValue (leBytes 8 clientOrderId) = clientOrderId :=
      leValue_leBytes h.clientOrderId
    have hmarket : leValue (leBytes 8 marketOrderId) = marketOrderId :=
      leValue_leBytes h.marketOrderId
    have hprice : leValue (leBytes 8 price) = price := leValue_leBytes h.price
    have hexec : leValue (leBytes 4 execQty) = execQty := leValue_leBytes h.execQty
    have hleaves : leValue (leBytes 4 leavesQty) = leavesQty := leValue_leBytes h.leavesQty
    simp [ofBytes, bytes, field, List.drop_append, List.take_of_length_le,
      List.drop_of_length_le, hclient, hticker, horder, hmarket, hprice, hexec, hleaves,
      ClientResponseType.ofByte_byte, Side.ofByte_byte]

end MEClientResponse

namespace OMClientRequest

/-- `sizeof(OMClientRequest)` -/
def size : ℕ := 38

def bytes (m : OMClientRequest) : List UInt8 := leBytes 8 m.seqNum ++ m.meClientRequest.bytes

def ofBytes (bs : List UInt8) : OMClientRequest where
  seqNum := field bs 0 8
  meClientRequest := .ofBytes (bs.drop 8)

theorem length_bytes (m : OMClientRequest) : m.bytes.length = size := by
  rw [bytes, List.length_append, length_leBytes, MEClientRequest.length_bytes, size]

theorem ofBytes_bytes {m : OMClientRequest} (hseq : m.seqNum < 2 ^ 64)
    (h : m.meClientRequest.InRange) : ofBytes m.bytes = m := by
  rw [ofBytes, bytes, field_seqNum hseq, drop_seqNum, MEClientRequest.ofBytes_bytes h]

end OMClientRequest

namespace OMClientResponse

/-- `sizeof(OMClientResponse)` -/
def size : ℕ := 50

def bytes (m : OMClientResponse) : List UInt8 := leBytes 8 m.seqNum ++ m.meClientResponse.bytes

def ofBytes (bs : List UInt8) : OMClientResponse where
  seqNum := field bs 0 8
  meClientResponse := .ofBytes (bs.drop 8)

theorem length_bytes (m : OMClientResponse) : m.bytes.length = size := by
  rw [bytes, List.length_append, length_leBytes, MEClientResponse.length_bytes, size]

theorem ofBytes_bytes {m : OMClientResponse} (hseq : m.seqNum < 2 ^ 64)
    (h : m.meClientResponse.InRange) : ofBytes m.bytes = m := by
  rw [ofBytes, bytes, field_seqNum hseq, drop_seqNum, MEClientResponse.ofBytes_bytes h]

end OMClientResponse

end HighPerformance
