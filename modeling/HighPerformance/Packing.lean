import HighPerformance.Framing
import HighPerformance.Messages

/-!
# The packed market update

The bytes of `MDPMarketUpdate`, which is packed without padding: a sequence
number of eight bytes, then type, order id, ticker, side, price, quantity and
priority. Reading the bytes back at their offsets gives the update again when
its fields are in the range of their types.
-/

namespace HighPerformance
open Framing

section Enumerations

def MarketUpdateType.byte : MarketUpdateType → UInt8
  | .invalid => 0
  | .clear => 1
  | .add => 2
  | .modify => 3
  | .cancel => 4
  | .trade => 5
  | .snapshotStart => 6
  | .snapshotEnd => 7
  | .unnamed code => UInt8.ofNat (code.val + 8)

def MarketUpdateType.ofByte (b : UInt8) : MarketUpdateType :=
  match b.toNat with
  | 0 => .invalid
  | 1 => .clear
  | 2 => .add
  | 3 => .modify
  | 4 => .cancel
  | 5 => .trade
  | 6 => .snapshotStart
  | 7 => .snapshotEnd
  | k + 8 => .unnamed (Fin.ofNat 248 k)

/-- `SELL` is -1. -/
def Side.byte : Side → UInt8
  | .invalid => 0
  | .buy => 1
  | .max => 2
  | .sell => 255
  | .unnamed code => UInt8.ofNat (code.val + 3)

def Side.ofByte (b : UInt8) : Side :=
  match b.toNat with
  | 0 => .invalid
  | 1 => .buy
  | 2 => .max
  | k + 3 => if k = 252 then .sell else .unnamed (Fin.ofNat 252 k)

theorem MarketUpdateType.ofByte_byte (t : MarketUpdateType) : ofByte t.byte = t := by
  cases t with
  | unnamed code =>
    have hcode : (UInt8.ofNat (code.val + 8)).toNat = code.val + 8 := by
      rw [UInt8.toNat_ofNat']
      omega
    have hfin : Fin.ofNat 248 code.val = code := Fin.ext (Nat.mod_eq_of_lt code.isLt)
    rw [byte, ofByte, hcode]
    exact congrArg MarketUpdateType.unnamed hfin
  | invalid | clear | add | modify | cancel | trade | snapshotStart | snapshotEnd => rfl

theorem Side.ofByte_byte (side : Side) : ofByte side.byte = side := by
  cases side with
  | unnamed code =>
    have hcode : (UInt8.ofNat (code.val + 3)).toNat = code.val + 3 := by
      rw [UInt8.toNat_ofNat']
      omega
    have hfin : Fin.ofNat 252 code.val = code := Fin.ext (Nat.mod_eq_of_lt code.isLt)
    rw [byte, ofByte, hcode]
    change (if code.val = 252 then Side.sell else .unnamed (Fin.ofNat 252 code.val)) = _
    rw [if_neg (Nat.ne_of_lt code.isLt), hfin]
  | invalid | buy | max | sell => rfl

end Enumerations

/-- The integer of `w` bytes at an offset. -/
def field (bs : List UInt8) (offset w : ℕ) : ℕ := leValue ((bs.drop offset).take w)

namespace MEMarketUpdate

def bytes (u : MEMarketUpdate) : List UInt8 :=
  u.type.byte :: (leBytes 8 u.orderId ++ (leBytes 4 u.tickerId ++ u.side.byte ::
    (leBytes 8 u.price ++ (leBytes 4 u.qty ++ leBytes 8 u.priority))))

def ofBytes (bs : List UInt8) : MEMarketUpdate where
  type := .ofByte (bs.getD 0 0)
  orderId := field bs 1 8
  tickerId := field bs 9 4
  side := .ofByte (bs.getD 13 0)
  price := field bs 14 8
  qty := field bs 22 4
  priority := field bs 26 8

/-- The fields are in the range of their types. -/
structure InRange (u : MEMarketUpdate) : Prop where
  orderId : u.orderId < 2 ^ 64
  tickerId : u.tickerId < 2 ^ 32
  price : u.price < 2 ^ 64
  qty : u.qty < 2 ^ 32
  priority : u.priority < 2 ^ 64

theorem length_bytes (u : MEMarketUpdate) : u.bytes.length = 34 := by
  simp only [bytes, List.length_cons, List.length_append, length_leBytes]

theorem ofBytes_bytes {u : MEMarketUpdate} (h : u.InRange) : ofBytes u.bytes = u := by
  cases u with
  | mk type orderId tickerId side price qty priority =>
    have horder : leValue (leBytes 8 orderId) = orderId := leValue_leBytes h.orderId
    have hticker : leValue (leBytes 4 tickerId) = tickerId := leValue_leBytes h.tickerId
    have hprice : leValue (leBytes 8 price) = price := leValue_leBytes h.price
    have hqty : leValue (leBytes 4 qty) = qty := leValue_leBytes h.qty
    have hpriority : leValue (leBytes 8 priority) = priority := leValue_leBytes h.priority
    simp [ofBytes, bytes, field, List.drop_append, List.take_of_length_le,
      List.drop_of_length_le, horder, hticker, hprice, hqty, hpriority,
      MarketUpdateType.ofByte_byte, Side.ofByte_byte]

end MEMarketUpdate

/-- A message behind its sequence number. -/
theorem field_seqNum {seqNum : ℕ} (h : seqNum < 2 ^ 64) (bs : List UInt8) :
    field (leBytes 8 seqNum ++ bs) 0 8 = seqNum := by
  have hlen : (leBytes 8 seqNum).length = 8 := length_leBytes 8 seqNum
  rw [field, List.drop_zero, List.take_append_of_le_length (Nat.le_of_eq hlen.symm),
    List.take_of_length_le (Nat.le_of_eq hlen), leValue_leBytes h]

theorem drop_seqNum (seqNum : ℕ) (bs : List UInt8) : (leBytes 8 seqNum ++ bs).drop 8 = bs := by
  have hlen : (leBytes 8 seqNum).length = 8 := length_leBytes 8 seqNum
  rw [List.drop_append_of_le_length (Nat.le_of_eq hlen.symm),
    List.drop_of_length_le (Nat.le_of_eq hlen), List.nil_append]

namespace MDPMarketUpdate

/-- `sizeof(MDPMarketUpdate)` -/
def size : ℕ := 42

def bytes (m : MDPMarketUpdate) : List UInt8 := leBytes 8 m.seqNum ++ m.meMarketUpdate.bytes

def ofBytes (bs : List UInt8) : MDPMarketUpdate where
  seqNum := field bs 0 8
  meMarketUpdate := .ofBytes (bs.drop 8)

theorem length_bytes (m : MDPMarketUpdate) : m.bytes.length = size := by
  rw [bytes, List.length_append, length_leBytes, MEMarketUpdate.length_bytes, size]

theorem ofBytes_bytes {m : MDPMarketUpdate} (hseq : m.seqNum < 2 ^ 64)
    (h : m.meMarketUpdate.InRange) : ofBytes m.bytes = m := by
  rw [ofBytes, bytes, field_seqNum hseq, drop_seqNum, MEMarketUpdate.ofBytes_bytes h]

end MDPMarketUpdate

end HighPerformance
