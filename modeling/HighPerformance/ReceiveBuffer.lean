import HighPerformance.MarketDataConsumer
import HighPerformance.OrderEntry

/-!
# The receive buffers

The three receive callbacks decode the complete messages at the beginning of the valid bytes and
then move the bytes behind them to the front of the buffer. `RcvBuffer` is a whole buffer with its
valid bytes counted, and `Memcpy` a call of `memcpy` inside it. What the callbacks do to the valid
bytes alone is `recvCallback` in the modules of their classes (`recvCallback_eq_on`); here they
are followed index by index.
-/

namespace HighPerformance
open FallibleRun Framing

structure RcvBuffer where
  bytes : List UInt8
  nextRcvValidIndex : ℕ
  valid_le : nextRcvValidIndex ≤ bytes.length

/-- The arguments of a call: offsets into the buffer and a length. -/
structure Memcpy where
  dest : ℕ
  src : ℕ
  len : ℕ
  deriving DecidableEq

namespace Memcpy

/-- The bytes that the call reads; past the end of the buffer there are none. -/
def source (c : Memcpy) (bytes : List UInt8) : List UInt8 := (bytes.drop c.src).take c.len

/-- The buffer after the call, as if all of the source were read first. -/
def copy (c : Memcpy) (bytes : List UInt8) : List UInt8 :=
  bytes.take c.dest ++ c.source bytes ++ bytes.drop (c.dest + (c.source bytes).length)

def Disjoint (c : Memcpy) : Prop := c.dest + c.len ≤ c.src ∨ c.src + c.len ≤ c.dest

end Memcpy

namespace RcvBuffer

def valid (b : RcvBuffer) : List UInt8 := b.bytes.take b.nextRcvValidIndex

theorem length_valid (b : RcvBuffer) : b.valid.length = b.nextRcvValidIndex :=
  List.length_take_of_le b.valid_le

/-- `memcpy` to the front of the buffer from index `i`, and `next_rcv_valid_index_ -= i`. -/
def compact (b : RcvBuffer) (i len : ℕ) : RcvBuffer where
  bytes := Memcpy.copy ⟨0, i, len⟩ b.bytes
  nextRcvValidIndex := b.nextRcvValidIndex - i
  valid_le := by
    have hle := b.valid_le
    simp only [Memcpy.copy, Memcpy.source, List.take_zero, List.nil_append, List.length_append,
      List.length_take, List.length_drop, Nat.zero_add]
    omega

/-- `next_rcv_valid_index_ = 0` -/
def clear (b : RcvBuffer) : RcvBuffer where
  bytes := b.bytes
  nextRcvValidIndex := 0
  valid_le := Nat.zero_le _

end RcvBuffer

/-- What a callback leaves, with the call of `memcpy` if it made one. -/
structure Received (σ : Type) where
  state : σ
  buffer : RcvBuffer
  memcpy : Option Memcpy

section Loop
variable {σ ε : Type}

/-- The loop of the callbacks from index `i`: the state and the index behind it. -/
def recvLoop (size : ℕ) (receive : σ → List UInt8 → Except ε σ) (b : RcvBuffer) :
    ℕ → ℕ → σ → Except ε (σ × ℕ)
  | 0, i, s => .ok (s, i)
  | fuel + 1, i, s =>
      if i + size ≤ b.nextRcvValidIndex then
        match receive s ((b.bytes.drop i).take size) with
        | .error e => .error e
        | .ok t => recvLoop size receive b fuel (i + size) t
      else .ok (s, i)

/-- The common part of the callbacks. `length` is the third argument of `memcpy`, from the number
of valid bytes and the index behind the loop. -/
def recvMessages (size : ℕ) (length : ℕ → ℕ → ℕ) (receive : σ → List UInt8 → Except ε σ) (s : σ)
    (b : RcvBuffer) : Except ε (Received σ) :=
  let n := b.nextRcvValidIndex
  if size ≤ n then
    match recvLoop size receive b n 0 s with
    | .error e => .error e
    | .ok (t, i) =>
        .ok { state := t, buffer := b.compact i (length n i), memcpy := some ⟨0, i, length n i⟩ }
  else .ok { state := s, buffer := b, memcpy := none }

end Loop

/-- The bytes of the complete messages. -/
def RcvBuffer.consumed (b : RcvBuffer) (size : ℕ) : ℕ := b.nextRcvValidIndex / size * size

section Loop
variable {σ ε : Type} {size fuel i len : ℕ} {receive : σ → List UInt8 → Except ε σ} {b : RcvBuffer}
  {s : σ}

theorem RcvBuffer.consumed_le (b : RcvBuffer) (size : ℕ) :
    b.consumed size ≤ b.nextRcvValidIndex := Nat.div_mul_le_self _ _

theorem RcvBuffer.rest_valid (b : RcvBuffer) (size : ℕ) :
    rest size b.valid = b.valid.drop (b.consumed size) := by
  rw [rest, b.length_valid, consumed]

theorem RcvBuffer.tail_lt (b : RcvBuffer) (hsize : 0 < size) :
    b.nextRcvValidIndex - b.consumed size < size := by
  have hmod := Nat.mod_lt b.nextRcvValidIndex hsize
  have hdiv := Nat.div_add_mod' b.nextRcvValidIndex size
  rw [consumed]
  omega

theorem RcvBuffer.size_le_consumed (b : RcvBuffer) (hsize : 0 < size)
    (hle : size ≤ b.nextRcvValidIndex) : size ≤ b.consumed size := by
  have hone : 1 ≤ b.nextRcvValidIndex / size := (Nat.one_le_div_iff hsize).mpr hle
  calc size = 1 * size := (Nat.one_mul size).symm
    _ ≤ b.nextRcvValidIndex / size * size := Nat.mul_le_mul_right size hone

theorem RcvBuffer.take_valid (hi : i + size ≤ b.nextRcvValidIndex) :
    (b.valid.drop i).take size = (b.bytes.drop i).take size := by
  rw [valid, List.drop_take, List.take_take, Nat.min_eq_left (by omega)]

/-- The loop gives the complete messages to its body, in order, and ends behind the last one. -/
theorem recvLoop_eq (hsize : 0 < size) (hi : i ≤ b.nextRcvValidIndex)
    (hfuel : b.nextRcvValidIndex - i ≤ fuel) :
    recvLoop size receive b fuel i s = (run receive s (frames size (b.valid.drop i))).map
      fun t => (t, i + (b.nextRcvValidIndex - i) / size * size) := by
  have hlen : (b.valid.drop i).length = b.nextRcvValidIndex - i := by
    rw [List.length_drop, b.length_valid]
  induction fuel generalizing i s with
  | zero =>
    have hend : b.nextRcvValidIndex - i = 0 := by omega
    rw [recvLoop, frames_of_lt (by omega), hend, Nat.zero_div, Nat.zero_mul, Nat.add_zero]
    rfl
  | succ fuel ih =>
    rw [recvLoop]
    by_cases hmore : i + size ≤ b.nextRcvValidIndex
    · have hnext : (b.valid.drop (i + size)).length = b.nextRcvValidIndex - (i + size) := by
        rw [List.length_drop, b.length_valid]
      have hindex : i + (b.nextRcvValidIndex - i) / size * size =
          i + size + (b.nextRcvValidIndex - (i + size)) / size * size := by
        rw [div_eq_succ hsize (by omega), Nat.sub_sub, Nat.add_mul, Nat.one_mul]
        omega
      rw [if_pos hmore, frames_of_le hsize (by omega), RcvBuffer.take_valid hmore, List.drop_drop,
        hindex, run]
      cases receive s ((b.bytes.drop i).take size) with
      | error e => rfl
      | ok t => exact ih hmore (by omega) hnext
    · have hlast : b.nextRcvValidIndex - i < size := by omega
      rw [if_neg hmore, frames_of_lt (by omega), Nat.div_eq_of_lt hlast, Nat.zero_mul, Nat.add_zero]
      rfl

/-- What is left of a run of the body over all complete messages. -/
def received (size : ℕ) (length : ℕ → ℕ → ℕ) (b : RcvBuffer) (t : σ) : Received σ :=
  if size ≤ b.nextRcvValidIndex then
    { state := t
      buffer := b.compact (b.consumed size) (length b.nextRcvValidIndex (b.consumed size))
      memcpy := some ⟨0, b.consumed size, length b.nextRcvValidIndex (b.consumed size)⟩ }
  else { state := t, buffer := b, memcpy := none }

theorem recvMessages_eq (hsize : 0 < size) (length : ℕ → ℕ → ℕ) :
    recvMessages size length receive s b =
      (run receive s (frames size b.valid)).map (received size length b) := by
  unfold recvMessages
  by_cases h : size ≤ b.nextRcvValidIndex
  · rw [if_pos h, recvLoop_eq hsize (Nat.zero_le _) (Nat.sub_le _ _), List.drop_zero]
    cases run receive s (frames size b.valid) with
    | error e => rfl
    | ok t =>
      simp only [Except.map, received, if_pos h, Nat.zero_add, Nat.sub_zero, RcvBuffer.consumed]
  · rw [if_neg h, frames_of_lt (by rw [b.length_valid]; omega)]
    simp only [run_nil, Except.map, received, if_neg h]

/-- The first bytes of a copy that is long enough are the unread tail. -/
theorem RcvBuffer.valid_compact (hi : i ≤ b.nextRcvValidIndex)
    (hlen : b.nextRcvValidIndex - i ≤ len) : (b.compact i len).valid = b.valid.drop i := by
  have hle := b.valid_le
  have hsource : b.nextRcvValidIndex - i ≤ (Memcpy.source ⟨0, i, len⟩ b.bytes).length := by
    simp only [Memcpy.source, List.length_take, List.length_drop]
    omega
  simp only [valid, compact, Memcpy.copy, List.take_zero, List.nil_append]
  rw [List.take_append_of_le_length hsource, Memcpy.source, List.take_take,
    Nat.min_eq_left hlen, List.drop_take]

theorem received_valid (length : ℕ → ℕ → ℕ) (t : σ)
    (hlen : size ≤ b.nextRcvValidIndex → b.nextRcvValidIndex - b.consumed size ≤
      length b.nextRcvValidIndex (b.consumed size)) :
    (received size length b t).buffer.valid = rest size b.valid := by
  unfold received
  by_cases h : size ≤ b.nextRcvValidIndex
  · rw [if_pos h, RcvBuffer.valid_compact (b.consumed_le size) (hlen h), b.rest_valid]
  · rw [if_neg h, rest_of_lt (by rw [b.length_valid]; omega)]

@[simp] theorem received_state (length : ℕ → ℕ → ℕ) (t : σ) :
    (received size length b t).state = t := by
  unfold received
  split_ifs <;> rfl

end Loop

/-- `OrderServer::recvCallback` -/
def OrderServer.recvCallbackOn (log : Log) (s : OrderServer) (socket : ℕ) (rxTime : ℤ) (b : RcvBuffer) :
    Except Fault (Received OrderServer) := do
  log 28 "recvCallback" "%:% %() % Received socket:% len:% rx:%\n"
    [.element (.integer socket), .element (.unsignedLongInteger b.nextRcvValidIndex),
      .element (.longInteger rxTime)]
  recvMessages OMClientRequest.size (fun n _ => n - 1)
    (OrderServer.receiveRequest log socket rxTime) s b

/-- `OrderGateway::recvCallback` -/
def OrderGateway.recvCallbackOn (g : OrderGateway) (b : RcvBuffer) :
    Except Fault (Received OrderGateway) :=
  recvMessages OMClientResponse.size (fun n i => n - i)
    (fun g bytes => .ok (g.receiveResponse bytes)) g b

/-- `MarketDataConsumer::recvCallback` -/
def MarketDataConsumer.recvCallbackOn (s : MarketDataConsumer) (socket : MarketDataConsumer.Socket)
    (b : RcvBuffer) : Except DeadIterator (Received MarketDataConsumer) :=
  if socket = .snapshot ∧ s.inRecovery = false then
    .ok { state := s, buffer := b.clear, memcpy := none }
  else
    recvMessages MDPMarketUpdate.size (fun n i => n - i)
      (fun s bytes => s.receive (socket = .snapshot) (.ofBytes bytes)) s b

section Refinement
variable {b : RcvBuffer}

/-- `OrderServer.recvCallback` sees the valid bytes of the buffer; `memcpy` is taken to read its
source first. -/
theorem OrderServer.recvCallback_eq_on {s : OrderServer} {log : Log} {socket : ℕ} {rxTime : ℤ}
    (hb : s.rcvBuffer socket = b.valid) :
    s.recvCallback log socket rxTime = (s.recvCallbackOn log socket rxTime b).map fun r =>
      { r.state with
        rcvBuffer := Function.update r.state.rcvBuffer socket r.buffer.valid } := by
  have hvalid : ∀ t : OrderServer,
      (received OMClientRequest.size (fun n _ => n - 1) b t).buffer.valid =
        rest OMClientRequest.size b.valid := by
    intro t
    apply received_valid
    intro hle
    have hpos := b.size_le_consumed (by decide) hle
    unfold OMClientRequest.size at hpos hle ⊢
    omega
  unfold recvCallback recvCallbackOn
  simp only [hb, b.length_valid, recvMessages_eq (show 0 < OMClientRequest.size by decide)]
  cases log 28 "recvCallback" "%:% %() % Received socket:% len:% rx:%\n"
      [.element (.integer socket), .element (.unsignedLongInteger b.nextRcvValidIndex),
        .element (.longInteger rxTime)] with
  | error e => rfl
  | ok u =>
    by_cases h : b.nextRcvValidIndex < OMClientRequest.size
    · have hshort : b.valid.length < OMClientRequest.size := by rw [b.length_valid]; exact h
      have hstay := hvalid s
      rw [rest_of_lt hshort] at hstay
      simp only [bind, Except.bind, if_pos h, frames_of_lt hshort, run_nil, Except.map,
        received_state, hstay]
      rw [← hb, Function.update_eq_self]
      rfl
    · simp only [bind, Except.bind, if_neg h]
      cases run (receiveRequest log socket rxTime) s (frames OMClientRequest.size b.valid) with
      | error e => rfl
      | ok t =>
        simp only [Except.map, received_state, hvalid]
        rfl

theorem OrderGateway.recvCallback_eq_on {g : OrderGateway} (hb : g.rcvBuffer = b.valid) :
    (g.recvCallbackOn b).map (fun r => { r.state with rcvBuffer := r.buffer.valid }) =
      .ok g.recvCallback := by
  rw [recvCallbackOn, recvMessages_eq (by decide), run_foldl]
  simp only [Except.map, received_state]
  rw [received_valid _ _ fun _ => Nat.le_refl _, recvCallback_eq, hb]

theorem MarketDataConsumer.recvCallback_eq_on {s : MarketDataConsumer}
    {socket : MarketDataConsumer.Socket} (hb : s.inbound socket = b.valid) :
    s.recvCallback socket =
      (s.recvCallbackOn socket b).map fun r => r.state.setInbound socket r.buffer.valid := by
  unfold recvCallback recvCallbackOn
  by_cases hquiet : socket = .snapshot ∧ s.inRecovery = false
  · rw [if_pos hquiet, if_pos hquiet]
    rfl
  · rw [if_neg hquiet, if_neg hquiet, run_map, recvMessages_eq (by decide), hb]
    cases run (fun s k => receive (socket = .snapshot) s (.ofBytes k)) s
        (frames MDPMarketUpdate.size b.valid) with
    | error e => rfl
    | ok t =>
      simp only [Except.map, received_state]
      rw [received_valid _ _ fun _ => Nat.le_refl _]

end Refinement

/-- The call moves exactly the unread tail to the front, from inside the valid bytes and from
a range that the destination does not meet. -/
structure Memcpy.MovesTail (c : Memcpy) (size : ℕ) (b : RcvBuffer) : Prop where
  dest : c.dest = 0
  source : c.source b.bytes = rest size b.valid
  inside : c.src + c.len ≤ b.nextRcvValidIndex
  disjoint : c.Disjoint

/-- What a callback owes to its buffer. -/
structure Compacted (size : ℕ) (b b' : RcvBuffer) (call : Option Memcpy) : Prop where
  moves : ∀ c, call = some c → c.MovesTail size b ∧
    b'.nextRcvValidIndex = (rest size b.valid).length ∧ b'.valid = rest size b.valid
  short : b'.nextRcvValidIndex < size

inductive RecvCallback where
  | orderServer (log : Log) (s : OrderServer) (socket : ℕ) (rxTime : ℤ)
  | orderGateway (g : OrderGateway)
  | marketDataConsumer (s : MarketDataConsumer) (socket : MarketDataConsumer.Socket)

namespace RecvCallback

def messageSize : RecvCallback → ℕ
  | .orderServer .. => OMClientRequest.size
  | .orderGateway _ => OMClientResponse.size
  | .marketDataConsumer .. => MDPMarketUpdate.size

/-- The buffer after a call that returns, and its call of `memcpy`. -/
def call (b : RcvBuffer) : RecvCallback → Option (RcvBuffer × Option Memcpy)
  | .orderServer log s socket rxTime =>
      (s.recvCallbackOn log socket rxTime b).toOption.map fun r => (r.buffer, r.memcpy)
  | .orderGateway g => (g.recvCallbackOn b).toOption.map fun r => (r.buffer, r.memcpy)
  | .marketDataConsumer s socket =>
      (s.recvCallbackOn socket b).toOption.map fun r => (r.buffer, r.memcpy)

/-- The order server passes `next_rcv_valid_index_ - 1` for the length. -/
def LengthRight (b : RcvBuffer) : RecvCallback → Prop
  | .orderServer .. => b.nextRcvValidIndex < OMClientRequest.size
  | .orderGateway _ => True
  | .marketDataConsumer .. => True

end RecvCallback

section Contract
variable {size i len : ℕ} {b : RcvBuffer}

theorem RcvBuffer.length_rest (b : RcvBuffer) (size : ℕ) :
    (rest size b.valid).length = b.nextRcvValidIndex - b.consumed size := by
  rw [b.rest_valid, List.length_drop, b.length_valid]

theorem movesTail_iff (hsize : 0 < size) (hle : size ≤ b.nextRcvValidIndex) :
    Memcpy.MovesTail ⟨0, b.consumed size, len⟩ size b ↔
      len = b.nextRcvValidIndex - b.consumed size := by
  have hi := b.consumed_le size
  have hvalid := b.valid_le
  constructor
  · intro h
    have hlen : min len (b.bytes.length - b.consumed size) =
        b.nextRcvValidIndex - b.consumed size := by
      rw [← b.length_rest, ← h.source, Memcpy.source, List.length_take, List.length_drop]
    have hinside : b.consumed size + len ≤ b.nextRcvValidIndex := h.inside
    omega
  · rintro rfl
    have htail := b.tail_lt hsize
    have hpos := b.size_le_consumed hsize hle
    constructor
    · rfl
    · rw [b.rest_valid, RcvBuffer.valid, List.drop_take, Memcpy.source]
    · change b.consumed size + (b.nextRcvValidIndex - b.consumed size) ≤ b.nextRcvValidIndex
      omega
    · left
      change 0 + (b.nextRcvValidIndex - b.consumed size) ≤ b.consumed size
      omega

theorem received_compacted_iff {σ : Type} (hsize : 0 < size) (length : ℕ → ℕ → ℕ) (t : σ) :
    Compacted size b (received size length b t).buffer (received size length b t).memcpy ↔
      (size ≤ b.nextRcvValidIndex → length b.nextRcvValidIndex (b.consumed size) =
        b.nextRcvValidIndex - b.consumed size) := by
  unfold received
  by_cases h : size ≤ b.nextRcvValidIndex
  · rw [if_pos h]
    constructor
    · intro hc _
      exact (movesTail_iff hsize h).mp (hc.moves _ rfl).1
    · intro hlen
      constructor
      · intro c hcall
        cases hcall
        refine ⟨(movesTail_iff hsize h).mpr (hlen h), ?_, ?_⟩
        · rw [b.length_rest]
          rfl
        · rw [RcvBuffer.valid_compact (b.consumed_le size) (Nat.le_of_eq (hlen h).symm),
            b.rest_valid]
      · exact b.tail_lt hsize
  · rw [if_neg h]
    constructor
    · intro _ hle
      exact (h hle).elim
    · intro _
      constructor
      · intro c hcall
        cases hcall
      · exact Nat.not_le.mp h

theorem recvMessages_result {σ ε : Type} (hsize : 0 < size) {length : ℕ → ℕ → ℕ}
    {receive : σ → List UInt8 → Except ε σ} {s : σ} {x : RcvBuffer × Option Memcpy}
    (h : (recvMessages size length receive s b).toOption.map (fun r => (r.buffer, r.memcpy)) =
      some x) :
    ∃ t : σ, x = ((received size length b t).buffer, (received size length b t).memcpy) := by
  rw [recvMessages_eq hsize] at h
  cases hrun : run receive s (frames size b.valid) with
  | error e =>
    rw [hrun] at h
    cases h
  | ok t =>
    rw [hrun] at h
    cases h
    exact ⟨t, rfl⟩

end Contract

namespace RecvCallback

/-- The compaction keeps the contract of `memcpy` in the gateway and in the consumer always, and in
the order server exactly as long as there is no complete request. -/
theorem call_compacted_iff {callback : RecvCallback} {b b' : RcvBuffer} {c : Option Memcpy}
    (h : callback.call b = some (b', c)) :
    Compacted callback.messageSize b b' c ↔ callback.LengthRight b := by
  cases callback with
  | orderServer log s socket rxTime =>
    have hsize : 0 < OMClientRequest.size := by decide
    simp only [call, OrderServer.recvCallbackOn] at h
    cases hlog : log 28 "recvCallback" "%:% %() % Received socket:% len:% rx:%\n"
        [.element (.integer socket), .element (.unsignedLongInteger b.nextRcvValidIndex),
          .element (.longInteger rxTime)] with
    | error e =>
      rw [hlog] at h
      cases h
    | ok u =>
      rw [hlog] at h
      simp only [bind, Except.bind] at h
      obtain ⟨t, ht⟩ := recvMessages_result hsize h
      cases ht
      rw [messageSize, received_compacted_iff hsize, LengthRight]
      constructor
      · intro hlen
        by_contra hle
        have hpos := b.size_le_consumed hsize (Nat.not_lt.mp hle)
        have heq := hlen (Nat.not_lt.mp hle)
        have hall := b.consumed_le OMClientRequest.size
        unfold OMClientRequest.size at hpos hle heq hall
        omega
      · intro hlt hle
        omega
  | orderGateway g =>
    have hsize : 0 < OMClientResponse.size := by decide
    obtain ⟨t, ht⟩ := recvMessages_result hsize h
    cases ht
    rw [messageSize, received_compacted_iff hsize, LengthRight]
    exact ⟨fun _ => trivial, fun _ _ => rfl⟩
  | marketDataConsumer s socket =>
    have hsize : 0 < MDPMarketUpdate.size := by decide
    rw [LengthRight, iff_true]
    simp only [call, MarketDataConsumer.recvCallbackOn] at h
    split_ifs at h with hquiet
    · cases h
      constructor
      · intro c hcall
        cases hcall
      · exact hsize
    · obtain ⟨t, ht⟩ := recvMessages_result hsize h
      cases ht
      rw [messageSize, received_compacted_iff hsize]
      exact fun _ => rfl

/-- A buffer of 128 bytes. -/
def zeros (n : ℕ) (h : n ≤ 128) : RcvBuffer where
  bytes := List.replicate 128 0
  nextRcvValidIndex := n
  valid_le := by rw [List.length_replicate]; exact h

/-- One response and one byte of the next. -/
theorem gateway_compacted :
    Compacted OMClientResponse.size (zeros 51 (by decide)) ((zeros 51 (by decide)).compact 50 1)
      (some ⟨0, 50, 1⟩) := by
  have hcall : call (zeros 51 (by decide)) (.orderGateway { clientId := 0 }) =
      some ((zeros 51 (by decide)).compact 50 1, some ⟨0, 50, 1⟩) := rfl
  exact (call_compacted_iff hcall).mpr trivial

/-- One request and 37 bytes of the next: the 74 bytes from index 38 on. -/
theorem server_copy_overlaps :
    ¬ ∀ (callback : RecvCallback) (b b' : RcvBuffer) (c : Option Memcpy),
      callback.call b = some (b', c) → Compacted callback.messageSize b b' c := by
  intro h
  have hmoves := ((h (.orderServer OrderServer.silent {} 0 0) (zeros 75 (by decide)) _ _ rfl).moves
    ⟨0, 38, 74⟩ rfl).1
  rcases hmoves.disjoint with hd | hd
  · exact absurd hd (by decide)
  · exact absurd hd (by decide)

end RecvCallback

end HighPerformance
