import HighPerformance.FallibleRun
import HighPerformance.Types

/-!
# The send buffer of a TCP socket

`send` appends to the buffer and `sendAndRecv` gives it to the kernel. A state
has the valid parts of the two buffers; `passed` and `taken` record all data
given to `send` and all bytes that the kernel has accepted.

The callbacks of this program read and compact the receive buffer and leave the
rest of the socket alone; `consume` is what a callback leaves of the buffer.
-/

namespace HighPerformance
open FallibleRun

def tcpBufferSize : ℕ := 64 * 1024 * 1024

structure TCPSocket where
  sendBuffer : List UInt8 := []
  rcvBuffer : List UInt8 := []
  sendDisconnected : Bool := false
  passed : List UInt8 := []
  taken : List UInt8 := []

/-- What `::send` does: it takes some bytes, or returns -1 with an `errno` for which
`wouldBlock` holds, or with another one. -/
inductive SendOutcome where
  | accepted (n : ℕ)
  | busy
  | failed
  deriving DecidableEq

namespace TCPSocket

def send (s : TCPSocket) (data : List UInt8) : Except Fault TCPSocket :=
  if s.sendBuffer.length + data.length > tcpBufferSize then .error (.outOfRange "send_buffer_")
  else .ok { s with sendBuffer := s.sendBuffer ++ data, passed := s.passed ++ data }

def partialSend : Fault := .assertion "Dont support partial send lengths yet."

/-- The `while` loop of `sendAndRecv` from its call number `i` of `::send` on. -/
def sendLoop (kernel : ℕ → SendOutcome) : ℕ → ℕ → ℕ → TCPSocket → Except Fault TCPSocket
  | 0, _, _, _ => .error .diverges
  | fuel + 1, i, nSend, s =>
      if nSend > 0 then
        let nSendThisMsg := min s.sendBuffer.length nSend
        match kernel i with
        | .failed => .ok { s with sendDisconnected := true }
        | .busy => .ok s
        | .accepted n =>
            if n = nSendThisMsg then
              sendLoop kernel fuel (i + 1) (nSend - n)
                { s with taken := s.taken ++ s.sendBuffer.take n }
            else .error partialSend
      else .ok s

/-- The socket afterwards, and whether something was received. -/
def sendAndRecv (consume : List UInt8 → List UInt8) (s : TCPSocket) (received : List UInt8)
    (kernel : ℕ → SendOutcome) : Except Fault (TCPSocket × Bool) := do
  let s := if received = [] then s else { s with rcvBuffer := consume (s.rcvBuffer ++ received) }
  let nSend := min tcpBufferSize s.sendBuffer.length
  let s ← sendLoop kernel (nSend + 1) 0 nSend s
  return ({ s with sendBuffer := [] }, decide (received ≠ []))

end TCPSocket

inductive TCPSocketCall where
  | send (data : List UInt8)
  | sendAndRecv (received : List UInt8) (kernel : ℕ → SendOutcome)

namespace TCPSocket

def call (consume : List UInt8 → List UInt8) (s : TCPSocket) :
    TCPSocketCall → Except Fault TCPSocket
  | .send data => s.send data
  | .sendAndRecv received kernel => (s.sendAndRecv consume received kernel).map Prod.fst

/-- The kernel has the first bytes of all that was passed, and the buffer has the others. -/
def LosesNothing (s : TCPSocket) : Prop := s.taken ++ s.sendBuffer = s.passed

/-- The buffer does not overflow, and the kernel accepts all of it or has no room. -/
def Orderly (s : TCPSocket) : TCPSocketCall → Prop
  | .send data => s.sendBuffer.length + data.length ≤ tcpBufferSize
  | .sendAndRecv _ kernel => s.sendBuffer ≠ [] →
      kernel 0 = .accepted s.sendBuffer.length ∨ kernel 0 = .busy

/-- The kernel has room whenever it is asked. -/
def FindsRoom (s : TCPSocket) : TCPSocketCall → Prop
  | .send _ => True
  | .sendAndRecv _ kernel => s.sendBuffer ≠ [] → kernel 0 ≠ .busy

/-- One call of `::send` for the whole buffer, and none for an empty one. -/
def sendOnce (outcome : SendOutcome) (s : TCPSocket) : Except Fault TCPSocket :=
  if s.sendBuffer = [] then .ok s
  else match outcome with
    | .failed => .ok { s with sendDisconnected := true }
    | .busy => .ok s
    | .accepted n =>
        if n = s.sendBuffer.length then .ok { s with taken := s.taken ++ s.sendBuffer }
        else .error partialSend

section Calls
variable {consume : List UInt8 → List UInt8} {s t : TCPSocket} {c : TCPSocketCall}
  {received : List UInt8} {kernel : ℕ → SendOutcome}

theorem sendLoop_eq :
    sendLoop kernel (s.sendBuffer.length + 1) 0 s.sendBuffer.length s = sendOnce (kernel 0) s := by
  unfold sendOnce
  by_cases hempty : s.sendBuffer = []
  · rw [if_pos hempty, hempty]
    rfl
  · have hpos : s.sendBuffer.length > 0 := List.length_pos_of_ne_nil hempty
    rw [if_neg hempty, sendLoop, if_pos hpos, Nat.min_self]
    cases hkernel : kernel 0 with
    | failed => rfl
    | busy => rfl
    | accepted n =>
      simp only
      by_cases hall : n = s.sendBuffer.length
      · obtain ⟨fuel, hfuel⟩ := Nat.exists_eq_succ_of_ne_zero (Nat.ne_of_gt hpos)
        rw [if_pos hall, if_pos hall, hall, Nat.sub_self, List.take_length, hfuel, sendLoop,
          if_neg (Nat.lt_irrefl 0)]
      · rw [if_neg hall, if_neg hall]

theorem sendOnce_rcvBuffer (outcome : SendOutcome) (b : List UInt8) :
    sendOnce outcome { s with rcvBuffer := b } =
      (sendOnce outcome s).map fun t => { t with rcvBuffer := b } := by
  unfold sendOnce
  by_cases hempty : s.sendBuffer = []
  · rw [if_pos hempty, if_pos hempty]
    rfl
  · rw [if_neg hempty, if_neg hempty]
    cases outcome with
    | failed => rfl
    | busy => rfl
    | accepted n =>
      simp only
      split
      · rfl
      · rfl

/-- The buffer is empty after every call that returns, whatever the kernel did. -/
theorem sendAndRecv_eq (consume : List UInt8 → List UInt8) (received : List UInt8)
    (kernel : ℕ → SendOutcome) (hfits : s.sendBuffer.length ≤ tcpBufferSize) :
    ∃ b, call consume s (.sendAndRecv received kernel) =
      (sendOnce (kernel 0) s).map fun t => { t with sendBuffer := [], rcvBuffer := b } := by
  set b := if received = [] then s.rcvBuffer else consume (s.rcvBuffer ++ received) with hb
  have hs : (if received = [] then s
      else { s with rcvBuffer := consume (s.rcvBuffer ++ received) }) =
        { s with rcvBuffer := b } := by
    rw [hb]
    split
    · rfl
    · rfl
  refine ⟨b, ?_⟩
  have hloop := @sendLoop_eq { s with rcvBuffer := b } kernel
  rw [sendOnce_rcvBuffer] at hloop
  simp only [call, sendAndRecv, hs, Nat.min_eq_right hfits, hloop]
  cases sendOnce (kernel 0) s with
  | error e => rfl
  | ok t => rfl

/-- The state between calls as long as nothing has been lost. -/
structure Sound (s : TCPSocket) : Prop where
  keeps : LosesNothing s
  fits : s.sendBuffer.length ≤ tcpBufferSize

theorem sound_send {data : List UInt8} (h : Sound s)
    (hroom : s.sendBuffer.length + data.length ≤ tcpBufferSize) :
    ∃ t, s.send data = .ok t ∧ Sound t := by
  refine ⟨_, if_neg (Nat.not_lt.mpr hroom), ?_, ?_⟩
  · change s.taken ++ (s.sendBuffer ++ data) = s.passed ++ data
    rw [← List.append_assoc, h.keeps]
  · change (s.sendBuffer ++ data).length ≤ tcpBufferSize
    rw [List.length_append]
    exact hroom

theorem sound_sendAndRecv (h : Sound s)
    (hkernel : s.sendBuffer ≠ [] → kernel 0 = .accepted s.sendBuffer.length) :
    ∃ t, call consume s (.sendAndRecv received kernel) = .ok t ∧ Sound t := by
  obtain ⟨b, hcall⟩ := sendAndRecv_eq consume received kernel h.fits
  rw [hcall]
  unfold sendOnce
  by_cases hempty : s.sendBuffer = []
  · rw [if_pos hempty]
    refine ⟨_, rfl, ?_, Nat.zero_le _⟩
    change s.taken ++ [] = s.passed
    rw [← h.keeps, hempty]
  · rw [if_neg hempty, hkernel hempty]
    simp only [if_true]
    refine ⟨_, rfl, ?_, Nat.zero_le _⟩
    change s.taken ++ s.sendBuffer ++ [] = s.passed
    rw [List.append_nil, h.keeps]

theorem busy_loses (h : Sound s) (hfull : s.sendBuffer ≠ []) (hbusy : kernel 0 = .busy)
    (hok : call consume s (.sendAndRecv received kernel) = .ok t) : ¬LosesNothing t := by
  obtain ⟨b, hcall⟩ := sendAndRecv_eq consume received kernel h.fits
  unfold sendOnce at hcall
  rw [hcall, if_neg hfull, hbusy] at hok
  cases hok
  intro hkeeps
  change s.taken ++ [] = s.passed at hkeeps
  rw [← h.keeps] at hkeeps
  exact hfull (List.append_cancel_left hkeeps).symm

end Calls

/-- Whatever is sent and received in whatever order, with a kernel that accepts the whole buffer
or has no room: no byte is lost at any point exactly when the kernel has room whenever it is
asked. -/
theorem run_losesNothing_iff (consume : List UInt8 → List UInt8) (cs : List TCPSocketCall)
    (horderly : Meets (call consume) Orderly {} cs) :
    (∀ done, done <+: cs → ∃ s, run (call consume) {} done = .ok s ∧ LosesNothing s) ↔
      Meets (call consume) FindsRoom {} cs := by
  apply forall_run_ok_iff_meets_of horderly (I := Sound)
  · exact ⟨rfl, Nat.zero_le _⟩
  · exact fun _ h => h.keeps
  · intro s c h ho hroom
    cases c with
    | send data => exact sound_send h ho
    | sendAndRecv received kernel =>
      apply sound_sendAndRecv h
      intro hfull
      exact (ho hfull).resolve_right (hroom hfull)
  · intro s c t h _ hok hkeeps
    cases c with
    | send data => trivial
    | sendAndRecv received kernel =>
      intro hfull hbusy
      exact busy_loses h hfull hbusy hok hkeeps

/-- The kernel takes the two buffers that it is asked for. -/
theorem run_losesNothing_two_sends :
    Meets (call id) Orderly {} [.send [1, 2], .sendAndRecv [7] fun _ => .accepted 2, .send [3],
      .sendAndRecv [] fun _ => .accepted 1] ∧
    ∀ done, done <+: [.send [1, 2], .sendAndRecv [7] fun _ => .accepted 2, .send [3],
        .sendAndRecv [] fun _ => .accepted 1] →
      ∃ s, run (call id) {} done = .ok s ∧ LosesNothing s := by
  have hcalls : Meets (call id) (fun s c => Orderly s c ∧ FindsRoom s c) {} [.send [1, 2],
      .sendAndRecv [7] fun _ => .accepted 2, .send [3], .sendAndRecv [] fun _ => .accepted 1] := by
    refine ⟨⟨show 0 + 2 ≤ tcpBufferSize by decide, trivial⟩, fun s₁ h₁ => ?_⟩
    cases h₁
    refine ⟨⟨fun _ => .inl rfl, fun _ => nofun⟩, fun s₂ h₂ => ?_⟩
    cases h₂
    refine ⟨⟨show 0 + 1 ≤ tcpBufferSize by decide, trivial⟩, fun s₃ h₃ => ?_⟩
    cases h₃
    exact ⟨⟨fun _ => .inl rfl, fun _ => nofun⟩, fun _ _ => trivial⟩
  have horderly := hcalls.imp fun _ _ h => h.1
  exact ⟨horderly, (run_losesNothing_iff id _ horderly).mpr (hcalls.imp fun _ _ h => h.2)⟩

/-- The kernel is busy when it is asked for the first time. -/
theorem busy_kernel_loses_bytes :
    Meets (call id) Orderly {} [.send [1, 2], .sendAndRecv [] fun _ => .busy] ∧
    ¬∀ done, done <+: [.send [1, 2], .sendAndRecv [] fun _ => .busy] →
      ∃ s, run (call id) {} done = .ok s ∧ LosesNothing s := by
  constructor
  · refine ⟨show 0 + 2 ≤ tcpBufferSize by decide, fun s₁ h₁ => ?_⟩
    cases h₁
    exact ⟨fun _ => .inr rfl, fun _ _ => trivial⟩
  · intro hall
    obtain ⟨s, hs, hkeeps⟩ := hall _ (List.prefix_refl _)
    cases hs
    cases hkeeps

end TCPSocket

end HighPerformance
