import Mathlib.Data.List.Basic
import Mathlib.Data.Nat.Notation
import Mathlib.Data.UInt

/-!
# Reading into a growing buffer

`PPSBuffer::ensureCapacity` and `readFrom`, with the arithmetic of `size_t` modulo
`2 ^ 64`. Memory is never refused. The results of `read` are given as a sequence; a
`read` that is offered fewer bytes than the next result has returns as many as it
is offered. A call records what each `read` was offered and what it returned.
-/

namespace HighPerformance

inductive Errno where
  | eagain
  | ewouldblock
  | efbig
  | other (code : ℕ)
  deriving DecidableEq

/-- What `read` returns: bytes, none at the end of the file, or -1 with `errno`. -/
inductive ReadResult where
  | bytes (chunk : List UInt8)
  | failed (errno : Errno)
  deriving DecidableEq

/-- The part of the buffer that a `read` was offered. -/
structure ReadOffer where
  offset : ℕ
  space : ℕ
  capacity : ℕ

structure PPSBuffer where
  capacity : ℕ
  size : ℕ
  data : ℕ → UInt8

/-- The value returned, `errno` where the call has set it or `read` has, the buffer, and
the record of the calls of `read`. -/
structure ReadOutcome where
  value : ℤ
  errno : Option Errno
  buffer : PPSBuffer
  offers : List ReadOffer
  results : List ReadResult

namespace ReadResult

/-- No more data for now, in non-blocking mode. -/
def wouldBlock (e : Errno) : Bool := e == .eagain || e == .ewouldblock

def chunk : ReadResult → List UInt8
  | .bytes chunk => chunk
  | .failed _ => []

/-- An error other than `EAGAIN` and `EWOULDBLOCK`. -/
def realError : ReadResult → Bool
  | .bytes _ => false
  | .failed e => !wouldBlock e

/-- At most `space` bytes. -/
def upTo (space : ℕ) : ReadResult → ReadResult
  | .bytes chunk => .bytes (chunk.take space)
  | .failed e => .failed e

end ReadResult

namespace PPSBuffer

/-- The doubling of `new_capacity`; `none` when it does not come to an end. -/
def double (required : ℕ) : ℕ → ℕ → Option ℕ
  | 0, _ => none
  | fuel + 1, newCapacity =>
      if newCapacity < required then double required fuel (newCapacity * 2 % 2 ^ 64)
      else some newCapacity

/-- After 64 doublings nothing is left of the first capacity. -/
def ensureCapacity (b : PPSBuffer) (required : ℕ) : Option PPSBuffer :=
  if required ≤ b.capacity then some b
  else
    (double required 65 b.capacity).map fun newCapacity => { b with capacity := newCapacity }

/-- `capacity_ - size_`. -/
def space (b : PPSBuffer) : ℕ := (2 ^ 64 + b.capacity - b.size) % 2 ^ 64

/-- The buffer is doubled, but not beyond `maxSize`, when there are fewer than 1024
bytes of space. -/
def grow (b : PPSBuffer) (maxSize : ℕ) : Option PPSBuffer :=
  if b.space < 1024 then b.ensureCapacity (min (b.capacity * 2 % 2 ^ 64) maxSize) else some b

/-- `read` copies the bytes behind those it has already. -/
def append (b : PPSBuffer) (chunk : List UInt8) : PPSBuffer :=
  { b with
    size := (b.size + chunk.length) % 2 ^ 64
    data := fun i => if b.size ≤ i then (chunk[i - b.size]?).getD (b.data i) else b.data i }

/-- A `size_t` as `ssize_t`. -/
def signed (n : ℕ) : ℤ := if n < 2 ^ 63 then n else n - 2 ^ 64

/-- The end of `readFrom` after the loop. -/
def terminate (b : PPSBuffer) : PPSBuffer :=
  if b.size < b.capacity then { b with data := Function.update b.data b.size 0 } else b

/-- The `while` loop, with the `reads` from the `k`-th on. -/
def readFromLoop (maxSize : ℕ) (reads : ℕ → ReadResult) : ℕ → ℕ → PPSBuffer →
    List ReadOffer → List ReadResult → Option ReadOutcome
  | 0, _, _, _, _ => none
  | fuel + 1, k, b, offers, results =>
      match b.grow maxSize with
      | none => none
      | some b =>
          if maxSize ≤ b.size then some ⟨-1, some .efbig, b, offers, results⟩
          else
            let space := min b.space (maxSize - b.size)
            let offers := offers ++ [⟨b.size, space, b.capacity⟩]
            let result := (reads k).upTo space
            let results := results ++ [result]
            match result with
            | .failed e =>
                if ReadResult.wouldBlock e then
                  some ⟨signed b.size, some e, b.terminate, offers, results⟩
                else some ⟨-1, some e, b, offers, results⟩
            | .bytes [] => some ⟨signed b.size, none, b.terminate, offers, results⟩
            | .bytes chunk =>
                let b := b.append chunk
                if chunk.length < space then
                  some ⟨signed b.size, none, b.terminate, offers, results⟩
                else readFromLoop maxSize reads fuel (k + 1) b offers results

/-- Every turn but the last accepts a byte. -/
def readFrom (b : PPSBuffer) (maxSize : ℕ) (reads : ℕ → ReadResult) : Option ReadOutcome :=
  readFromLoop maxSize reads (maxSize + 1) 0 { b with size := 0 } [] []

end PPSBuffer

namespace ReadOutcome

/-- All bytes that `read` has delivered, in order. -/
def accepted (out : ReadOutcome) : List UInt8 := out.results.flatMap ReadResult.chunk

def failed (out : ReadOutcome) : Prop := ∃ r ∈ out.results, r.realError = true

/-- The reads are inside the buffer and take no more than `maxSize` bytes; -1 stands for
an error or for `maxSize` bytes; else the bytes are in the buffer, with a NUL behind
them. -/
structure Complete (maxSize : ℕ) (out : ReadOutcome) : Prop where
  inside : ∀ o ∈ out.offers, o.offset + o.space ≤ o.capacity
  bounded : out.accepted.length ≤ maxSize
  fails : out.value = -1 ↔ out.failed ∨ out.accepted.length = maxSize
  total : ¬(out.failed ∨ out.accepted.length = maxSize) →
    out.value = out.accepted.length ∧ out.buffer.size = out.accepted.length
  data : ¬(out.failed ∨ out.accepted.length = maxSize) →
    ∀ i < out.buffer.size, out.accepted[i]? = some (out.buffer.data i)
  terminated : ¬(out.failed ∨ out.accepted.length = maxSize) →
    out.buffer.size < out.buffer.capacity ∧ out.buffer.data out.buffer.size = 0

end ReadOutcome

namespace PPSBuffer

section Growth
variable {b : PPSBuffer} {maxSize : ℕ}

theorem space_eq (hle : b.size ≤ b.capacity) (hlt : b.capacity < 2 ^ 64) :
    b.space = b.capacity - b.size := by
  unfold space
  omega

/-- One doubling is enough, and none is needed when the double overflows. -/
theorem ensureCapacity_spec (hpos : 1 ≤ b.capacity) (hlt : b.capacity < 2 ^ 64) {required : ℕ}
    (hle : required ≤ b.capacity * 2 % 2 ^ 64) :
    ∃ capacity, b.ensureCapacity required = some { b with capacity := capacity } ∧
      b.capacity ≤ capacity ∧ capacity < 2 ^ 64 ∧ required ≤ capacity ∧
      (capacity = b.capacity ∨ capacity = b.capacity * 2) := by
  unfold ensureCapacity
  by_cases henough : required ≤ b.capacity
  · rw [if_pos henough]
    exact ⟨b.capacity, rfl, Nat.le_refl _, hlt, henough, .inl rfl⟩
  · rw [if_neg henough]
    have hdouble : b.capacity * 2 % 2 ^ 64 = b.capacity * 2 := by omega
    rw [hdouble] at hle
    have hgrown : double required 65 b.capacity = some (b.capacity * 2) := by
      rw [double, if_pos (by omega), hdouble, double, if_neg (by omega)]
    refine ⟨b.capacity * 2, by rw [hgrown]; rfl, by omega, by omega, hle, .inr rfl⟩

/-- There is room for a byte and the NUL, unless the capacity can no longer be doubled. -/
theorem grow_spec (hpos : 1 ≤ b.capacity) (hle : b.size ≤ b.capacity) (hlt : b.capacity < 2 ^ 64) :
    ∃ capacity, b.grow maxSize = some { b with capacity := capacity } ∧
      b.capacity ≤ capacity ∧ capacity < 2 ^ 64 ∧
      (b.size < maxSize → b.size < capacity ∨ 2 ^ 63 ≤ capacity) := by
  unfold grow
  by_cases hspace : b.space < 1024
  · rw [if_pos hspace]
    obtain ⟨capacity, heq, hgrown, hbelow, hrequired, hcases⟩ :=
      ensureCapacity_spec hpos hlt (Nat.min_le_left (b.capacity * 2 % 2 ^ 64) maxSize)
    refine ⟨capacity, heq, hgrown, hbelow, fun hmax => ?_⟩
    omega
  · rw [if_neg hspace]
    rw [space_eq hle hlt] at hspace
    exact ⟨b.capacity, rfl, Nat.le_refl _, hlt, fun _ => .inl (by omega)⟩

theorem grow_of_space (hle : b.size ≤ b.capacity) (hlt : b.capacity < 2 ^ 64)
    (hspace : b.size + 1024 ≤ b.capacity) : b.grow maxSize = some b := by
  unfold grow
  rw [space_eq hle hlt, if_neg (by omega)]

theorem grow_doubles (hpos : 1 ≤ b.capacity) (hle : b.size ≤ b.capacity)
    (hspace : b.capacity < b.size + 1024) (hlt : b.capacity * 2 < 2 ^ 64)
    (hmax : b.capacity * 2 ≤ maxSize) :
    b.grow maxSize = some { b with capacity := b.capacity * 2 } := by
  have hrequired : min (b.capacity * 2 % 2 ^ 64) maxSize = b.capacity * 2 := by omega
  obtain ⟨capacity, heq, -, -, hge, hcases⟩ :=
    ensureCapacity_spec hpos (by omega) (Nat.min_le_left (b.capacity * 2 % 2 ^ 64) maxSize)
  rw [hrequired] at heq hge
  have hcapacity : capacity = b.capacity * 2 := by omega
  unfold grow
  rw [space_eq hle (by omega), if_pos (by omega), hrequired, heq, hcapacity]

end Growth

/-- Between two reads: what was accepted is in the buffer. -/
structure Reading (maxSize : ℕ) (b : PPSBuffer) (offers : List ReadOffer)
    (results : List ReadResult) : Prop where
  pos : 1 ≤ b.capacity
  below : b.capacity < 2 ^ 64
  le : b.size ≤ b.capacity
  size : b.size = (results.flatMap ReadResult.chunk).length
  bounded : b.size ≤ maxSize
  data : ∀ i < b.size, (results.flatMap ReadResult.chunk)[i]? = some (b.data i)
  inside : ∀ o ∈ offers, o.offset + o.space ≤ o.capacity
  noError : ∀ r ∈ results, r.realError = false

section Loop
variable {maxSize k fuel : ℕ} {b : PPSBuffer} {offers : List ReadOffer}
  {results : List ReadResult} {reads : ℕ → ReadResult}

theorem Reading.withCapacity (h : Reading maxSize b offers results) {capacity : ℕ}
    (hle : b.capacity ≤ capacity) (hlt : capacity < 2 ^ 64) :
    Reading maxSize { b with capacity := capacity } offers results := by
  constructor
  · exact Nat.le_trans h.pos hle
  · exact hlt
  · exact Nat.le_trans h.le hle
  · exact h.size
  · exact h.bounded
  · exact h.data
  · exact h.inside
  · exact h.noError

theorem Reading.offer (h : Reading maxSize b offers results) :
    Reading maxSize b (offers ++ [⟨b.size, min b.space (maxSize - b.size), b.capacity⟩]) results := by
  constructor
  · exact h.pos
  · exact h.below
  · exact h.le
  · exact h.size
  · exact h.bounded
  · exact h.data
  · intro o ho
    rcases List.mem_append.mp ho with hold | hnew
    · exact h.inside o hold
    · rw [List.mem_singleton.mp hnew]
      have hle := h.le
      have hspace := space_eq hle h.below
      change b.size + min b.space (maxSize - b.size) ≤ b.capacity
      omega
  · exact h.noError

theorem Reading.nothing (h : Reading maxSize b offers results) {r : ReadResult}
    (hchunk : r.chunk = []) (herror : r.realError = false) :
    Reading maxSize b offers (results ++ [r]) := by
  have hsame : (results ++ [r]).flatMap ReadResult.chunk = results.flatMap ReadResult.chunk := by
    rw [List.flatMap_append, List.flatMap_singleton, hchunk, List.append_nil]
  constructor
  · exact h.pos
  · exact h.below
  · exact h.le
  · rw [hsame]
    exact h.size
  · exact h.bounded
  · rw [hsame]
    exact h.data
  · exact h.inside
  · intro q hq
    rcases List.mem_append.mp hq with hold | hnew
    · exact h.noError q hold
    · rw [List.mem_singleton.mp hnew]
      exact herror

theorem Reading.append (h : Reading maxSize b offers results)
    {chunk : List UInt8} (hchunk : chunk.length ≤ min b.space (maxSize - b.size)) :
    Reading maxSize (b.append chunk) offers (results ++ [.bytes chunk]) ∧
      (b.append chunk).size = b.size + chunk.length := by
  have hle := h.le
  have hbelow := h.below
  have hbounded := h.bounded
  have hspace := space_eq hle hbelow
  have haccepted : (results ++ [ReadResult.bytes chunk]).flatMap ReadResult.chunk =
      results.flatMap ReadResult.chunk ++ chunk := by
    rw [List.flatMap_append, List.flatMap_singleton]
    rfl
  have hsize : (b.append chunk).size = b.size + chunk.length :=
    Nat.mod_eq_of_lt (by omega)
  refine ⟨?_, hsize⟩
  constructor
  · exact h.pos
  · exact h.below
  · rw [hsize]
    change b.size + chunk.length ≤ b.capacity
    omega
  · rw [hsize, haccepted, List.length_append, ← h.size]
  · rw [hsize]
    omega
  · intro i hi
    rw [hsize] at hi
    rw [haccepted]
    change _ = some (if b.size ≤ i then (chunk[i - b.size]?).getD (b.data i) else b.data i)
    by_cases hnew : b.size ≤ i
    · rw [if_pos hnew, List.getElem?_append_right (by rw [← h.size]; exact hnew), ← h.size,
        List.getElem?_eq_getElem (by omega), Option.getD_some]
    · rw [if_neg hnew, List.getElem?_append_left (by rw [← h.size]; omega)]
      exact h.data i (by omega)
  · exact h.inside
  · intro q hq
    rcases List.mem_append.mp hq with hold | hnew
    · exact h.noError q hold
    · rw [List.mem_singleton.mp hnew]
      rfl

theorem signed_of_lt {n : ℕ} (h : n < 2 ^ 63) : signed n = n := if_pos h

theorem terminate_size (b : PPSBuffer) : b.terminate.size = b.size := by
  unfold terminate
  split <;> rfl

theorem Reading.complete (h : Reading maxSize b offers results) (hmax : maxSize ≤ 2 ^ 63)
    (hsize : b.size < maxSize) (hroom : b.size < b.capacity ∨ 2 ^ 63 ≤ b.capacity)
    (errno : Option Errno) :
    ReadOutcome.Complete maxSize ⟨signed b.size, errno, b.terminate, offers, results⟩ := by
  generalize hout : (⟨signed b.size, errno, b.terminate, offers, results⟩ : ReadOutcome) = out
  have htotal : out.accepted.length = b.size := by
    rw [← hout]
    exact h.size.symm
  have hfailed : ¬out.failed := by
    rw [← hout]
    rintro ⟨r, hr, herror⟩
    rw [h.noError r hr] at herror
    cases herror
  have hends : ¬(out.failed ∨ out.accepted.length = maxSize) := by
    rw [htotal]
    exact not_or.mpr ⟨hfailed, Nat.ne_of_lt hsize⟩
  have hfree : b.size < b.capacity := by omega
  have hterminate : b.terminate = { b with data := Function.update b.data b.size 0 } := if_pos hfree
  have hvalue : out.value = b.size := by
    rw [← hout]
    exact signed_of_lt (by omega)
  have hbuffer : out.buffer = b.terminate := by rw [← hout]
  constructor
  · rw [← hout]
    exact h.inside
  · rw [htotal]
    exact h.bounded
  · rw [hvalue]
    constructor
    · intro hneg
      omega
    · intro hfails
      exact (hends hfails).elim
  · intro _
    rw [htotal, hbuffer, terminate_size]
    exact ⟨hvalue, rfl⟩
  · intro _ i hi
    rw [hbuffer, terminate_size] at hi
    have hkept : b.terminate.data i = b.data i := by
      rw [hterminate]
      exact Function.update_of_ne (Nat.ne_of_lt hi) _ _
    rw [hbuffer, hkept, ← hout]
    exact h.data i hi
  · intro _
    rw [hbuffer, hterminate]
    exact ⟨hfree, Function.update_self _ _ _⟩

theorem Reading.complete_of_fails (h : Reading maxSize b offers results)
    {results' : List ReadResult} (errno : Option Errno)
    (hsame : results'.flatMap ReadResult.chunk = results.flatMap ReadResult.chunk)
    (hfails : ReadOutcome.failed ⟨-1, errno, b, offers, results'⟩ ∨ b.size = maxSize) :
    ReadOutcome.Complete maxSize ⟨-1, errno, b, offers, results'⟩ := by
  have htotal : (results'.flatMap ReadResult.chunk).length = b.size := by rw [hsame, h.size]
  have hends := hfails.imp_right htotal.trans
  constructor
  · exact h.inside
  · exact htotal.trans_le h.bounded
  · exact ⟨fun _ => hends, fun _ => rfl⟩
  · exact fun hnot => (hnot hends).elim
  · exact fun hnot => (hnot hends).elim
  · exact fun hnot => (hnot hends).elim

theorem readFromLoop_spec (h : Reading maxSize b offers results) (hmax : maxSize ≤ 2 ^ 63)
    (hfuel : maxSize < b.size + fuel) :
    ∃ out, readFromLoop maxSize reads fuel k b offers results = some out ∧ out.Complete maxSize := by
  induction fuel generalizing k b offers results with
  | zero =>
    have hbounded := h.bounded
    omega
  | succ fuel ih =>
    obtain ⟨capacity, hgrow, hgrown, hbelow, hroom⟩ :
        ∃ capacity, b.grow maxSize = some { b with capacity := capacity } ∧
          b.capacity ≤ capacity ∧ capacity < 2 ^ 64 ∧
          (b.size < maxSize → b.size < capacity ∨ 2 ^ 63 ≤ capacity) :=
      grow_spec h.pos h.le h.below
    have hb := h.withCapacity hgrown hbelow
    rw [readFromLoop, hgrow]
    simp only
    by_cases hfull : maxSize ≤ b.size
    · rw [if_pos hfull]
      exact ⟨_, rfl, hb.complete_of_fails _ rfl (.inr (Nat.le_antisymm h.bounded hfull))⟩
    · rw [if_neg hfull]
      have hsize : b.size < maxSize := Nat.lt_of_not_le hfull
      have hoffer := hb.offer
      cases hread : reads k with
      | failed e =>
        simp only [ReadResult.upTo]
        by_cases hblock : ReadResult.wouldBlock e = true
        · rw [if_pos hblock]
          have hended := hoffer.nothing (r := .failed e) rfl (by simp [ReadResult.realError, hblock])
          exact ⟨_, rfl, hended.complete hmax hsize (hroom hsize) _⟩
        · rw [if_neg hblock]
          refine ⟨_, rfl, hoffer.complete_of_fails _ ?_ (.inl ?_)⟩
          · rw [List.flatMap_append, List.flatMap_singleton, ReadResult.chunk, List.append_nil]
          · exact ⟨.failed e, List.mem_concat_self, by simp [ReadResult.realError, hblock]⟩
      | bytes chunk =>
        simp only [ReadResult.upTo]
        cases htake : chunk.take (min { b with capacity := capacity }.space (maxSize - b.size)) with
        | nil =>
          have hended := hoffer.nothing (r := .bytes []) rfl rfl
          exact ⟨_, rfl, hended.complete hmax hsize (hroom hsize) _⟩
        | cons c cs =>
          have hlen : (c :: cs).length ≤
              min { b with capacity := capacity }.space (maxSize - b.size) := by
            rw [← htake]
            exact List.length_take_le _ _
          obtain ⟨happended, hsize'⟩ := hoffer.append hlen
          have hspace := space_eq hb.le hb.below
          change _ = b.size + _ at hsize'
          change _ = capacity - b.size at hspace
          by_cases hshort : (c :: cs).length <
              min { b with capacity := capacity }.space (maxSize - b.size)
          · simp only [if_pos hshort]
            refine ⟨_, rfl, happended.complete hmax ?_ (.inl ?_) _⟩
            · omega
            · change _ < capacity
              omega
          · simp only [if_neg hshort]
            apply ih happended
            rw [hsize', List.length_cons]
            omega

theorem readFromLoop_full {b' : PPSBuffer} {chunk : List UInt8} (hgrow : b.grow maxSize = some b')
    (hsize : b'.size < maxSize) (hread : reads k = .bytes chunk) (hne : chunk ≠ [])
    (hlen : chunk.length = min b'.space (maxSize - b'.size)) :
    ∃ offers', readFromLoop maxSize reads (fuel + 1) k b offers results =
      readFromLoop maxSize reads fuel (k + 1) (b'.append chunk) offers'
        (results ++ [.bytes chunk]) := by
  have htake : chunk.take (min b'.space (maxSize - b'.size)) = chunk := by
    rw [← hlen, List.take_length]
  refine ⟨offers ++ [⟨b'.size, min b'.space (maxSize - b'.size), b'.capacity⟩], ?_⟩
  rw [readFromLoop, hgrow]
  simp only [if_neg (Nat.not_le_of_lt hsize), hread, ReadResult.upTo, htake]
  cases chunk with
  | nil => exact (hne rfl).elim
  | cons c cs => simp only [hlen, Nat.lt_irrefl, if_false]

theorem readFromLoop_short {b' : PPSBuffer} {chunk : List UInt8}
    (hgrow : b.grow maxSize = some b') (hsize : b'.size < maxSize)
    (hread : reads k = .bytes chunk) (hne : chunk ≠ [])
    (hlen : chunk.length < min b'.space (maxSize - b'.size)) :
    ∃ offers', readFromLoop maxSize reads (fuel + 1) k b offers results =
      some ⟨signed (b'.append chunk).size, none, (b'.append chunk).terminate, offers',
        results ++ [.bytes chunk]⟩ := by
  have htake : chunk.take (min b'.space (maxSize - b'.size)) = chunk :=
    List.take_of_length_le (Nat.le_of_lt hlen)
  refine ⟨offers ++ [⟨b'.size, min b'.space (maxSize - b'.size), b'.capacity⟩], ?_⟩
  rw [readFromLoop, hgrow]
  simp only [if_neg (Nat.not_le_of_lt hsize), hread, ReadResult.upTo, htake]
  cases chunk with
  | nil => exact (hne rfl).elim
  | cons c cs => simp only [if_pos hlen]

end Loop

/-- The call ends and is complete, as long as `ssize_t` can represent every total below
`maxSize`. -/
theorem readFrom_complete (b : PPSBuffer) (hpos : 1 ≤ b.capacity) (hlt : b.capacity < 2 ^ 62)
    (maxSize : ℕ) (hmax : maxSize ≤ 2 ^ 63) (reads : ℕ → ReadResult) :
    ∃ out, b.readFrom maxSize reads = some out ∧ out.Complete maxSize := by
  apply readFromLoop_spec
  · constructor
    · exact hpos
    · exact Nat.lt_of_lt_of_le hlt (Nat.pow_le_pow_right (by decide) (by decide))
    · exact Nat.zero_le _
    · rfl
    · exact Nat.zero_le _
    · intro i hi
      exact (Nat.not_lt_zero i hi).elim
    · simp
    · simp
  · exact hmax
  · change maxSize < 0 + (maxSize + 1)
    omega

/-- The buffer of four bytes grows; five bytes come, and the file ends. -/
theorem readFrom_five_bytes : ∃ out,
    readFrom ⟨4, 0, fun _ => 0⟩ 10
        (fun k => if k = 0 then .bytes [1, 2, 3, 4, 5] else .bytes []) = some out ∧
      out.Complete 10 ∧ out.value = 5 ∧ out.accepted = [1, 2, 3, 4, 5] := by
  obtain ⟨out, hout, hcomplete⟩ := readFrom_complete ⟨4, 0, fun _ => 0⟩ (by decide) (by decide) 10
    (by decide) (fun k => if k = 0 then .bytes [1, 2, 3, 4, 5] else .bytes [])
  refine ⟨out, hout, hcomplete, ?_⟩
  cases hout
  decide

/-- Two reads fill the buffer and its double, and the third returns two bytes. -/
theorem readFrom_negative {c : List UInt8} {n m : ℕ} {d : ℕ → UInt8} (hn : n = 2 ^ 62 - 1)
    (hm : m = 2 ^ 64 - 1) (hc : c.length = n) :
    ∃ offers b, readFrom ⟨n, 0, d⟩ m (fun k => if k < 2 then .bytes c else .bytes [0, 0]) =
      some ⟨-2 ^ 63, none, b, offers, [.bytes c, .bytes c, .bytes [0, 0]]⟩ := by
  have hne : c ≠ [] := by
    rintro rfl
    rw [List.length_nil] at hc
    omega
  let b₀ : PPSBuffer := ⟨n, 0, d⟩
  let b₁ := b₀.append c
  let b₂ := ({ b₁ with capacity := n * 2 } : PPSBuffer).append c
  let b₃ := ({ b₂ with capacity := n * 2 * 2 } : PPSBuffer).append [0, 0]
  have hsize₁ : b₁.size = n := by
    change (0 + c.length) % 2 ^ 64 = n
    omega
  have hsize₂ : b₂.size = n * 2 := by
    change (b₁.size + c.length) % 2 ^ 64 = n * 2
    omega
  have hsize₃ : b₃.size = 2 ^ 63 := by
    change (b₂.size + 2) % 2 ^ 64 = 2 ^ 63
    omega
  have hgrow₀ : b₀.grow m = some b₀ := grow_of_space (Nat.zero_le _) (by change n < _; omega)
    (by change 0 + 1024 ≤ n; omega)
  have hgrow₁ : b₁.grow m = some { b₁ with capacity := n * 2 } :=
    grow_doubles (by change 1 ≤ n; omega) (by change _ ≤ n; omega) (by change n < _; omega)
      (by change n * 2 < _; omega) (by change n * 2 ≤ _; omega)
  have hgrow₂ : b₂.grow m = some { b₂ with capacity := n * 2 * 2 } :=
    grow_doubles (by change 1 ≤ n * 2; omega) (by change _ ≤ n * 2; omega)
      (by change n * 2 < _; omega) (by change n * 2 * 2 < _; omega)
      (by change n * 2 * 2 ≤ _; omega)
  have hspace₀ : b₀.space = n := space_eq (Nat.zero_le _) (by change n < _; omega)
  have hspace₁ : ({ b₁ with capacity := n * 2 } : PPSBuffer).space = n * 2 - b₁.size :=
    space_eq (by change b₁.size ≤ n * 2; omega) (by change n * 2 < _; omega)
  have hspace₂ : ({ b₂ with capacity := n * 2 * 2 } : PPSBuffer).space = n * 2 * 2 - b₂.size :=
    space_eq (by change b₂.size ≤ n * 2 * 2; omega) (by change n * 2 * 2 < _; omega)
  obtain ⟨f, rfl⟩ : ∃ f, m = f + 2 := ⟨m - 2, by omega⟩
  let reads : ℕ → ReadResult := fun k => if k < 2 then .bytes c else .bytes [0, 0]
  have hfirst : ∃ offers, readFromLoop (f + 2) reads (f + 2 + 1) 0 b₀ [] [] =
      readFromLoop (f + 2) reads (f + 2) 1 b₁ offers [.bytes c] := by
    apply readFromLoop_full hgrow₀ _ rfl hne
    · rw [hspace₀]
      change c.length = min n (f + 2 - 0)
      omega
    · change 0 < f + 2
      omega
  obtain ⟨offers₁, hfirst⟩ := hfirst
  have hsecond : ∃ offers, readFromLoop (f + 2) reads (f + 1 + 1) 1 b₁ offers₁ [.bytes c] =
      readFromLoop (f + 2) reads (f + 1) 2 b₂ offers [.bytes c, .bytes c] := by
    apply readFromLoop_full hgrow₁ _ rfl hne
    · rw [hspace₁]
      change c.length = min _ (f + 2 - b₁.size)
      omega
    · change b₁.size < f + 2
      omega
  obtain ⟨offers₂, hsecond⟩ := hsecond
  have hthird : ∃ offers,
      readFromLoop (f + 2) reads (f + 1) 2 b₂ offers₂ [.bytes c, .bytes c] =
        some ⟨signed b₃.size, none, b₃.terminate, offers,
          [.bytes c, .bytes c, .bytes [0, 0]]⟩ := by
    apply readFromLoop_short hgrow₂ _ rfl (List.cons_ne_nil _ _)
    · rw [hspace₂]
      change 2 < min _ (f + 2 - b₂.size)
      omega
    · change b₂.size < f + 2
      omega
  obtain ⟨offers₃, hthird⟩ := hthird
  refine ⟨offers₃, b₃.terminate, (hfirst.trans (hsecond.trans hthird)).trans ?_⟩
  rw [hsize₃]
  rfl

/-- The call has taken `2 ^ 63` bytes without an error, and returns a negative value. -/
theorem readFrom_overflows : ¬∃ out,
    readFrom ⟨2 ^ 62 - 1, 0, fun _ => 0⟩ (2 ^ 64 - 1)
      (fun k => if k < 2 then .bytes (List.replicate (2 ^ 62 - 1) 0) else .bytes [0, 0]) =
        some out ∧ out.Complete (2 ^ 64 - 1) := by
  obtain ⟨c, hc, hlen⟩ : ∃ c, List.replicate (2 ^ 62 - 1) (0 : UInt8) = c ∧
      c.length = 2 ^ 62 - 1 := ⟨_, rfl, List.length_replicate⟩
  rw [hc]
  rintro ⟨out, hout, hcomplete⟩
  obtain ⟨offers, b, heq⟩ := readFrom_negative (d := fun _ => 0) rfl rfl hlen
  rw [heq, Option.some.injEq] at hout
  subst hout
  have htotal : ([ReadResult.bytes c, .bytes c, .bytes [0, 0]].flatMap ReadResult.chunk).length =
      2 ^ 63 := by
    simp only [List.flatMap_cons, List.flatMap_nil, List.length_append, ReadResult.chunk, hlen,
      List.length_cons, List.length_nil]
    omega
  refine absurd (hcomplete.total ?_).1 ?_
  · rintro (⟨r, hr, herror⟩ | hmax)
    · simp only [List.mem_cons, List.not_mem_nil, or_false] at hr
      rcases hr with rfl | rfl | rfl <;> cases herror
    · have hsame := hmax.symm.trans htotal
      omega
  · intro hvalue
    have hnegative : (-2 ^ 63 : ℤ) = (2 ^ 63 : ℕ) := by
      rw [← htotal]
      exact hvalue
    omega

end PPSBuffer

end HighPerformance
