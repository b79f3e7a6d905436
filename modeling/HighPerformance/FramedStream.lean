import HighPerformance.Framing

/-!
# Messages over a byte stream

A sender writes messages of one size into a reliable stream. A receiver is given the stream in
chunks, takes the complete messages after every chunk and keeps what is left. `Reassembles` ties the
two ends together: what the receiver has taken are the first messages, as many as have arrived
whole (`Reassembles.send`, `Reassembles.receive`).

`numbered` gives the messages consecutive numbers of a fixed width.
-/

namespace HighPerformance.Framing

section Streams
variable {α β : Type} {n : ℕ} {encode : α → List β} {msgs : List α} {sent buffer : List β}
  {received : ℕ} {x : α}

/-- `sent` are all the entries of the messages, of which the first `received` have arrived. -/
structure Reassembles (n : ℕ) (encode : α → List β) (msgs : List α) (sent : List β) (received : ℕ)
    (buffer : List β) : Prop where
  sent_eq : sent = msgs.flatMap encode
  received_le : received ≤ sent.length
  buffer_eq : buffer = rest n (sent.take received)

/-- The messages that complete with the next `k` entries. -/
def completed (n : ℕ) (msgs : List α) (received k : ℕ) : List α :=
  (msgs.take ((received + k) / n)).drop (received / n)

theorem reassembles_nil : Reassembles n encode [] [] 0 [] where
  sent_eq := rfl
  received_le := Nat.le_refl _
  buffer_eq := by simp [rest]

theorem length_flatMap_encode (hsize : ∀ x ∈ msgs, (encode x).length = n) :
    (msgs.flatMap encode).length = n * msgs.length := by
  induction msgs with
  | nil => rfl
  | cons x msgs ih =>
    rw [List.flatMap_cons, List.length_append, hsize x List.mem_cons_self,
      ih fun y hy => hsize y (List.mem_cons_of_mem x hy), List.length_cons, Nat.mul_succ,
      Nat.add_comm]

theorem Reassembles.all (hn : 0 < n) (hsize : ∀ x ∈ msgs, (encode x).length = n)
    (h : Reassembles n encode msgs sent received buffer) (hall : received = sent.length) :
    received / n = msgs.length := by
  rw [hall, h.sent_eq, length_flatMap_encode hsize, Nat.mul_div_cancel_left _ hn]

theorem Reassembles.div_le (hsize : ∀ x ∈ msgs, (encode x).length = n)
    (h : Reassembles n encode msgs sent received buffer) : received / n ≤ msgs.length := by
  have hle := h.received_le
  rw [h.sent_eq, length_flatMap_encode hsize] at hle
  exact Nat.div_le_of_le_mul hle

theorem Reassembles.send (h : Reassembles n encode msgs sent received buffer) (x : α) :
    Reassembles n encode (msgs ++ [x]) (sent ++ encode x) received buffer where
  sent_eq := by rw [h.sent_eq, List.flatMap_append, List.flatMap_singleton]
  received_le := by
    rw [List.length_append]
    exact Nat.le_trans h.received_le (Nat.le_add_right _ _)
  buffer_eq := by rw [h.buffer_eq, List.take_append_of_le_length h.received_le]

/-- The complete messages in the part of the stream that has arrived. -/
theorem Reassembles.frames_take (hn : 0 < n) (hsize : ∀ x ∈ msgs, (encode x).length = n)
    (hsent : sent = msgs.flatMap encode) {k : ℕ} (hk : k ≤ sent.length) :
    frames n (sent.take k) = (msgs.take (k / n)).map encode := by
  have hrecords : ∀ r ∈ msgs.map encode, r.length = n := by
    intro r hr
    obtain ⟨x, hx, rfl⟩ := List.mem_map.mp hr
    exact hsize x hx
  have hprefix : sent.take k <+: (msgs.map encode).flatten := by
    rw [hsent, List.flatMap_def]
    exact List.take_prefix _ _
  have hcut := frames_prefix hn _ hrecords _ hprefix
  rw [hcut, List.length_take, Nat.min_eq_left hk, List.map_take]

theorem frames_flatMap (hn : 0 < n) (hsize : ∀ x ∈ msgs, (encode x).length = n) :
    frames n (msgs.flatMap encode) = msgs.map encode := by
  have hall := Reassembles.frames_take hn hsize rfl (Nat.le_refl (msgs.flatMap encode).length)
  rw [List.take_length, length_flatMap_encode hsize, Nat.mul_div_cancel_left _ hn, List.take_length]
    at hall
  exact hall

/-- The next chunk completes some messages and leaves a part of another one. -/
theorem Reassembles.receive (hn : 0 < n) (hsize : ∀ x ∈ msgs, (encode x).length = n)
    (h : Reassembles n encode msgs sent received buffer) {chunk : List β}
    (hchunk : chunk <+: sent.drop received) :
    frames n (buffer ++ chunk) = (completed n msgs received chunk.length).map encode ∧
      Reassembles n encode msgs sent (received + chunk.length) (rest n (buffer ++ chunk)) := by
  have hlen : received + chunk.length ≤ sent.length := by
    have hle := hchunk.length_le
    rw [List.length_drop] at hle
    have := h.received_le
    omega
  have htake : sent.take (received + chunk.length) = sent.take received ++ chunk := by
    rw [List.take_add, ← List.prefix_iff_eq_take.mp hchunk]
  have hframes := Reassembles.frames_take hn hsize h.sent_eq hlen
  rw [htake, frames_append hn, Reassembles.frames_take hn hsize h.sent_eq h.received_le, ← h.buffer_eq]
    at hframes
  constructor
  · have hdrop := congrArg (List.drop (received / n)) hframes
    have hshort : ((msgs.take (received / n)).map encode).length = received / n := by
      rw [List.length_map, List.length_take, Nat.min_eq_left (h.div_le hsize)]
    rw [List.drop_left' hshort, ← List.map_drop] at hdrop
    exact hdrop
  · refine ⟨h.sent_eq, hlen, ?_⟩
    have hrest := (rest_append hn (sent.take received) chunk).symm
    rw [← h.buffer_eq] at hrest
    rw [htake]
    exact hrest

/-- What was taken before the chunk and what it completes are the first messages again. -/
theorem take_completed (n : ℕ) (msgs : List α) (received k : ℕ) :
    msgs.take (received / n) ++ completed n msgs received k =
      msgs.take ((received + k) / n) := by
  have hle : received / n ≤ (received + k) / n := Nat.div_le_div_right (Nat.le_add_right _ _)
  have hprefix : (msgs.take ((received + k) / n)).take (received / n) =
      msgs.take (received / n) := by
    rw [List.take_take, Nat.min_eq_left hle]
  rw [completed, ← hprefix, List.take_append_drop]

theorem length_completed {k : ℕ} (h : received / n ≤ msgs.length)
    (h' : (received + k) / n ≤ msgs.length) :
    received / n + (completed n msgs received k).length = (received + k) / n := by
  have hlen := congrArg List.length (take_completed n msgs received k)
  rw [List.length_append, List.length_take, List.length_take, Nat.min_eq_left h,
    Nat.min_eq_left h'] at hlen
  exact hlen

end Streams

section Numbers
variable {α : Type}

/-- Consecutive numbers from `k` on, modulo `2 ^ w`. -/
def numbered (w : ℕ) : ℕ → List α → List (ℕ × α)
  | _, [] => []
  | k, x :: xs => (k % 2 ^ w, x) :: numbered w (k + 1) xs

variable {w k : ℕ} {xs ys : List α}

@[simp] theorem length_numbered : (numbered w k xs).length = xs.length := by
  induction xs generalizing k with
  | nil => rfl
  | cons x xs ih => rw [numbered, List.length_cons, ih, List.length_cons]

theorem numbered_append :
    numbered w k (xs ++ ys) = numbered w k xs ++ numbered w (k + xs.length) ys := by
  induction xs generalizing k with
  | nil => rfl
  | cons x xs ih =>
    rw [List.cons_append, numbered, numbered, List.cons_append, ih, List.length_cons,
      Nat.add_assoc, Nat.add_comm 1]

theorem numbered_take (i : ℕ) : (numbered w k xs).take i = numbered w k (xs.take i) := by
  induction xs generalizing k i with
  | nil => simp [numbered]
  | cons x xs ih =>
    cases i with
    | zero => rfl
    | succ i => rw [numbered, List.take_succ_cons, List.take_succ_cons, numbered, ih]

theorem numbered_drop (i : ℕ) : (numbered w k xs).drop i = numbered w (k + i) (xs.drop i) := by
  induction xs generalizing k i with
  | nil => simp [numbered]
  | cons x xs ih =>
    cases i with
    | zero => rfl
    | succ i => rw [numbered, List.drop_succ_cons, List.drop_succ_cons, ih, Nat.add_assoc,
        Nat.add_comm 1]

theorem completed_numbered (n received i : ℕ) :
    completed n (numbered w k xs) received i =
      numbered w (k + received / n) (completed n xs received i) := by
  rw [completed, numbered_take, numbered_drop, completed]

end Numbers

end HighPerformance.Framing
