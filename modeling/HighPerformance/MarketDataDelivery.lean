import HighPerformance.MarketDataConsumer

/-!
# What the consumer delivers

As long as the messages arrive with the numbers 1, 2, 3, … the consumer is
`Quiet` and has written their updates; the first other number makes it
`Recovering`, and then it writes nothing itself until the recovery ends. The
bytes of the messages may be cut anywhere, and the snapshot stream may carry any
bytes in between.
-/

namespace HighPerformance.MarketDataConsumer
open FallibleRun Framing

/-- How many messages at the beginning have the numbers `e`, `e + 1`, … -/
def inOrder : ℕ → List MDPMarketUpdate → ℕ
  | _, [] => 0
  | e, m :: ms => if m.seqNum = e then inOrder ((e + 1) % 2 ^ 64) ms + 1 else 0

/-- The updates of these messages. -/
def accepted (e : ℕ) (ms : List MDPMarketUpdate) : List MEMarketUpdate :=
  (ms.take (inOrder e ms)).map (·.meMarketUpdate)

section Order
variable {e : ℕ} {m : MDPMarketUpdate} {ms ns : List MDPMarketUpdate}

theorem inOrder_le : inOrder e ms ≤ ms.length := by
  induction ms generalizing e with
  | nil => exact Nat.le_refl 0
  | cons m ms ih =>
    rw [inOrder, List.length_cons]
    split
    · exact Nat.add_le_add_right ih 1
    · exact Nat.zero_le _

theorem inOrder_append_of_gap (h : inOrder e ms < ms.length) :
    inOrder e (ms ++ ns) = inOrder e ms := by
  induction ms generalizing e with
  | nil => exact (Nat.not_lt_zero _ h).elim
  | cons m ms ih =>
    rw [inOrder] at h
    rw [List.cons_append, inOrder, inOrder]
    split
    · next he =>
      rw [if_pos he, List.length_cons] at h
      rw [ih (Nat.lt_of_add_lt_add_right h)]
    · rfl

theorem inOrder_append_of_all (he : e < 2 ^ 64) (h : inOrder e ms = ms.length) :
    inOrder e (ms ++ ns) = ms.length + inOrder ((e + ms.length) % 2 ^ 64) ns := by
  induction ms generalizing e with
  | nil =>
    rw [List.nil_append, List.length_nil, Nat.zero_add, Nat.add_zero, Nat.mod_eq_of_lt he]
  | cons m ms ih =>
    rw [inOrder, List.length_cons] at h
    rw [List.cons_append, inOrder, List.length_cons]
    split at h
    · next hm =>
      rw [if_pos hm, ih (Nat.mod_lt _ (by decide)) (Nat.add_right_cancel h), Nat.mod_add_mod]
      have hsum : e + 1 + ms.length = e + (ms.length + 1) := by omega
      rw [hsum]
      omega
    · cases h

theorem accepted_append_of_gap (h : inOrder e ms < ms.length) (ns : List MDPMarketUpdate) :
    accepted e (ms ++ ns) = accepted e ms ∧
      (ms ++ ns)[inOrder e (ms ++ ns)]? = ms[inOrder e ms]? := by
  rw [accepted, accepted, inOrder_append_of_gap h,
    List.take_append_of_le_length (Nat.le_of_lt h), List.getElem?_append_left h]
  exact ⟨rfl, rfl⟩

theorem accepted_snoc_of_next (he : e < 2 ^ 64) (h : inOrder e ms = ms.length)
    (hm : m.seqNum = (e + ms.length) % 2 ^ 64) :
    inOrder e (ms ++ [m]) = (ms ++ [m]).length := by
  rw [inOrder_append_of_all he h, inOrder, if_pos hm, inOrder, List.length_append,
    List.length_singleton]

theorem accepted_snoc_of_ne (he : e < 2 ^ 64) (h : inOrder e ms = ms.length)
    (hm : m.seqNum ≠ (e + ms.length) % 2 ^ 64) :
    inOrder e (ms ++ [m]) = ms.length := by
  rw [inOrder_append_of_all he h, inOrder, if_neg hm, Nat.add_zero]

theorem accepted_of_all (h : inOrder e ms = ms.length) :
    accepted e ms = ms.map (·.meMarketUpdate) := by
  rw [accepted, h, List.take_length]

end Order

/-- Before the first recovery. -/
structure Quiet (s : MarketDataConsumer) (us : List MEMarketUpdate) : Prop where
  inRecovery : s.inRecovery = false
  snapshotOpen : s.snapshotOpen = false
  incoming : s.incomingMdUpdates = us
  history : s.history = us.map .wrote
  next : s.nextExpIncSeqNum = (1 + us.length) % 2 ^ 64

/-- In the first recovery, which the message numbered `n` has started. -/
structure Recovering (s : MarketDataConsumer) (us : List MEMarketUpdate) (n : ℕ) : Prop where
  inRecovery : s.inRecovery = true
  incoming : s.incomingMdUpdates = us
  history : s.history = us.map .wrote ++ [.started n]

/-- At the end of the first recovery. -/
def Recovered (us : List MEMarketUpdate) (n : ℕ) : DeadIterator → Prop
  | .deadIterator s => ∃ events, s.incomingMdUpdates = us ++ events ∧
      s.history = us.map .wrote ++ [.started n, .ended events]

section Messages
variable {s t : MarketDataConsumer} {us : List MEMarketUpdate} {n : ℕ} {isSnapshot : Bool}
  {m : MDPMarketUpdate}

theorem checkSnapshotSync_recovering (h : Recovering s us n) :
    (∃ t, checkSnapshotSync s = .ok t ∧ Recovering t us n ∧
      t.incrementalInbound = s.incrementalInbound) ∨
    ∃ e, checkSnapshotSync s = .error e ∧ Recovered us n e := by
  simp only [checkSnapshotSync]
  split
  · exact .inl ⟨s, rfl, h, rfl⟩
  · split
    · exact .inl ⟨_, rfl, ⟨h.inRecovery, h.incoming, h.history⟩, rfl⟩
    · split
      · exact .inl ⟨s, rfl, h, rfl⟩
      · split
        · exact .inl ⟨s, rfl, h, rfl⟩
        · split
          · exact .inl ⟨_, rfl, ⟨h.inRecovery, h.incoming, h.history⟩, rfl⟩
          · next events next _ =>
            right
            refine ⟨_, rfl, events, ?_, ?_⟩
            · rw [h.incoming]
            · rw [h.history, List.append_assoc]
              rfl

theorem queueMessage_recovering (h : Recovering s us n) :
    (∃ t, queueMessage s isSnapshot m = .ok t ∧ Recovering t us n ∧
      t.incrementalInbound = s.incrementalInbound) ∨
    ∃ e, queueMessage s isSnapshot m = .error e ∧ Recovered us n e := by
  simp only [queueMessage]
  exact checkSnapshotSync_recovering ⟨h.inRecovery, h.incoming, h.history⟩

theorem receive_recovering (h : Recovering s us n) :
    (∃ t, receive isSnapshot s m = .ok t ∧ Recovering t us n ∧
      t.incrementalInbound = s.incrementalInbound) ∨
    ∃ e, receive isSnapshot s m = .error e ∧ Recovered us n e := by
  rw [receive, if_pos h.inRecovery]
  exact queueMessage_recovering h

theorem receive_next (h : Quiet s us) (hm : m.seqNum = (1 + us.length) % 2 ^ 64) :
    ∃ t, receive false s m = .ok t ∧ Quiet t (us ++ [m.meMarketUpdate]) ∧
      t.incrementalInbound = s.incrementalInbound := by
  have hnext := h.next
  rw [receive, if_neg (by rw [h.inRecovery]; decide), if_neg (by rw [hnext, hm]; simp),
    if_neg (by decide)]
  refine ⟨_, rfl, ?_, rfl⟩
  constructor
  · exact h.inRecovery
  · exact h.snapshotOpen
  · rw [h.incoming]
  · rw [h.history, List.map_append]
    rfl
  · change (s.nextExpIncSeqNum + 1) % 2 ^ 64 = _
    rw [hnext, Nat.mod_add_mod, List.length_append, List.length_singleton, Nat.add_assoc]

theorem receive_gap (h : Quiet s us) (hm : m.seqNum ≠ (1 + us.length) % 2 ^ 64) :
    (∃ t, receive false s m = .ok t ∧ Recovering t us m.seqNum ∧
      t.incrementalInbound = s.incrementalInbound) ∨
    ∃ e, receive false s m = .error e ∧ Recovered us m.seqNum e := by
  rw [receive, if_neg (by rw [h.inRecovery]; decide), if_pos (by rw [h.next]; exact hm)]
  apply queueMessage_recovering
  constructor
  · rfl
  · exact h.incoming
  · rw [h.history]

/-- The state after these messages of the incremental stream. -/
def Follows (s : MarketDataConsumer) (ms : List MDPMarketUpdate) : Prop :=
  match ms[inOrder 1 ms]? with
  | none => Quiet s (accepted 1 ms)
  | some m => Recovering s (accepted 1 ms) m.seqNum

/-- The first recovery, started among these messages, has ended. -/
def EndsAmong (ms : List MDPMarketUpdate) (e : DeadIterator) : Prop :=
  ∃ m, ms[inOrder 1 ms]? = some m ∧ Recovered (accepted 1 ms) m.seqNum e

theorem EndsAmong.append {ms ns : List MDPMarketUpdate} {e : DeadIterator}
    (h : EndsAmong ms e) : EndsAmong (ms ++ ns) e := by
  obtain ⟨m, hm, hr⟩ := h
  have hgap := accepted_append_of_gap (List.getElem?_eq_some_iff.mp hm).1 ns
  exact ⟨m, hgap.2.trans hm, hgap.1 ▸ hr⟩

theorem follows_receive {ms : List MDPMarketUpdate} (h : Follows s ms) :
    (∃ t, receive false s m = .ok t ∧ Follows t (ms ++ [m]) ∧
      t.incrementalInbound = s.incrementalInbound) ∨
    ∃ e, receive false s m = .error e ∧ EndsAmong (ms ++ [m]) e := by
  have hle : inOrder 1 ms ≤ ms.length := inOrder_le
  cases hgap : ms[inOrder 1 ms]? with
  | none =>
    have hall : inOrder 1 ms = ms.length :=
      Nat.le_antisymm hle (List.getElem?_eq_none_iff.mp hgap)
    rw [Follows, hgap] at h
    have hlen : (accepted 1 ms).length = ms.length := by
      rw [accepted_of_all hall, List.length_map]
    by_cases hm : m.seqNum = (1 + ms.length) % 2 ^ 64
    · have hsnoc := accepted_snoc_of_next (by decide) hall hm
      have hnone : (ms ++ [m])[inOrder 1 (ms ++ [m])]? = none := by
        rw [hsnoc, List.getElem?_eq_none_iff]
      obtain ⟨t, ht, hq, hin⟩ := receive_next h (by rw [hlen]; exact hm)
      left
      refine ⟨t, ht, ?_, hin⟩
      rw [Follows, hnone, accepted_of_all hsnoc, List.map_append]
      rw [accepted_of_all hall] at hq
      exact hq
    · have hsnoc := accepted_snoc_of_ne (by decide) hall hm
      have hsome : (ms ++ [m])[inOrder 1 (ms ++ [m])]? = some m := by
        rw [hsnoc, List.getElem?_concat_length]
      have hacc : accepted 1 (ms ++ [m]) = accepted 1 ms := by
        rw [accepted, hsnoc, List.take_left, accepted_of_all hall]
      rcases receive_gap h (by rw [hlen]; exact hm) with ⟨t, ht, hr, hin⟩ | ⟨e, he, hr⟩
      · left
        refine ⟨t, ht, ?_, hin⟩
        rw [Follows, hsome, hacc]
        exact hr
      · exact .inr ⟨e, he, m, hsome, hacc ▸ hr⟩
  | some m₀ =>
    rw [Follows, hgap] at h
    have hold := accepted_append_of_gap (List.getElem?_eq_some_iff.mp hgap).1 [m]
    rcases receive_recovering h with ⟨t, ht, hr, hin⟩ | ⟨e, he, hr⟩
    · left
      refine ⟨t, ht, ?_, hin⟩
      rw [Follows, hold.2, hgap, hold.1]
      exact hr
    · exact .inr ⟨e, he, m₀, hold.2.trans hgap, hold.1 ▸ hr⟩

end Messages

section Chunks
variable {s t : MarketDataConsumer} {us : List MEMarketUpdate} {n : ℕ} {bs : List UInt8}

theorem follows_run {ms : List MDPMarketUpdate} (h : Follows s ms) (ns : List MDPMarketUpdate) :
    (∃ t, FallibleRun.run (receive false) s ns = .ok t ∧ Follows t (ms ++ ns) ∧
      t.incrementalInbound = s.incrementalInbound) ∨
    ∃ e, FallibleRun.run (receive false) s ns = .error e ∧ EndsAmong (ms ++ ns) e := by
  induction ns generalizing s ms with
  | nil =>
    rw [List.append_nil]
    exact .inl ⟨s, rfl, h, rfl⟩
  | cons m ns ih =>
    have hms : ms ++ m :: ns = (ms ++ [m]) ++ ns := by rw [List.append_assoc]; rfl
    rw [hms]
    rcases follows_receive (m := m) h with ⟨t, ht, hf, hin⟩ | ⟨e, he, hend⟩
    · rw [run_cons_ok ht, ← hin]
      exact ih hf
    · exact .inr ⟨e, run_cons_error he, hend.append⟩

theorem recovering_run {isSnapshot : Bool} (h : Recovering s us n) (ns : List MDPMarketUpdate) :
    (∃ t, FallibleRun.run (receive isSnapshot) s ns = .ok t ∧ Recovering t us n ∧
      t.incrementalInbound = s.incrementalInbound) ∨
    ∃ e, FallibleRun.run (receive isSnapshot) s ns = .error e ∧ Recovered us n e := by
  apply run_progress (P := fun t => Recovering t us n ∧
    t.incrementalInbound = s.incrementalInbound) (G := fun _ _ => True) ⟨h, rfl⟩
    (meets_of_forall fun _ _ => trivial)
  intro u m hu _
  rcases receive_recovering hu.1 with ⟨t, ht, hr, hin⟩ | hend
  · exact .inl ⟨t, ht, hr, hin.trans hu.2⟩
  · exact .inr hend

/-- The messages in the bytes of the incremental stream so far. -/
def messages (bs : List UInt8) : List MDPMarketUpdate :=
  (frames MDPMarketUpdate.size bs).map .ofBytes

/-- The state after these bytes. -/
def Reached (s : MarketDataConsumer) (bs : List UInt8) : Prop :=
  s.incrementalInbound = rest MDPMarketUpdate.size bs ∧ Follows s (messages bs)

theorem messages_append (bs cs : List UInt8) :
    messages (bs ++ cs) =
      messages bs ++ messages (rest MDPMarketUpdate.size bs ++ cs) := by
  rw [messages, frames_append (by decide), List.map_append, messages, messages]

theorem Follows.congr {ms : List MDPMarketUpdate} (h : Follows s ms)
    (hrecovery : t.inRecovery = s.inRecovery) (hopen : t.snapshotOpen = s.snapshotOpen)
    (hincoming : t.incomingMdUpdates = s.incomingMdUpdates) (hhistory : t.history = s.history)
    (hnext : t.nextExpIncSeqNum = s.nextExpIncSeqNum) : Follows t ms := by
  rw [Follows] at h ⊢
  split at h
  · exact ⟨hrecovery.trans h.inRecovery, hopen.trans h.snapshotOpen,
      hincoming.trans h.incoming, hhistory.trans h.history, hnext.trans h.next⟩
  · exact ⟨hrecovery.trans h.inRecovery, hincoming.trans h.incoming,
      hhistory.trans h.history⟩

theorem recvCallback_eq {socket : Socket} (h : ¬(socket = .snapshot ∧ s.inRecovery = false)) :
    recvCallback s socket =
      (FallibleRun.run (receive (socket = .snapshot)) s (messages (s.inbound socket))).map
        fun t => t.setInbound socket (rest MDPMarketUpdate.size (s.inbound socket)) := by
  rw [recvCallback, if_neg h, messages]
  cases FallibleRun.run (receive (socket = .snapshot)) s
    ((frames MDPMarketUpdate.size (s.inbound socket)).map .ofBytes) with
  | error e => rfl
  | ok t => rfl

theorem reached_incremental (h : Reached s bs) (chunk : List UInt8) :
    (∃ t, sendAndRecv s (.incremental, chunk) = .ok t ∧ Reached t (bs ++ chunk)) ∨
    ∃ e, sendAndRecv s (.incremental, chunk) = .error e ∧ EndsAmong (messages (bs ++ chunk)) e := by
  by_cases hempty : chunk = []
  · rw [hempty, List.append_nil]
    exact .inl ⟨s, if_pos (.inl rfl), h⟩
  · set s₁ : MarketDataConsumer :=
      { s with incrementalInbound := rest MDPMarketUpdate.size bs ++ chunk } with hs₁
    have hrecv : sendAndRecv s (.incremental, chunk) = recvCallback s₁ .incremental := by
      rw [sendAndRecv, if_neg (by simp [hempty]), hs₁, ← h.1]
      rfl
    have hfollows : Follows s₁ (messages bs) := h.2.congr rfl rfl rfl rfl rfl
    rw [hrecv, recvCallback_eq (by simp), messages_append]
    rcases follows_run hfollows (messages (rest MDPMarketUpdate.size bs ++ chunk)) with
      ⟨t, ht, hf, -⟩ | ⟨e, he, hend⟩
    · left
      refine ⟨t.setInbound .incremental (rest MDPMarketUpdate.size (s₁.inbound .incremental)),
        congrArg _ ht, ?_, ?_⟩
      · exact (rest_append (by decide) bs chunk).symm
      · rw [messages_append]
        exact hf.congr rfl rfl rfl rfl rfl
    · exact .inr ⟨e, congrArg _ he, hend⟩

theorem reached_snapshot (h : Reached s bs) (chunk : List UInt8) :
    (∃ t, sendAndRecv s (.snapshot, chunk) = .ok t ∧ Reached t bs) ∨
    ∃ e, sendAndRecv s (.snapshot, chunk) = .error e ∧ EndsAmong (messages bs) e := by
  by_cases hignored : chunk = [] ∨ s.snapshotOpen = false
  · refine .inl ⟨s, if_pos ?_, h⟩
    exact hignored.imp id fun hopen => ⟨rfl, hopen⟩
  · rw [not_or] at hignored
    obtain ⟨hin, hfollows⟩ := h
    set s₁ : MarketDataConsumer :=
      { s with snapshotInbound := s.snapshotInbound ++ chunk } with hs₁
    have hrecv : sendAndRecv s (.snapshot, chunk) = recvCallback s₁ .snapshot := by
      rw [sendAndRecv, if_neg (by simp [hignored])]
      rfl
    have hfollows₁ := hfollows
    rw [Follows] at hfollows₁
    split at hfollows₁
    · exact (hignored.2 hfollows₁.snapshotOpen).elim
    · next m hm =>
      have hrecovering : Recovering s₁ (accepted 1 (messages bs)) m.seqNum :=
        ⟨hfollows₁.inRecovery, hfollows₁.incoming, hfollows₁.history⟩
      rw [hrecv, recvCallback_eq (by simp [hrecovering.inRecovery])]
      rcases recovering_run hrecovering (messages (s₁.inbound .snapshot)) with
        ⟨t, ht, hr, hin'⟩ | ⟨e, he, hend⟩
      · left
        refine ⟨t.setInbound .snapshot (rest MDPMarketUpdate.size (s₁.inbound .snapshot)),
          congrArg _ ht, hin'.trans hin, ?_⟩
        rw [Follows, hm]
        exact ⟨hr.inRecovery, hr.incoming, hr.history⟩
      · exact .inr ⟨e, congrArg _ he, m, hm, hend⟩

/-- The bytes of the incremental stream in a list of inputs. -/
def incrementalBytes (inputs : List (Socket × List UInt8)) : List UInt8 :=
  inputs.flatMap fun input => if input.1 = .incremental then input.2 else []

theorem EndsAmong.of_prefix {cs : List UInt8} {e : DeadIterator} (h : EndsAmong (messages bs) e)
    (hbegins : bs <+: cs) : EndsAmong (messages cs) e := by
  obtain ⟨ds, rfl⟩ := hbegins
  rw [messages_append]
  exact h.append

theorem run_reached (inputs : List (Socket × List UInt8)) :
    (∃ s, FallibleRun.run sendAndRecv {} inputs = .ok s ∧ Reached s (incrementalBytes inputs)) ∨
    ∃ e, FallibleRun.run sendAndRecv {} inputs = .error e ∧
      EndsAmong (messages (incrementalBytes inputs)) e := by
  apply run_progress_history (Q := fun done s => Reached s (incrementalBytes done))
    (G := fun _ _ => True) _ (meets_of_forall fun _ _ => trivial)
  · intro done input s hbegins hs _
    have hbytes : incrementalBytes (done ++ [input]) <+: incrementalBytes inputs := by
      obtain ⟨others, rfl⟩ := hbegins
      exact ⟨incrementalBytes others, List.flatMap_append.symm⟩
    have hsnoc : incrementalBytes (done ++ [input]) = incrementalBytes done ++
        if input.1 = .incremental then input.2 else [] := by
      rw [incrementalBytes, incrementalBytes, List.flatMap_append, List.flatMap_singleton]
    obtain ⟨socket, chunk⟩ := input
    cases socket with
    | incremental =>
      rw [if_pos rfl] at hsnoc
      rw [hsnoc] at hbytes ⊢
      rcases reached_incremental hs chunk with hok | ⟨e, he, hend⟩
      · exact .inl hok
      · exact .inr ⟨e, he, hend.of_prefix hbytes⟩
    | snapshot =>
      rw [if_neg (by simp), List.append_nil] at hsnoc
      rw [hsnoc] at hbytes ⊢
      rcases reached_snapshot hs chunk with hok | ⟨e, he, hend⟩
      · exact .inl hok
      · exact .inr ⟨e, he, hend.of_prefix hbytes⟩
  · constructor
    · rfl
    · exact ⟨rfl, rfl, rfl, rfl, rfl⟩

end Chunks

section Publisher
variable {us : List MEMarketUpdate} {ms received : List MDPMarketUpdate} {m : MDPMarketUpdate}
  {e n : ℕ}

theorem mem_numberFrom (hlen : n + us.length ≤ 2 ^ 64) (h : m ∈ numberFrom n us) :
    n ≤ m.seqNum ∧ m.seqNum < 2 ^ 64 ∧ us[m.seqNum - n]? = some m.meMarketUpdate := by
  induction us generalizing n with
  | nil => cases h
  | cons u us ih =>
    rw [List.length_cons] at hlen
    rcases List.mem_cons.mp h with rfl | h
    · refine ⟨Nat.le_refl n, by change n < 2 ^ 64; omega, ?_⟩
      rw [Nat.sub_self]
      rfl
    · have hpos : 0 < us.length := by
        cases us with
        | nil => cases h
        | cons v us => exact Nat.zero_lt_succ _
      have hwrap : (n + 1) % 2 ^ 64 = n + 1 := Nat.mod_eq_of_lt (by omega)
      rw [hwrap] at h
      obtain ⟨hle, hlt, hget⟩ := ih (by omega) h
      refine ⟨by omega, hlt, ?_⟩
      have hsub : m.seqNum - n = m.seqNum - (n + 1) + 1 := by omega
      rw [hsub, List.getElem?_cons_succ, hget]

/-- What arrives in order is what has been published, from the first number on. -/
theorem accepted_eq (hlen : us.length + 1 < 2 ^ 64) (h : ∀ m ∈ ms, m ∈ publish us)
    (he : 1 ≤ e) (hle : e ≤ us.length + 1) :
    accepted e ms = (us.drop (e - 1)).take (inOrder e ms) := by
  induction ms generalizing e with
  | nil => rw [accepted, List.take_nil, inOrder, List.take_zero, List.map_nil]
  | cons m ms ih =>
    rw [accepted, inOrder]
    split
    · next hm =>
      obtain ⟨-, -, hget⟩ := mem_numberFrom (by omega) (h m List.mem_cons_self)
      rw [hm] at hget
      obtain ⟨hlt, hu⟩ := List.getElem?_eq_some_iff.mp hget
      have hwrap : (e + 1) % 2 ^ 64 = e + 1 := Nat.mod_eq_of_lt (by omega)
      have hrest := ih (fun m' hm' => h m' (List.mem_cons_of_mem m hm')) (e := e + 1)
        (by omega) (by omega)
      have hdrop : us.drop (e - 1) = m.meMarketUpdate :: us.drop (e + 1 - 1) := by
        rw [List.drop_eq_getElem_cons hlt, hu, Nat.sub_add_cancel he, Nat.add_sub_cancel]
      rw [hwrap, List.take_succ_cons, List.map_cons, hdrop, List.take_succ_cons, ← hrest,
        accepted]
    · rw [List.take_zero, List.take_zero, List.map_nil]

theorem length_accepted : (accepted e ms).length = inOrder e ms := by
  rw [accepted, List.length_map, List.length_take, Nat.min_eq_left inOrder_le]

theorem seqNum_ne_of_gap (he : e < 2 ^ 64) (h : ms[inOrder e ms]? = some m) :
    m.seqNum ≠ (e + inOrder e ms) % 2 ^ 64 := by
  induction ms generalizing e with
  | nil => cases h
  | cons m' ms ih =>
    rw [inOrder] at h ⊢
    split at h
    · next hm =>
      rw [List.getElem?_cons_succ] at h
      have hrest := ih (Nat.mod_lt _ (by decide)) h
      rw [Nat.mod_add_mod] at hrest
      have hsum : e + 1 + inOrder ((e + 1) % 2 ^ 64) ms =
          e + (inOrder ((e + 1) % 2 ^ 64) ms + 1) := by omega
      rw [if_pos hm, ← hsum]
      exact hrest
    · next hm =>
      cases h
      rw [if_neg hm, Nat.add_zero, Nat.mod_eq_of_lt he]
      exact hm

theorem inOrder_numberFrom (n : ℕ) (us : List MEMarketUpdate) :
    inOrder n (numberFrom n us) = us.length := by
  induction us generalizing n with
  | nil => rfl
  | cons u us ih => rw [numberFrom, inOrder, if_pos rfl, ih, List.length_cons]

theorem messages_of_sent {bs : List UInt8}
    (hrange : ∀ m ∈ received, m.seqNum < 2 ^ 64 ∧ m.meMarketUpdate.InRange)
    (h : bs <+: received.flatMap MDPMarketUpdate.bytes) :
    messages bs = received.take (bs.length / MDPMarketUpdate.size) := by
  have hsize : ∀ x ∈ received.map MDPMarketUpdate.bytes, x.length = MDPMarketUpdate.size := by
    intro x hx
    obtain ⟨m, -, rfl⟩ := List.mem_map.mp hx
    exact m.length_bytes
  rw [messages, frames_prefix (by decide) _ hsize bs h, ← List.map_take, List.map_map]
  have hback : ∀ m ∈ received.take (bs.length / MDPMarketUpdate.size),
      (MDPMarketUpdate.ofBytes ∘ MDPMarketUpdate.bytes) m = m := by
    intro m hm
    have hm' := hrange m (List.mem_of_mem_take hm)
    exact MDPMarketUpdate.ofBytes_bytes hm'.1 hm'.2
  rw [List.map_congr_left hback, List.map_id']

theorem length_flatMap_bytes (ms : List MDPMarketUpdate) :
    (ms.flatMap MDPMarketUpdate.bytes).length = ms.length * MDPMarketUpdate.size := by
  induction ms with
  | nil => rw [List.flatMap_nil, List.length_nil, List.length_nil, Nat.zero_mul]
  | cons m ms ih =>
    rw [List.flatMap_cons, List.length_append, ih, m.length_bytes, List.length_cons, Nat.succ_mul,
      Nat.add_comm]

end Publisher

/-- The messages that have arrived completely are any published ones in any order. Before the
first one that is out of order its predecessors have been written as published, at it the
recovery starts, and nothing else is written before the recovery ends. A stream that arrives
as it was sent is delivered and starts no recovery. -/
theorem run_delivers (us : List MEMarketUpdate) (hlen : us.length + 1 < 2 ^ 64)
    (hrange : ∀ u ∈ us, u.InRange) (received : List MDPMarketUpdate)
    (hreceived : ∀ m ∈ received, m ∈ publish us) (inputs : List (Socket × List UInt8))
    (hbytes : incrementalBytes inputs <+: received.flatMap MDPMarketUpdate.bytes) :
    let arrived := received.take ((incrementalBytes inputs).length / MDPMarketUpdate.size)
    let k := inOrder 1 arrived
    (match arrived[k]? with
      | none => ∃ s, FallibleRun.run sendAndRecv {} inputs = .ok s ∧
          s.incomingMdUpdates = us.take k ∧ s.nextExpIncSeqNum = k + 1 ∧ s.inRecovery = false ∧
          s.history = (us.take k).map .wrote
      | some m => m.seqNum ≠ k + 1 ∧
          ((∃ s, FallibleRun.run sendAndRecv {} inputs = .ok s ∧
            s.incomingMdUpdates = us.take k ∧ s.inRecovery = true ∧
            s.history = (us.take k).map .wrote ++ [.started m.seqNum]) ∨
          ∃ s events, FallibleRun.run sendAndRecv {} inputs = .error (.deadIterator s) ∧
            s.incomingMdUpdates = us.take k ++ events ∧
            s.history = (us.take k).map .wrote ++ [.started m.seqNum, .ended events])) ∧
    (incrementalBytes inputs = (MarketDataPublisher.run us).outbound →
      ∃ s, FallibleRun.run sendAndRecv {} inputs = .ok s ∧ s.incomingMdUpdates = us ∧
        s.inRecovery = false ∧ s.history = us.map .wrote) := by
  intro arrived k
  have hpublished : ∀ m ∈ publish us, m.seqNum < 2 ^ 64 ∧ m.meMarketUpdate.InRange := by
    intro m hm
    obtain ⟨-, hlt, hget⟩ := mem_numberFrom (by omega) hm
    exact ⟨hlt, hrange _ (List.mem_of_getElem? hget)⟩
  have hrun := run_reached inputs
  constructor
  · have harrived : ∀ m ∈ arrived, m ∈ publish us := fun m hm =>
      hreceived m (List.mem_of_mem_take hm)
    have haccepted : accepted 1 arrived = us.take k := by
      rw [accepted_eq hlen harrived (Nat.le_refl 1) (by omega), Nat.sub_self, List.drop_zero]
    have hk : k ≤ us.length := by
      have hlength : (accepted 1 arrived).length = inOrder 1 arrived := length_accepted
      rw [haccepted, List.length_take] at hlength
      omega
    have hwrap : (1 + k) % 2 ^ 64 = k + 1 := by omega
    have hmessages : messages (incrementalBytes inputs) = arrived :=
      messages_of_sent (fun m hm => hpublished m (hreceived m hm)) hbytes
    cases hgap : arrived[k]? with
    | none =>
      rcases hrun with ⟨s, hs, -, hf⟩ | ⟨e, -, m, hm, -⟩
      · rw [hmessages, Follows, hgap, haccepted] at hf
        refine ⟨s, hs, hf.incoming, ?_, hf.inRecovery, hf.history⟩
        rw [hf.next, List.length_take, Nat.min_eq_left hk, hwrap]
      · rw [hmessages, hgap] at hm
        cases hm
    | some m =>
      constructor
      · rw [← hwrap]
        exact seqNum_ne_of_gap (by decide) hgap
      · rcases hrun with ⟨s, hs, -, hf⟩ | ⟨⟨s⟩, hs, m', hm', events, hincoming, hhistory⟩
        · rw [hmessages, Follows, hgap, haccepted] at hf
          exact .inl ⟨s, hs, hf.incoming, hf.inRecovery, hf.history⟩
        · rw [hmessages] at hm' hincoming hhistory
          rw [hgap] at hm'
          cases hm'
          rw [haccepted] at hincoming hhistory
          exact .inr ⟨s, events, hs, hincoming, hhistory⟩
  · intro hall
    rw [MarketDataPublisher.run_outbound] at hall
    have hmessages : messages (incrementalBytes inputs) = publish us := by
      rw [messages_of_sent hpublished (hall ▸ List.prefix_refl _), hall, length_flatMap_bytes,
        Nat.mul_div_cancel _ (by decide), List.take_length]
    have horder : inOrder 1 (publish us) = (publish us).length := by
      rw [publish, inOrder_numberFrom, length_numberFrom]
    have hnone : (publish us)[inOrder 1 (publish us)]? = none := by
      rw [horder, List.getElem?_eq_none_iff]
    rcases hrun with ⟨s, hs, -, hf⟩ | ⟨e, -, m, hm, -⟩
    · rw [hmessages, Follows, hnone, accepted_of_all horder, publish, map_numberFrom] at hf
      exact ⟨s, hs, hf.incoming, hf.inRecovery, hf.history⟩
    · rw [hmessages, hnone] at hm
      cases hm

/-- Two updates, cut within the second one, with bytes of the snapshot stream in between. -/
theorem run_delivers_two_updates :
    ∃ s, FallibleRun.run sendAndRecv {}
      [(.incremental, (MarketDataPublisher.run [{ type := .add }, { type := .clear }]).outbound.take
          50), (.snapshot, [1, 2, 3]),
        (.incremental, (MarketDataPublisher.run [{ type := .add }, { type := .clear }]).outbound.drop
          50)] = .ok s ∧
      s.incomingMdUpdates = [{ type := .add }, { type := .clear }] ∧ s.inRecovery = false := by
  have hall : incrementalBytes
      [(.incremental, (MarketDataPublisher.run [{ type := .add }, { type := .clear }]).outbound.take
          50), (.snapshot, [1, 2, 3]),
        (.incremental, (MarketDataPublisher.run [{ type := .add }, { type := .clear }]).outbound.drop
          50)] = (MarketDataPublisher.run [{ type := .add }, { type := .clear }]).outbound := by
    decide
  have hrange : ∀ u, u = { type := .add } ∨ u = { type := .clear } → MEMarketUpdate.InRange u := by
    rintro u (rfl | rfl) <;> constructor <;> decide
  have hbytes := MarketDataPublisher.run_outbound [{ type := .add }, { type := .clear }]
  obtain ⟨s, hs, hincoming, hrecovery, -⟩ :=
    (run_delivers [{ type := .add }, { type := .clear }] (by decide)
      (fun u hu => hrange u (by simpa using hu)) (publish [{ type := .add }, { type := .clear }])
      (fun _ hm => hm) _ ⟨[], (List.append_nil _).trans (hall.trans hbytes)⟩).2 hall
  exact ⟨s, hs, hincoming, hrecovery⟩

/-- The second of three messages is lost. -/
example : (FallibleRun.run sendAndRecv {}
    [(.incremental, (publish [{ type := .clear }, { type := .add }, { type := .cancel }]).flatMap
      fun m => if m.seqNum = 2 then [] else m.bytes)]).map (·.history) =
    .ok [.wrote { type := .clear }, .started 3] := by decide

end HighPerformance.MarketDataConsumer
