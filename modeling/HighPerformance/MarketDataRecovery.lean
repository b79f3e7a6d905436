import HighPerformance.MarketDataDelivery

/-!
# What ends a recovery

The messages arrive one by one on the two sockets, in any order, with any losses
and copies. A recovery should end with one complete snapshot and the
incrementals behind it; until then nothing should be written.

The incrementals are queued as snapshot messages, and the loop of
`checkSnapshotSync` comes to its end with its first message, which is the
`SNAPSHOT_START`. So the call that ends a recovery writes nothing, and then steps
over the map that it has cleared. A recovery that does not end writes nothing
either.
-/

namespace HighPerformance

namespace MarketDataConsumer
open FallibleRun

/-- `recvCallback` for one message in the buffer of a socket. -/
def recvMessage (s : MarketDataConsumer) (x : Socket × MDPMarketUpdate) :
    Except DeadIterator MarketDataConsumer :=
  if x.1 = .snapshot ∧ s.inRecovery = false then .ok s else receive (x.1 = .snapshot) s x.2

/-- The messages queued for a recovery, in order of arrival, beside the consumer. -/
structure Recovery where
  consumer : MarketDataConsumer := {}
  queued : List (Socket × MDPMarketUpdate) := []

namespace Recovery

def queuedWith (r : Recovery) (x : Socket × MDPMarketUpdate) : List (Socket × MDPMarketUpdate) :=
  if r.consumer.inRecovery then r.queued ++ [x] else [x]

def step (r : Recovery) (x : Socket × MDPMarketUpdate) : Except DeadIterator Recovery :=
  (r.consumer.recvMessage x).map fun s => ⟨s, r.queuedWith x⟩

end Recovery

/-- A snapshot without a gap among the queued messages. -/
structure CompleteSnapshot (queued : List (Socket × MDPMarketUpdate)) (snap : List MDPMarketUpdate)
    (orderId : ℕ) : Prop where
  received : ∀ m ∈ snap, (.snapshot, m) ∈ queued
  seqNums : snap.map (·.seqNum) = List.range snap.length
  first : ∃ m, snap.head? = some m ∧ m.meMarketUpdate.type = .snapshotStart
  last : ∃ m, snap.getLast? = some m ∧ m.meMarketUpdate.type = .snapshotEnd ∧
    m.meMarketUpdate.orderId = orderId

/-- All queued incrementals from number `next` on, without a gap. -/
structure CompleteIncrementals (queued : List (Socket × MDPMarketUpdate)) (next : ℕ)
    (incs : List MDPMarketUpdate) : Prop where
  received : ∀ m ∈ incs, (.incremental, m) ∈ queued
  seqNums : incs.map (·.seqNum) = List.range' next incs.length
  all : ∀ m, (.incremental, m) ∈ queued → m.seqNum < next + incs.length

/-- The recovery that leads from `s` to `t` has delivered a complete snapshot and
the incrementals behind it. -/
def EndsExactly (queued : List (Socket × MDPMarketUpdate)) (s t : MarketDataConsumer) : Prop :=
  ∃ snap orderId incs, CompleteSnapshot queued snap orderId ∧
    CompleteIncrementals queued (orderId + 1) incs ∧
    t.incomingMdUpdates = s.incomingMdUpdates ++
      (snap.map (·.meMarketUpdate)).filter (fun u => ¬IsSnapshotMark u) ++
        incs.map (·.meMarketUpdate) ∧
    t.nextExpIncSeqNum = orderId + 1 + incs.length

/-- A message is handled rightly: the call returns, it writes nothing when the
consumer is in recovery afterwards, and it leaves a recovery only with the right
events. -/
def Exact (r : Recovery) (x : Socket × MDPMarketUpdate) : Prop :=
  ∃ t, r.consumer.recvMessage x = .ok t ∧
    (t.inRecovery = true → t.incomingMdUpdates = r.consumer.incomingMdUpdates) ∧
    (r.consumer.inRecovery = true → t.inRecovery = false →
      EndsExactly (r.queuedWith x) r.consumer t)

/-- `snapshot_queued_msgs_` with the message in it. -/
def queueWith (s : MarketDataConsumer) (x : Socket × MDPMarketUpdate) : List (ℕ × MEMarketUpdate) :=
  let queue := if s.inRecovery then s.snapshotQueuedMsgs else []
  insert x.2.seqNum x.2.meMarketUpdate
    (if x.1 = .snapshot ∧ x.2.seqNum ∈ queue.map Prod.fst then [] else queue)

/-- The message is queued, and the queue then begins with a `SNAPSHOT_START`
numbered 0 and ends with a `SNAPSHOT_END`. -/
def Completes (s : MarketDataConsumer) (x : Socket × MDPMarketUpdate) : Prop :=
  (s.inRecovery = true ∨ x.1 = .incremental ∧ x.2.seqNum ≠ s.nextExpIncSeqNum) ∧
    (∃ u, (queueWith s x).head? = some (0, u) ∧ u.type = .snapshotStart) ∧
    ∃ k u, (queueWith s x).getLast? = some (k, u) ∧ u.type = .snapshotEnd

section Messages
variable {s t : MarketDataConsumer} {x : Socket × MDPMarketUpdate}

/-- Without queued incrementals the check depends on the ends of the queue only. -/
theorem checkSnapshotSync_cases (hincs : s.incrementalQueuedMsgs = [])
    (hrec : s.inRecovery = true) :
    ((∃ u, s.snapshotQueuedMsgs.head? = some (0, u) ∧ u.type = .snapshotStart) ∧
        (∃ k u, s.snapshotQueuedMsgs.getLast? = some (k, u) ∧ u.type = .snapshotEnd) ∧
        ∃ t, checkSnapshotSync s = .error (.deadIterator t) ∧ t.inRecovery = false ∧
          t.incomingMdUpdates = s.incomingMdUpdates) ∨
      (¬((∃ u, s.snapshotQueuedMsgs.head? = some (0, u) ∧ u.type = .snapshotStart) ∧
          ∃ k u, s.snapshotQueuedMsgs.getLast? = some (k, u) ∧ u.type = .snapshotEnd) ∧
        ∃ t, checkSnapshotSync s = .ok t ∧ t.inRecovery = true ∧
          t.incomingMdUpdates = s.incomingMdUpdates ∧ t.incrementalQueuedMsgs = []) := by
  unfold checkSnapshotSync
  split
  · next hq => exact .inr ⟨by simp [hq], s, rfl, hrec, rfl, hincs⟩
  · next k first rest hq =>
    split
    · next hstart =>
      exact .inr ⟨by simp [hq, hstart], _, rfl, hrec, rfl, hincs⟩
    · next hstart =>
      split
      · next hk => exact .inr ⟨by simp [hq, hk], s, rfl, hrec, rfl, hincs⟩
      · next hk =>
        have hlast : s.snapshotQueuedMsgs.getLast? =
            some (((k, first) :: rest).getLast (by simp)) := by
          rw [hq, List.getLast?_eq_some_getLast]
        simp only
        split
        · next hend =>
          refine .inr ⟨?_, s, rfl, hrec, rfl, hincs⟩
          rintro ⟨-, j, u, hj, hu⟩
          rw [hlast, Option.some.injEq] at hj
          rw [hj] at hend
          exact hend hu
        · next hend =>
          left
          refine ⟨⟨first, ?_, not_not.mp hstart⟩, ⟨_, _, hlast, not_not.mp hend⟩, ?_⟩
          · rw [hq, List.head?_cons, not_not.mp hk]
          · rw [hincs]
            exact ⟨_, rfl, rfl, List.append_nil _⟩

theorem queueWith_of_recovering (hrec : s.inRecovery = true) : queueWith s x =
    insert x.2.seqNum x.2.meMarketUpdate (if decide (x.1 = .snapshot) = true ∧
      x.2.seqNum ∈ s.snapshotQueuedMsgs.map Prod.fst then [] else s.snapshotQueuedMsgs) := by
  simp only [queueWith, if_pos hrec, decide_eq_true_eq]

/-- A message either ends a recovery with nothing written, and then the walk
over the map goes on, or is handled without an end. -/
theorem recvMessage_cases (hincs : s.incrementalQueuedMsgs = []) :
    (Completes s x ∧ ∃ t, recvMessage s x = .error (.deadIterator t) ∧ t.inRecovery = false ∧
        t.incomingMdUpdates = s.incomingMdUpdates) ∨
      (¬Completes s x ∧ ∃ t, recvMessage s x = .ok t ∧ t.incrementalQueuedMsgs = [] ∧
        (t.inRecovery = true → t.incomingMdUpdates = s.incomingMdUpdates) ∧
        (s.inRecovery = true → t.inRecovery = true)) := by
  obtain ⟨socket, m⟩ := x
  by_cases hrec : s.inRecovery = true
  · have hcall : recvMessage s (socket, m) =
        checkSnapshotSync { s with snapshotQueuedMsgs := queueWith s (socket, m) } := by
      rw [queueWith_of_recovering hrec, recvMessage, if_neg fun hc => by simp [hrec] at hc,
        receive, if_pos hrec]
      rfl
    rcases checkSnapshotSync_cases
      (s := { s with snapshotQueuedMsgs := queueWith s (socket, m) }) hincs hrec with
      ⟨hfirst, hlast, t, ht, hend, hin⟩ | ⟨hno, t, ht, hstay, hin, hempty⟩
    · exact .inl ⟨⟨.inl hrec, hfirst, hlast⟩, t, hcall.trans ht, hend, hin⟩
    · exact .inr ⟨fun hc => hno hc.2, t, hcall.trans ht, hempty, fun _ => hin, fun _ => hstay⟩
  · have hquiet : s.inRecovery = false := by simpa using hrec
    cases socket with
    | snapshot =>
      right
      refine ⟨fun hc => ?_, s, if_pos ⟨rfl, hquiet⟩, hincs, fun _ => rfl, fun h => h⟩
      rcases hc.1 with h | ⟨h, -⟩
      · exact hrec h
      · cases h
    | incremental =>
      by_cases hnext : m.seqNum = s.nextExpIncSeqNum
      · right
        have hcall : recvMessage s (.incremental, m) = .ok { s with
            nextExpIncSeqNum := (s.nextExpIncSeqNum + 1) % 2 ^ 64
            incomingMdUpdates := s.incomingMdUpdates ++ [m.meMarketUpdate]
            history := s.history ++ [.wrote m.meMarketUpdate] } := by
          simp [recvMessage, receive, hrec, hnext]
        refine ⟨fun hc => ?_, _, hcall, hincs, fun h => ?_, fun h => h⟩
        · rcases hc.1 with h | ⟨-, h⟩
          · exact hrec h
          · exact h hnext
        · exact (hrec h).elim
      · have hcall : recvMessage s (.incremental, m) = checkSnapshotSync
            { startSnapshotSync s with
              inRecovery := true, history := s.history ++ [.started m.seqNum]
              snapshotQueuedMsgs := queueWith s (.incremental, m) } := by
          simp [recvMessage, receive, queueMessage, queueWith, startSnapshotSync, hrec, hnext]
        rcases checkSnapshotSync_cases
          (s := { startSnapshotSync s with
            inRecovery := true, history := s.history ++ [.started m.seqNum]
            snapshotQueuedMsgs := queueWith s (.incremental, m) }) rfl rfl with
          ⟨hfirst, hlast, t, ht, hend, hin⟩ | ⟨hno, t, ht, hstay, hin, hempty⟩
        · exact .inl ⟨⟨.inr ⟨rfl, hnext⟩, hfirst, hlast⟩, t, hcall.trans ht, hend, hin⟩
        · exact .inr ⟨fun hc => hno hc.2, t, hcall.trans ht, hempty, fun _ => hin, fun _ => hstay⟩

theorem checkSnapshotSync_inRecovery (hok : checkSnapshotSync s = .ok t) :
    t.inRecovery = s.inRecovery := by
  unfold checkSnapshotSync at hok
  split at hok
  · cases hok
    rfl
  · split at hok
    · cases hok
      rfl
    · split at hok
      · cases hok
        rfl
      · simp only at hok
        split at hok
        · cases hok
          rfl
        · split at hok
          · cases hok
            rfl
          · cases hok

theorem run_recvMessage {socket : Socket} (ms : List MDPMarketUpdate)
    (h : ¬(socket = .snapshot ∧ s.inRecovery = false)) :
    run recvMessage s (ms.map fun m => (socket, m)) = run (receive (socket = .snapshot)) s ms := by
  induction ms generalizing s with
  | nil => rfl
  | cons m ms ih =>
    have hcall : recvMessage s (socket, m) = receive (socket = .snapshot) s m := if_neg h
    rw [List.map_cons]
    cases hok : receive (socket = .snapshot) s m with
    | error e => rw [run_cons_error (hcall.trans hok), run_cons_error hok]
    | ok t =>
      rw [run_cons_ok (hcall.trans hok), run_cons_ok hok]
      apply ih
      rintro ⟨hsnap, hquiet⟩
      have hrec : s.inRecovery = true := by simpa [hsnap] using h
      rw [receive, if_pos hrec, queueMessage] at hok
      have hsame := checkSnapshotSync_inRecovery hok
      have hend : s.inRecovery = false := hsame.symm.trans hquiet
      rw [hrec] at hend
      cases hend

theorem recvCallback_messages {socket : Socket} (h : ¬(socket = .snapshot ∧ s.inRecovery = false)) :
    recvCallback s socket =
      (run recvMessage s ((messages (s.inbound socket)).map fun m => (socket, m))).map
        fun t => t.setInbound socket (Framing.rest MDPMarketUpdate.size (s.inbound socket)) := by
  rw [recvCallback_eq h, run_recvMessage _ h]

theorem exact_iff {r : Recovery} (hincs : r.consumer.incrementalQueuedMsgs = []) :
    Exact r x ↔ ¬Completes r.consumer x := by
  rcases recvMessage_cases (x := x) hincs with ⟨hc, t, ht, -⟩ | ⟨hc, t, ht, -, hin, hstay⟩
  · constructor
    · rintro ⟨u, hu, -⟩
      rw [ht] at hu
      cases hu
    · exact fun h => (h hc).elim
  · constructor
    · exact fun _ => hc
    · intro _
      refine ⟨t, ht, hin, fun hr hend => ?_⟩
      rw [hstay hr] at hend
      cases hend

end Messages

section Runs

/-- Whatever messages arrive, every one of them is handled rightly exactly when
none of them ends a recovery; and one that does has written nothing. -/
theorem run_exact_iff (xs : List (Socket × MDPMarketUpdate)) :
    ((∀ done x, done ++ [x] <+: xs → ∀ r, run Recovery.step {} done = .ok r → Exact r x) ↔
      Meets Recovery.step (fun r x => ¬Completes r.consumer x) {} xs) ∧
    ∀ done x r, run Recovery.step {} done = .ok r → Completes r.consumer x →
      ∃ t, r.consumer.recvMessage x = .error (.deadIterator t) ∧ t.inRecovery = false ∧
        t.incomingMdUpdates = r.consumer.incomingMdUpdates := by
  have hstep : ∀ (r : Recovery) x r', r.consumer.incrementalQueuedMsgs = [] →
      Recovery.step r x = .ok r' → r'.consumer.incrementalQueuedMsgs = [] := by
    intro r x r' hincs hok
    rcases recvMessage_cases (x := x) hincs with ⟨-, t, ht, -⟩ | ⟨-, t, ht, hempty, -⟩
    · rw [Recovery.step, ht] at hok
      cases hok
    · rw [Recovery.step, ht] at hok
      cases hok
      exact hempty
  constructor
  · have halong : Along (fun (_ : Unit) (_ : Socket × MDPMarketUpdate) => ()) (fun _ _ => True)
        () xs := by
      induction xs with
      | nil => trivial
      | cons x xs ih => exact ⟨trivial, ih⟩
    apply forall_step_iff_meets (I := fun r _ => r.consumer.incrementalQueuedMsgs = [])
      (O := fun r _ x => Exact r x) rfl halong
    · exact fun r _ x hincs _ => ⟨exact_iff hincs, fun _ r' hok => hstep r x r' hincs hok⟩
  · intro done x r hrun hc
    have hincs : r.consumer.incrementalQueuedMsgs = [] :=
      run_invariant (P := fun r : Recovery => r.consumer.incrementalQueuedMsgs = []) rfl
        (meets_of_forall (G := fun _ _ => True) fun _ _ => trivial)
        (fun s i t h _ hok => hstep s i t h hok) hrun
    rcases recvMessage_cases (x := x) hincs with ⟨-, ht⟩ | ⟨hno, -⟩
    · exact ht
    · exact (hno hc).elim

/-- A gap, and then a complete snapshot with one order: the recovery ends with
nothing written. -/
theorem complete_snapshot_is_lost :
    (∃ t, run Recovery.step {} [(.incremental, ⟨2, { type := .clear }⟩),
        (.snapshot, ⟨0, { type := .snapshotStart, orderId := 2 }⟩),
        (.snapshot, ⟨1, { type := .add, orderId := 1 }⟩),
        (.snapshot, ⟨2, { type := .snapshotEnd, orderId := 2 }⟩)] = .error (.deadIterator t) ∧
      t.inRecovery = false ∧ t.incomingMdUpdates = []) ∧
    ¬∀ done x, done ++ [x] <+: [(.incremental, ⟨2, { type := .clear }⟩),
        (.snapshot, ⟨0, { type := .snapshotStart, orderId := 2 }⟩),
        (.snapshot, ⟨1, { type := .add, orderId := 1 }⟩),
        (.snapshot, ⟨2, { type := .snapshotEnd, orderId := 2 }⟩)] →
      ∀ r, run Recovery.step {} done = .ok r → Exact r x := by
  constructor
  · exact ⟨_, rfl, rfl, rfl⟩
  · intro hall
    obtain ⟨t, ht, -⟩ := hall [(.incremental, ⟨2, { type := .clear }⟩),
      (.snapshot, ⟨0, { type := .snapshotStart, orderId := 2 }⟩),
      (.snapshot, ⟨1, { type := .add, orderId := 1 }⟩)] _ List.prefix_rfl _ rfl
    cases ht

end Runs

end MarketDataConsumer

end HighPerformance
