import HighPerformance.FallibleRun
import HighPerformance.Messages
import HighPerformance.SortedByKey
import Mathlib.Algebra.Order.Group.Int

/-!
# The order of the requests

`FIFOSequencer` collects the requests of one round of receives and hands them to
the matching engine sorted by their receive times. All requests of one chunk have
one receive time, and `std::sort` promises nothing about the order of requests
with equal times: `sort` below is any function that keeps its promise.
-/

namespace HighPerformance
open FallibleRun SortedByKey

def meMaxPendingRequests : ℕ := 1024

/-- Compared by the receive time alone. -/
structure RecvTimeClientRequest where
  recvTime : ℤ := 0
  request : MEClientRequest
  deriving DecidableEq

/-- The valid part of `pending_client_requests_`, and what is in the queue. -/
structure FIFOSequencer where
  pendingClientRequests : List RecvTimeClientRequest := []
  incomingRequests : List MEClientRequest := []
  deriving DecidableEq

namespace FIFOSequencer

def tooManyPending : Fault := .fatal "Too many pending requests"

def addClientRequest (f : FIFOSequencer) (r : RecvTimeClientRequest) : Except Fault FIFOSequencer :=
  if f.pendingClientRequests.length ≥ meMaxPendingRequests then .error tooManyPending
  else .ok { f with pendingClientRequests := f.pendingClientRequests ++ [r] }

def sequenceAndPulish (sort : List RecvTimeClientRequest → List RecvTimeClientRequest)
    (f : FIFOSequencer) : FIFOSequencer :=
  if f.pendingClientRequests = [] then f
  else
    { pendingClientRequests := []
      incomingRequests := f.incomingRequests ++
        (sort f.pendingClientRequests).map (·.request) }

/-- What is published is the batch in the order of the receive times, requests with one time
in the order in which they were added, and so each client's requests in their order. -/
structure Fair (batch : List RecvTimeClientRequest) (published : List MEClientRequest) : Prop where
  ordered : ∃ ys, StableOutcome (·.recvTime) batch ys ∧ published = ys.map (·.request)
  client : ∀ c, ((batch.filter fun r => r.request.clientId = c).Pairwise fun r r' =>
    r.recvTime ≤ r'.recvTime) →
      (published.filter fun r => r.clientId = c) =
        (batch.filter fun r => r.request.clientId = c).map (·.request)

section Batches
variable {batch : List RecvTimeClientRequest} {published queue : List MEClientRequest}
  {sort : List RecvTimeClientRequest → List RecvTimeClientRequest} {f : FIFOSequencer}

theorem run_addClientRequest (hlen : f.pendingClientRequests.length + batch.length ≤
      meMaxPendingRequests) :
    run addClientRequest f batch =
      .ok { f with pendingClientRequests := f.pendingClientRequests ++ batch } := by
  induction batch generalizing f with
  | nil => rw [run_nil, List.append_nil]
  | cons r batch ih =>
    rw [List.length_cons] at hlen
    have hadd : addClientRequest f r =
        .ok { f with pendingClientRequests := f.pendingClientRequests ++ [r] } :=
      if_neg (by omega)
    rw [run_cons_ok hadd, ih]
    · simp only [List.append_assoc, List.singleton_append]
    · simp only [List.length_append, List.length_singleton]
      omega

theorem sequenceAndPulish_eq (hsort : sort [] = []) :
    sequenceAndPulish sort f =
      { pendingClientRequests := []
        incomingRequests := f.incomingRequests ++
          (sort f.pendingClientRequests).map (·.request) } := by
  unfold sequenceAndPulish
  split
  · next hnil =>
    rw [hnil, hsort, List.map_nil, List.append_nil, ← hnil]
  · rfl

theorem fair_iff : Fair batch published ↔
    published = (stable (·.recvTime) batch).map (·.request) := by
  constructor
  · intro h
    obtain ⟨ys, hys, rfl⟩ := h.ordered
    rw [hys.eq_stable]
  · rintro rfl
    constructor
    · exact ⟨_, stable_outcome _ batch, rfl⟩
    · intro c hc
      rw [List.filter_map]
      exact congrArg _ (stable_filter hc)

/-- What a call of `sequenceAndPulish` after these calls of `addClientRequest` does. -/
def PublishesFairly (sort : List RecvTimeClientRequest → List RecvTimeClientRequest)
    (queue : List MEClientRequest) (batch : List RecvTimeClientRequest) : Prop :=
  ∃ f published, run addClientRequest { incomingRequests := queue } batch = .ok f ∧
    sequenceAndPulish sort f =
      { pendingClientRequests := [], incomingRequests := queue ++ published } ∧
    Fair batch published

theorem publishesFairly_iff (hlen : batch.length ≤ meMaxPendingRequests) (hsort : sort [] = []) :
    PublishesFairly sort queue batch ↔
      (sort batch).map (·.request) = (stable (·.recvTime) batch).map (·.request) := by
  have hrun : run addClientRequest { incomingRequests := queue } batch =
      .ok { pendingClientRequests := [] ++ batch, incomingRequests := queue } :=
    run_addClientRequest (by simpa using hlen)
  constructor
  · rintro ⟨f, published, hf, hpublish, hfair⟩
    rw [hrun] at hf
    cases hf
    rw [sequenceAndPulish_eq hsort, mk.injEq] at hpublish
    rw [← fair_iff.mp hfair]
    exact List.append_cancel_left hpublish.2
  · intro hequal
    refine ⟨_, _, hrun, sequenceAndPulish_eq hsort, ?_⟩
    rw [fair_iff]
    exact hequal

/-- A sort that turns two requests with one time round. -/
theorem exists_unfair_sort (hlen : batch.length ≤ meMaxPendingRequests)
    {r r' : RecvTimeClientRequest} (hr : r ∈ batch) (hr' : r' ∈ batch)
    (htime : r.recvTime = r'.recvTime) (hne : r.request ≠ r'.request) :
    ∃ sort, (∀ xs, SortOutcome RecvTimeClientRequest.recvTime xs (sort xs)) ∧
      ¬PublishesFairly sort queue batch := by
  obtain ⟨ys, hys, hother⟩ := exists_outcome_ne (·.request) hr hr' htime hne
  let sort : List RecvTimeClientRequest → List RecvTimeClientRequest := fun xs =>
    if xs = batch then ys else stable (·.recvTime) xs
  have hsort : ∀ xs, SortOutcome RecvTimeClientRequest.recvTime xs (sort xs) := by
    intro xs
    by_cases hxs : xs = batch
    · simp only [sort, if_pos hxs]
      rw [hxs]
      exact hys
    · simp only [sort, if_neg hxs]
      exact (stable_outcome _ xs).toSortOutcome
  refine ⟨sort, hsort, fun hfair => hother ?_⟩
  have hequal := (publishesFairly_iff hlen (hsort []).perm.eq_nil).mp hfair
  simpa only [sort, if_true] using hequal

end Batches

/-- A batch is published fairly by every sort that keeps its promise exactly when requests with
one receive time are equal. Nothing is pending afterwards in any case. -/
theorem sequenceAndPulish_fair_iff (batch : List RecvTimeClientRequest)
    (hlen : batch.length ≤ meMaxPendingRequests) (queue : List MEClientRequest) :
    (∀ sort, (∀ xs, SortOutcome RecvTimeClientRequest.recvTime xs (sort xs)) →
      PublishesFairly sort queue batch) ↔
      ∀ r ∈ batch, ∀ r' ∈ batch, r.recvTime = r'.recvTime → r.request = r'.request := by
  constructor
  · intro hall r hr r' hr' htime
    by_contra hne
    obtain ⟨sort, hsort, hunfair⟩ := exists_unfair_sort hlen hr hr' htime hne
    exact hunfair (hall sort hsort)
  · intro hties sort hsort
    have hequal : ∀ r ∈ batch, ∀ r' ∈ batch, r.recvTime = r'.recvTime → r = r' := by
      intro r hr r' hr' htime
      have hrequest := hties r hr r' hr' htime
      cases r
      cases r'
      cases htime
      cases hrequest
      rfl
    rw [publishesFairly_iff hlen (hsort []).perm.eq_nil, (hsort batch).stable hequal]

/-- Two requests received one after the other. -/
theorem sequenceAndPulish_fair_two : 2 ≤ meMaxPendingRequests ∧
    ∀ sort, (∀ xs, SortOutcome RecvTimeClientRequest.recvTime xs (sort xs)) →
      PublishesFairly sort []
        [⟨8, { type := .new, clientId := 1 }⟩, ⟨5, { type := .new, clientId := 2 }⟩] := by
  refine ⟨by decide, (sequenceAndPulish_fair_iff [⟨8, { type := .new, clientId := 1 }⟩,
    ⟨5, { type := .new, clientId := 2 }⟩] (by decide) []).mpr ?_⟩
  decide

/-- An order and its cancellation in one chunk may leave the other way round. -/
theorem cancel_overtakes_new :
    ¬∀ sort, (∀ xs, SortOutcome RecvTimeClientRequest.recvTime xs (sort xs)) →
      PublishesFairly sort []
        [⟨8, { type := .new, orderId := 1 }⟩, ⟨8, { type := .cancel, orderId := 1 }⟩] := by
  intro hall
  have hother : ∃ sort, (∀ xs, SortOutcome RecvTimeClientRequest.recvTime xs (sort xs)) ∧
      ¬PublishesFairly sort []
        [⟨8, { type := .new, orderId := 1 }⟩, ⟨8, { type := .cancel, orderId := 1 }⟩] :=
    exists_unfair_sort (by decide) List.mem_cons_self
      (List.mem_cons_of_mem _ List.mem_cons_self) rfl (by decide)
  obtain ⟨sort, hsort, hunfair⟩ := hother
  exact hunfair (hall sort hsort)

end FIFOSequencer

end HighPerformance
