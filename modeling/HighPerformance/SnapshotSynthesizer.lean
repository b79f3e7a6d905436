import HighPerformance.FallibleRun
import HighPerformance.MemPool
import HighPerformance.Messages

/-!
# The snapshot synthesizer

The exchange keeps, for every ticker, a table of the live orders as the
incremental stream describes them, and publishes it from time to time. `Stores`
relates the table and its pool to a list of updates in order of arrival, and
`keep` is what one update does to that list.

`numberFrom` is the numbering of a stream: from one by the publisher, from zero
in a snapshot.
-/

namespace HighPerformance

instance : Inhabited MEMarketUpdate := ⟨{}⟩

/-- Consecutive sequence numbers, a `size_t` each. -/
def numberFrom : ℕ → List MEMarketUpdate → List MDPMarketUpdate
  | _, [] => []
  | n, u :: us => ⟨n, u⟩ :: numberFrom ((n + 1) % 2 ^ 64) us

/-- `MarketDataPublisher::run`: what the synthesizer reads from its queue. -/
def publish (us : List MEMarketUpdate) : List MDPMarketUpdate := numberFrom 1 us

@[simp] theorem length_numberFrom (n : ℕ) (us : List MEMarketUpdate) :
    (numberFrom n us).length = us.length := by
  induction us generalizing n with
  | nil => rfl
  | cons u us ih => simp [numberFrom, ih]

theorem map_numberFrom (n : ℕ) (us : List MEMarketUpdate) :
    (numberFrom n us).map (·.meMarketUpdate) = us := by
  induction us generalizing n with
  | nil => rfl
  | cons u us ih => simp [numberFrom, ih]

theorem numberFrom_append (n : ℕ) (us vs : List MEMarketUpdate) (hn : n < 2 ^ 64) :
    numberFrom n (us ++ vs) = numberFrom n us ++ numberFrom ((n + us.length) % 2 ^ 64) vs := by
  induction us generalizing n with
  | nil =>
    rw [List.length_nil, Nat.add_zero, Nat.mod_eq_of_lt hn]
    rfl
  | cons u us ih =>
    have hrest := ih ((n + 1) % 2 ^ 64) (Nat.mod_lt _ (by decide))
    rw [Nat.mod_add_mod] at hrest
    rw [List.cons_append, numberFrom, numberFrom, hrest, List.cons_append, List.length_cons,
      Nat.add_assoc, Nat.add_comm 1]

theorem publish_append (us vs : List MEMarketUpdate) :
    publish (us ++ vs) = publish us ++ numberFrom ((us.length + 1) % 2 ^ 64) vs := by
  rw [publish, publish, numberFrom_append 1 us vs (by decide), Nat.add_comm]

structure SnapshotSynthesizer where
  tickerOrders : ℕ → ℕ → Option Ptr := fun _ _ => none
  lastIncSeqNum : ℕ := 0
  orderPool : MemPool MEMarketUpdate

namespace SnapshotSynthesizer
open FallibleRun

def init : SnapshotSynthesizer := { orderPool := .init meMaxOrderIds }

def setOrder (s : SnapshotSynthesizer) (tickerId orderId : ℕ) (p : Option Ptr) :
    SnapshotSynthesizer :=
  { s with
    tickerOrders := Function.update s.tickerOrders tickerId
      (Function.update (s.tickerOrders tickerId) orderId p) }

/-- The order that a `MODIFY` or a `CANCEL` names, past its three assertions. -/
def expectOrder (s : SnapshotSynthesizer) (u : MEMarketUpdate) : Except Fault Ptr := do
  at? "ticker_orders_" meMaxOrderIds u.orderId
  match s.tickerOrders u.tickerId u.orderId with
  | none => .error (.assertion ("Received:" ++ u.toString ++ " but order does not exist."))
  | some p => do
      assert (decide ((s.orderPool.get p).orderId = u.orderId))
        "Expecting existing order to match new one."
      assert (decide ((s.orderPool.get p).side = u.side))
        "Expecting existing order to match the new one."
      return p

/-- The `switch` of `addToSnapshot`. -/
def applyOrder (s : SnapshotSynthesizer) (u : MEMarketUpdate) : Except Fault SnapshotSynthesizer :=
  match u.type with
  | .add => do
      at? "ticker_orders_" meMaxOrderIds u.orderId
      match s.tickerOrders u.tickerId u.orderId with
      | some p => .error (.assertion ("Received:" ++ u.toString ++ " but order already exists:" ++
          (s.orderPool.get p).toString))
      | none => do
          let a ← s.orderPool.allocate u
          return { s.setOrder u.tickerId u.orderId (some a.1) with orderPool := a.2 }
  | .modify => do
      let p ← s.expectOrder u
      return { s with
        orderPool := s.orderPool.modify p fun o => { o with qty := u.qty, price := u.price } }
  | .cancel => do
      let p ← s.expectOrder u
      let pool ← s.orderPool.deallocate p
      return { s.setOrder u.tickerId u.orderId none with orderPool := pool }
  | _ => .ok s

def addToSnapshot (s : SnapshotSynthesizer) (m : MDPMarketUpdate) :
    Except Fault SnapshotSynthesizer := do
  at? "ticker_orders_" meMaxTickers m.meMarketUpdate.tickerId
  let s ← s.applyOrder m.meMarketUpdate
  assert (decide (m.seqNum = (s.lastIncSeqNum + 1) % 2 ^ 64))
    "Expected incremental seq_nums to increase."
  return { s with lastIncSeqNum := m.seqNum }

/-- The orders of one ticker in the order of the table. -/
def snapshotOrders (s : SnapshotSynthesizer) (tickerId : ℕ) : List MEMarketUpdate :=
  (List.range meMaxOrderIds).filterMap fun id => (s.tickerOrders tickerId id).map s.orderPool.get

/-- What a snapshot says between its start and its end. -/
def snapshotBody (s : SnapshotSynthesizer) : List MEMarketUpdate :=
  (List.range meMaxTickers).flatMap fun tickerId =>
    { type := .clear, tickerId := tickerId } :: s.snapshotOrders tickerId

def publishSnapshot (s : SnapshotSynthesizer) : List MDPMarketUpdate :=
  numberFrom 0 ({ type := .snapshotStart, orderId := s.lastIncSeqNum } :: s.snapshotBody ++
    [{ type := .snapshotEnd, orderId := s.lastIncSeqNum }])

/-- The order that `u` names. -/
def Names (u o : MEMarketUpdate) : Prop := o.tickerId = u.tickerId ∧ o.orderId = u.orderId

instance (u : MEMarketUpdate) : DecidablePred (Names u) := fun o =>
  inferInstanceAs (Decidable (o.tickerId = u.tickerId ∧ o.orderId = u.orderId))

/-- What an update means for the orders in order of arrival. -/
def keep (held : List MEMarketUpdate) (u : MEMarketUpdate) : List MEMarketUpdate :=
  match u.type with
  | .add => held ++ [u]
  | .modify => held.map fun o => if Names u o then { o with qty := u.qty, price := u.price } else o
  | .cancel => held.filter fun o => ¬Names u o
  | _ => held

/-- The updates that trip none of the assertions on orders. -/
def Accepts (held : List MEMarketUpdate) (u : MEMarketUpdate) : Prop :=
  u.tickerId < meMaxTickers ∧
    match u.type with
    | .add => u.orderId < meMaxOrderIds ∧ ∀ o ∈ held, ¬Names u o
    | .modify => ∃ o ∈ held, Names u o ∧ o.side = u.side
    | .cancel => ∃ o ∈ held, Names u o ∧ o.side = u.side
    | _ => True

/-- Table and pool store exactly the updates of `held`, each in its block. -/
structure Stores (s : SnapshotSynthesizer) (held : List (Ptr × MEMarketUpdate)) : Prop where
  pool : s.orderPool.Holds (held.map Prod.fst)
  poolSize : s.orderPool.size = meMaxOrderIds
  nodup : (held.map Prod.fst).Nodup
  data : ∀ x ∈ held, s.orderPool.get x.1 = x.2
  table : ∀ t id p, s.tickerOrders t id = some p ↔
    ∃ x ∈ held, x.1 = p ∧ x.2.tickerId = t ∧ x.2.orderId = id
  ids : ∀ x ∈ held, x.2.orderId < meMaxOrderIds
  tickers : ∀ x ∈ held, x.2.tickerId < meMaxTickers
  added : ∀ x ∈ held, x.2.type = .add

theorem stores_init : Stores init [] := by
  constructor
  · exact MemPool.holds_init (by decide)
  · rfl
  · exact List.nodup_nil
  all_goals simp [init]

section Table
variable {s : SnapshotSynthesizer} {held : List (Ptr × MEMarketUpdate)} {u : MEMarketUpdate}

theorem Stores.ptr_inj (h : Stores s held) {x y : Ptr × MEMarketUpdate} (hx : x ∈ held)
    (hy : y ∈ held) (he : x.1 = y.1) : x = y := List.inj_on_of_nodup_map h.nodup hx hy he

theorem Stores.names_inj (h : Stores s held) {x y : Ptr × MEMarketUpdate} (hx : x ∈ held)
    (hy : y ∈ held) (hxu : Names u x.2) (hyu : Names u y.2) : x = y := by
  have hxp := (h.table u.tickerId u.orderId x.1).mpr ⟨x, hx, rfl, hxu⟩
  have hyp := (h.table u.tickerId u.orderId y.1).mpr ⟨y, hy, rfl, hyu⟩
  rw [hxp, Option.some.injEq] at hyp
  exact h.ptr_inj hx hy hyp

theorem tickerOrders_setOrder (t id : ℕ) (p : Option Ptr) (t' id' : ℕ) :
    (s.setOrder t id p).tickerOrders t' id' =
      if t' = t ∧ id' = id then p else s.tickerOrders t' id' := by
  by_cases ht : t' = t
  · subst ht
    by_cases hid : id' = id
    · subst hid
      simp [setOrder]
    · simp [setOrder, hid]
  · simp [setOrder, ht]

theorem Stores.expectOrder_spec (h : Stores s held) {x : Ptr × MEMarketUpdate} (hx : x ∈ held)
    (hu : Names u x.2) (hside : x.2.side = u.side) : s.expectOrder u = .ok x.1 := by
  have hid : u.orderId < meMaxOrderIds := by
    rw [← hu.2]
    exact h.ids x hx
  have hget := (h.table u.tickerId u.orderId x.1).mpr ⟨x, hx, rfl, hu⟩
  simp only [expectOrder, at?_lt hid, hget, h.data x hx, hu.2, hside, decide_true, assert_true,
    bind, Except.bind]
  rfl

theorem Stores.exists_of_expectOrder (h : Stores s held) {p : Ptr}
    (hok : s.expectOrder u = .ok p) : ∃ x ∈ held, Names u x.2 ∧ x.2.side = u.side := by
  obtain ⟨_, -, hok⟩ := bind_eq_ok.mp hok
  cases hget : s.tickerOrders u.tickerId u.orderId with
  | none =>
    rw [hget] at hok
    cases hok
  | some q =>
    obtain ⟨x, hx, rfl, hu⟩ := (h.table _ _ _).mp hget
    refine ⟨x, hx, hu, ?_⟩
    rw [hget] at hok
    by_contra hside
    simp [h.data x hx, hu.2, hside, bind, Except.bind] at hok

theorem Stores.add (h : Stores s held) (ht : u.type = .add) (hu : Accepts (held.map Prod.snd) u) :
    (∃ s' p, s.applyOrder u = .ok s' ∧ Stores s' (held ++ [(p, u)]) ∧
      s'.lastIncSeqNum = s.lastIncSeqNum) ∨
    (s.applyOrder u = .error MemPool.outOfSpace ∧ meMaxOrderIds ≤ held.length + 1) := by
  simp only [Accepts, ht] at hu
  obtain ⟨htid, hid, hnew⟩ := hu
  have hnone : s.tickerOrders u.tickerId u.orderId = none := by
    cases hget : s.tickerOrders u.tickerId u.orderId with
    | none => rfl
    | some p =>
      obtain ⟨x, hx, -, hxu⟩ := (h.table _ _ _).mp hget
      exact (hnew x.2 (List.mem_map_of_mem hx) hxu).elim
  have hcall : s.applyOrder u = (s.orderPool.allocate u).bind fun a =>
      .ok { s.setOrder u.tickerId u.orderId (some a.1) with orderPool := a.2 } := by
    simp only [applyOrder, ht, at?_lt hid, hnone, bind, Except.bind]
    rfl
  rcases h.pool.allocate_spec u with
    ⟨p, q, hq, hfresh, hholds, hsize, hget, hothers⟩ | ⟨herr, hfull⟩
  · left
    refine ⟨{ s.setOrder u.tickerId u.orderId (some p) with orderPool := q }, p, ?_, ?_, rfl⟩
    · rw [hcall, hq]
      rfl
    · constructor
      · apply hholds.congr
        intro i
        simp only [List.map_append, List.mem_append, List.mem_cons, List.map_cons, List.map_nil,
          List.not_mem_nil, or_false]
        exact or_comm
      · exact hsize.trans h.poolSize
      · rw [List.map_append, List.nodup_append]
        refine ⟨h.nodup, List.nodup_singleton _, ?_⟩
        intro a ha b hb he
        rw [he, List.mem_singleton.mp hb] at ha
        exact hfresh ha
      · intro x hx
        rcases List.mem_append.mp hx with hx | hx
        · have hne : x.1 ≠ p := fun he => hfresh (he ▸ List.mem_map_of_mem hx)
          exact (hothers x.1 hne).trans (h.data x hx)
        · rw [List.mem_singleton.mp hx]
          exact hget
      · intro t id i
        change (s.setOrder u.tickerId u.orderId (some p)).tickerOrders t id = some i ↔ _
        rw [tickerOrders_setOrder]
        simp only [List.mem_append, List.mem_singleton, or_and_right, exists_or, exists_eq_left]
        by_cases hti : t = u.tickerId ∧ id = u.orderId
        · obtain ⟨rfl, rfl⟩ := hti
          have hold : ¬∃ x ∈ held, x.1 = i ∧ x.2.tickerId = u.tickerId ∧
              x.2.orderId = u.orderId := by
            rintro ⟨x, hx, -, hxu⟩
            exact hnew x.2 (List.mem_map_of_mem hx) hxu
          simp [hold]
        · have hne : ¬(u.tickerId = t ∧ u.orderId = id) := fun hc => hti ⟨hc.1.symm, hc.2.symm⟩
          simp only [hti, hne, if_false, and_false, or_false]
          exact h.table t id i
      · intro x hx
        rcases List.mem_append.mp hx with hx | hx
        · exact h.ids x hx
        · rw [List.mem_singleton.mp hx]
          exact hid
      · intro x hx
        rcases List.mem_append.mp hx with hx | hx
        · exact h.tickers x hx
        · rw [List.mem_singleton.mp hx]
          exact htid
      · intro x hx
        rcases List.mem_append.mp hx with hx | hx
        · exact h.added x hx
        · rw [List.mem_singleton.mp hx]
          exact ht
  · right
    rw [List.length_map, h.poolSize] at hfull
    refine ⟨?_, hfull⟩
    rw [hcall, herr]
    rfl

/-- What a `MODIFY` makes of a stored order. -/
def revise (u : MEMarketUpdate) (x : Ptr × MEMarketUpdate) : Ptr × MEMarketUpdate :=
  if Names u x.2 then (x.1, { x.2 with qty := u.qty, price := u.price }) else x

theorem revise_same (x : Ptr × MEMarketUpdate) : (revise u x).1 = x.1 ∧
    (revise u x).2.tickerId = x.2.tickerId ∧ (revise u x).2.orderId = x.2.orderId ∧
    (revise u x).2.type = x.2.type := by
  unfold revise
  split <;> exact ⟨rfl, rfl, rfl, rfl⟩

theorem Stores.modify (h : Stores s held) (ht : u.type = .modify)
    (hu : Accepts (held.map Prod.snd) u) :
    ∃ s', s.applyOrder u = .ok s' ∧ Stores s' (held.map (revise u)) ∧
      s'.lastIncSeqNum = s.lastIncSeqNum := by
  simp only [Accepts, ht, List.mem_map, exists_exists_and_eq_and] at hu
  obtain ⟨-, x, hx, hxu, hside⟩ := hu
  have hfst : (held.map (revise u)).map Prod.fst = held.map Prod.fst := by
    rw [List.map_map]
    exact List.map_congr_left fun y _ => (revise_same y).1
  refine ⟨{ s with orderPool :=
    s.orderPool.modify x.1 fun o => { o with qty := u.qty, price := u.price } }, ?_, ?_, rfl⟩
  · simp only [applyOrder, ht, h.expectOrder_spec hx hxu hside, bind, Except.bind]
    rfl
  · constructor
    · rw [hfst]
      exact h.pool.modify x.1 fun o => { o with qty := u.qty, price := u.price }
    · exact h.poolSize
    · rw [hfst]
      exact h.nodup
    · intro z hz
      obtain ⟨y, hy, rfl⟩ := List.mem_map.mp hz
      rw [(revise_same y).1, MemPool.get_modify, h.data y hy]
      by_cases hyu : Names u y.2
      · have hyx : y.1 = x.1 := congrArg Prod.fst (h.names_inj hy hx hyu hxu)
        simp [hyx, revise, hyu]
      · have hyx : y.1 ≠ x.1 := fun he => hyu ((h.ptr_inj hy hx he) ▸ hxu)
        simp [hyx, revise, hyu]
    · intro t id i
      simp only [List.mem_map, exists_exists_and_eq_and, revise_same]
      exact h.table t id i
    · intro z hz
      obtain ⟨y, hy, rfl⟩ := List.mem_map.mp hz
      rw [(revise_same y).2.2.1]
      exact h.ids y hy
    · intro z hz
      obtain ⟨y, hy, rfl⟩ := List.mem_map.mp hz
      rw [(revise_same y).2.1]
      exact h.tickers y hy
    · intro z hz
      obtain ⟨y, hy, rfl⟩ := List.mem_map.mp hz
      rw [(revise_same y).2.2.2]
      exact h.added y hy

theorem Stores.cancel (h : Stores s held) (ht : u.type = .cancel)
    (hu : Accepts (held.map Prod.snd) u) :
    ∃ s', s.applyOrder u = .ok s' ∧ Stores s' (held.filter fun x => ¬Names u x.2) ∧
      s'.lastIncSeqNum = s.lastIncSeqNum := by
  simp only [Accepts, ht, List.mem_map, exists_exists_and_eq_and] at hu
  obtain ⟨-, x, hx, hxu, hside⟩ := hu
  have hsub : ∀ y, y ∈ held.filter (fun x => ¬Names u x.2) ↔ y ∈ held ∧ ¬Names u y.2 := by
    intro y
    rw [List.mem_filter, decide_eq_true_eq]
  have hlive : ∀ i, i ∈ (held.filter fun x => ¬Names u x.2).map Prod.fst ↔
      i ∈ held.map Prod.fst ∧ i ≠ x.1 := by
    intro i
    simp only [List.mem_map, hsub]
    constructor
    · rintro ⟨y, ⟨hy, hyu⟩, rfl⟩
      exact ⟨⟨y, hy, rfl⟩, fun he => hyu ((h.ptr_inj hy hx he) ▸ hxu)⟩
    · rintro ⟨⟨y, hy, rfl⟩, hne⟩
      exact ⟨y, ⟨hy, fun hyu => hne (congrArg Prod.fst (h.names_inj hy hx hyu hxu))⟩, rfl⟩
  obtain ⟨q, hq, hholds, hsize, hget⟩ :=
    h.pool.deallocate_spec (List.mem_map_of_mem hx) hlive
  refine ⟨{ s.setOrder u.tickerId u.orderId none with orderPool := q }, ?_, ?_, rfl⟩
  · simp only [applyOrder, ht, h.expectOrder_spec hx hxu hside, hq, bind, Except.bind]
    rfl
  · constructor
    · exact hholds
    · exact hsize.trans h.poolSize
    · exact List.Nodup.sublist (List.filter_sublist.map _) h.nodup
    · intro y hy
      exact (hget y.1).trans (h.data y ((hsub y).mp hy).1)
    · intro t id i
      change (s.setOrder u.tickerId u.orderId none).tickerOrders t id = some i ↔ _
      rw [tickerOrders_setOrder]
      simp only [hsub]
      by_cases hti : t = u.tickerId ∧ id = u.orderId
      · rw [if_pos hti]
        simp only [reduceCtorEq, false_iff]
        rintro ⟨y, ⟨-, hyu⟩, -, hyt, hyid⟩
        exact hyu ⟨hyt.trans hti.1, hyid.trans hti.2⟩
      · rw [if_neg hti, h.table]
        constructor
        · rintro ⟨y, hy, hyi, hyt, hyid⟩
          exact ⟨y, ⟨hy, fun hyu => hti ⟨hyt ▸ hyu.1, hyid ▸ hyu.2⟩⟩, hyi, hyt, hyid⟩
        · rintro ⟨y, ⟨hy, -⟩, hyi⟩
          exact ⟨y, hy, hyi⟩
    · exact fun y hy => h.ids y ((hsub y).mp hy).1
    · exact fun y hy => h.tickers y ((hsub y).mp hy).1
    · exact fun y hy => h.added y ((hsub y).mp hy).1

end Table

section Steps
variable {s s' : SnapshotSynthesizer} {held : List (Ptr × MEMarketUpdate)} {m : MDPMarketUpdate}

theorem snd_map_revise (u : MEMarketUpdate) : (held.map (revise u)).map Prod.snd =
    (held.map Prod.snd).map fun o =>
      if Names u o then { o with qty := u.qty, price := u.price } else o := by
  rw [List.map_map, List.map_map]
  apply List.map_congr_left
  intro x _
  simp only [Function.comp_apply, revise]
  split <;> rfl

/-- An accepted update of the table is an update of the list. -/
theorem Stores.applyOrder_spec (h : Stores s held) {u : MEMarketUpdate}
    (hu : Accepts (held.map Prod.snd) u) :
    (∃ s' held', s.applyOrder u = .ok s' ∧ Stores s' held' ∧
      held'.map Prod.snd = keep (held.map Prod.snd) u ∧ s'.lastIncSeqNum = s.lastIncSeqNum) ∨
    (s.applyOrder u = .error MemPool.outOfSpace ∧ meMaxOrderIds ≤ held.length + 1) := by
  cases ht : u.type with
  | add =>
    rcases h.add ht hu with ⟨s', p, hok, hs', hseq⟩ | hfull
    · left
      refine ⟨s', _, hok, hs', ?_, hseq⟩
      simp [keep, ht]
    · exact .inr hfull
  | modify =>
    left
    obtain ⟨s', hok, hs', hseq⟩ := h.modify ht hu
    refine ⟨s', _, hok, hs', ?_, hseq⟩
    simp only [keep, ht]
    exact snd_map_revise u
  | cancel =>
    left
    obtain ⟨s', hok, hs', hseq⟩ := h.cancel ht hu
    refine ⟨s', _, hok, hs', ?_, hseq⟩
    simp only [keep, ht, List.filter_map]
    rfl
  | invalid | clear | trade | snapshotStart | snapshotEnd | unnamed _ =>
    left
    refine ⟨s, held, ?_, h, ?_, rfl⟩
    · simp only [applyOrder, ht]
    · simp only [keep, ht]

theorem Stores.addToSnapshot_spec (h : Stores s held)
    (hu : Accepts (held.map Prod.snd) m.meMarketUpdate)
    (hseq : m.seqNum = (s.lastIncSeqNum + 1) % 2 ^ 64) :
    (∃ s' held', s.addToSnapshot m = .ok s' ∧ Stores s' held' ∧
      held'.map Prod.snd = keep (held.map Prod.snd) m.meMarketUpdate ∧
      s'.lastIncSeqNum = m.seqNum) ∨
    (s.addToSnapshot m = .error MemPool.outOfSpace ∧ meMaxOrderIds ≤ held.length + 1) := by
  have hat : at? "ticker_orders_" meMaxTickers m.meMarketUpdate.tickerId = .ok () := at?_lt hu.1
  rcases h.applyOrder_spec hu with ⟨s', held', hok, hs', hkeep, hlast⟩ | ⟨herr, hfull⟩
  · left
    refine ⟨{ s' with lastIncSeqNum := m.seqNum }, held', ?_, ?_, hkeep, rfl⟩
    · simp only [addToSnapshot, hat, hok, hlast, hseq, decide_true, assert_true, bind, Except.bind]
      rfl
    · exact ⟨hs'.pool, hs'.poolSize, hs'.nodup, hs'.data, hs'.table, hs'.ids, hs'.tickers,
        hs'.added⟩
  · right
    refine ⟨?_, hfull⟩
    simp only [addToSnapshot, hat, herr, bind, Except.bind]

theorem Stores.accepts_of_ok (h : Stores s held) (hok : s.addToSnapshot m = .ok s') :
    Accepts (held.map Prod.snd) m.meMarketUpdate ∧
      m.seqNum = (s.lastIncSeqNum + 1) % 2 ^ 64 := by
  obtain ⟨_, hat, hok⟩ := bind_eq_ok.mp hok
  obtain ⟨s₁, happly, hok⟩ := bind_eq_ok.mp hok
  obtain ⟨_, hassert, -⟩ := bind_eq_ok.mp hok
  have htid : m.meMarketUpdate.tickerId < meMaxTickers := at?_eq_ok.mp hat
  have hacc : Accepts (held.map Prod.snd) m.meMarketUpdate := by
    refine ⟨htid, ?_⟩
    cases ht : m.meMarketUpdate.type with
    | add =>
      simp only [applyOrder, ht] at happly
      obtain ⟨_, hid, happly⟩ := bind_eq_ok.mp happly
      refine ⟨at?_eq_ok.mp hid, fun o ho hnames => ?_⟩
      obtain ⟨x, hx, rfl⟩ := List.mem_map.mp ho
      have hget := (h.table _ _ x.1).mpr ⟨x, hx, rfl, hnames⟩
      rw [hget] at happly
      cases happly
    | modify =>
      simp only [applyOrder, ht] at happly
      obtain ⟨p, hp, -⟩ := bind_eq_ok.mp happly
      obtain ⟨x, hx, hxu, hside⟩ := h.exists_of_expectOrder hp
      exact ⟨x.2, List.mem_map_of_mem hx, hxu, hside⟩
    | cancel =>
      simp only [applyOrder, ht] at happly
      obtain ⟨p, hp, -⟩ := bind_eq_ok.mp happly
      obtain ⟨x, hx, hxu, hside⟩ := h.exists_of_expectOrder hp
      exact ⟨x.2, List.mem_map_of_mem hx, hxu, hside⟩
    | invalid | clear | trade | snapshotStart | snapshotEnd | unnamed _ => trivial
  refine ⟨hacc, ?_⟩
  have hlast : s₁.lastIncSeqNum = s.lastIncSeqNum := by
    rcases h.applyOrder_spec hacc with ⟨s₂, -, hok₂, -, -, hlast⟩ | ⟨herr, -⟩
    · rw [happly] at hok₂
      cases hok₂
      exact hlast
    · rw [happly] at herr
      cases herr
  rw [← hlast]
  exact of_decide_eq_true (assert_eq_ok.mp hassert)

end Steps

/-- The synthesizer has taken the whole stream `us` and holds `live`. -/
def Fed (us live : List MEMarketUpdate) : Prop :=
  ∃ s held, run addToSnapshot init (publish us) = .ok s ∧ Stores s held ∧
    held.map Prod.snd = live ∧ s.lastIncSeqNum = us.length % 2 ^ 64

section Streams
variable {us live : List MEMarketUpdate} {u : MEMarketUpdate}

theorem fed_nil : Fed [] [] := ⟨init, [], rfl, stores_init, rfl, rfl⟩

theorem Fed.snoc (h : Fed us live) (hu : Accepts live u) (hlen : live.length + 1 < meMaxOrderIds) :
    Fed (us ++ [u]) (keep live u) := by
  obtain ⟨s, held, hrun, hs, rfl, hlast⟩ := h
  have hseq : (us.length + 1) % 2 ^ 64 = (s.lastIncSeqNum + 1) % 2 ^ 64 := by
    rw [hlast, Nat.mod_add_mod]
  rcases hs.addToSnapshot_spec (m := ⟨(us.length + 1) % 2 ^ 64, u⟩) hu hseq with
    ⟨s', held', hok, hs', hkeep, hlast'⟩ | ⟨-, hfull⟩
  · refine ⟨s', held', ?_, hs', hkeep, ?_⟩
    · rw [publish_append, run_append_ok hrun, numberFrom, run_cons_ok hok]
      rfl
    · rw [hlast', List.length_append]
      rfl
  · rw [List.length_map] at hlen
    omega

/-- A stream that the synthesizer takes is numbered from one and accepted. -/
theorem fed_of_run {ms : List MDPMarketUpdate} {s : SnapshotSynthesizer}
    (hrun : run addToSnapshot init ms = .ok s) :
    ms = publish (ms.map (·.meMarketUpdate)) ∧
      Along keep Accepts [] (ms.map (·.meMarketUpdate)) ∧
      Fed (ms.map (·.meMarketUpdate)) ((ms.map (·.meMarketUpdate)).foldl keep []) := by
  induction ms using List.reverseRecOn generalizing s with
  | nil => exact ⟨rfl, trivial, fed_nil⟩
  | append_singleton ms m ih =>
    obtain ⟨s₁, hrun₁, hstep⟩ := run_append_eq_ok.mp hrun
    obtain ⟨t, hok, ht⟩ := run_cons_eq_ok.mp hstep
    obtain ⟨hnum, halong, s₂, held, hrun₂, hs, hheld, hlast⟩ := ih hrun₁
    rw [← hnum, hrun₁] at hrun₂
    cases hrun₂
    obtain ⟨hacc, hseq⟩ := hs.accepts_of_ok hok
    rw [hheld] at hacc
    have hm : m = ⟨(ms.length + 1) % 2 ^ 64, m.meMarketUpdate⟩ := by
      rw [hlast, List.length_map, Nat.mod_add_mod] at hseq
      rw [← hseq]
    have hnum' : ms ++ [m] = publish ((ms ++ [m]).map (·.meMarketUpdate)) := by
      rw [List.map_append, publish_append, ← hnum, List.length_map]
      simp only [List.map_cons, List.map_nil, numberFrom]
      rw [← hm]
    refine ⟨hnum', ?_, ?_⟩
    · rw [List.map_append, along_append]
      exact ⟨halong, hacc, trivial⟩
    · rcases hs.addToSnapshot_spec (hheld ▸ hacc) hseq with
        ⟨s', held', hok', hs', hkeep, hlast'⟩ | ⟨herr, -⟩
      · refine ⟨s', held', ?_, hs', ?_, ?_⟩
        · rw [← hnum', run_append_ok hrun₁, run_cons_ok hok']
          rfl
        · rw [hkeep, hheld, List.map_append, List.foldl_append]
          rfl
        · rw [hlast', hseq, hlast, List.length_map, List.length_map, List.length_append,
            Nat.mod_add_mod]
          rfl
      · rw [hok] at herr
        cases herr

end Streams

end SnapshotSynthesizer

end HighPerformance
