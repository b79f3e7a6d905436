import HighPerformance.MEOrderBookInvariant
import HighPerformance.SnapshotSynthesizer

/-!
# The update stream of a book

The open orders of a book are read off the responses to the participants: an
accepted order stays open until the quantity that remains of it is reported as
zero or it is canceled. The synthesizer learns of the same orders from the
market updates, by market order id. Both are followed through a run of the book.

`generateNewMarketOrderId` returns the same id every time. The stream is
therefore only followed as long as no order comes to rest next to another one;
the second `ADD` in the table of the synthesizer would trip its assertion.
-/

namespace HighPerformance

/-- An accepted order with what remains of it. -/
structure OpenOrder where
  clientId : ℕ
  clientOrderId : ℕ
  marketOrderId : ℕ
  side : Side
  price : ℕ
  leavesQty : ℕ
  deriving DecidableEq, Repr

namespace OpenOrder

def key (o : OpenOrder) : ClientOrderKey := (o.clientId, o.clientOrderId)

/-- Market order id, side, price and remaining quantity. -/
def terms (o : OpenOrder) : ℕ × Side × ℕ × ℕ := (o.marketOrderId, o.side, o.price, o.leavesQty)

/-- What a response says about the open orders. -/
def answer (os : List OpenOrder) (r : MEClientResponse) : List OpenOrder :=
  match r.type with
  | .accepted =>
      if r.leavesQty = 0 then os
      else os ++ [⟨r.clientId, r.clientOrderId, r.marketOrderId, r.side, r.price, r.leavesQty⟩]
  | .filled =>
      (os.map fun o =>
        if o.key = (r.clientId, r.clientOrderId) then { o with leavesQty := r.leavesQty } else o)
        |>.filter fun o => o.leavesQty ≠ 0
  | .canceled => os.filter fun o => o.key ≠ (r.clientId, r.clientOrderId)
  | _ => os

/-- The open orders with which an incoming order may trade. -/
def tradable (os : List OpenOrder) (side : Side) (price : ℕ) : List OpenOrder :=
  os.filter fun o => match side with
    | .buy => decide (o.side ≠ .buy ∧ o.price ≤ price)
    | .sell => decide (o.side = .buy ∧ price ≤ o.price)
    | _ => false

end OpenOrder

def responses (out : List Outgoing) : List MEClientResponse :=
  out.filterMap fun x => match x with
    | .response r => some r
    | .update _ => none

def updates (out : List Outgoing) : List MEMarketUpdate :=
  out.filterMap fun x => match x with
    | .response _ => none
    | .update u => some u

def openOrders (out : List Outgoing) : List OpenOrder := (responses out).foldl OpenOrder.answer []

namespace MEOrderBook
open LevelBook FallibleRun SnapshotSynthesizer OpenOrder

/-- A book and everything that it has sent. -/
structure Session where
  book : MEOrderBook
  sent : List Outgoing

namespace Session

def init (tickerId : ℕ) : Session := ⟨MEOrderBook.init tickerId, []⟩

def step (s : Session) (r : Request) : Except Fault Session := do
  let x ← s.book.handle r
  return ⟨x.1, s.sent ++ x.2⟩

end Session

/-- The requests on one ticker at a price of the table. -/
def Request.OnTicker (t : ℕ) : Request → Prop
  | .add _ _ tickerId _ price _ => tickerId = t ∧ price < meMaxPriceLevels
  | .cancel _ _ tickerId => tickerId = t

/-- The identifications that the table of live orders can hold. -/
def Request.Fits : Request → Prop
  | .add clientId clientOrderId _ _ _ _ =>
      clientId < meMaxNumClients ∧ clientOrderId < meMaxOrderIds
  | .cancel _ orderId _ => orderId < meMaxOrderIds

/-- What an order leaves to rest, when it does, has no other order beside it. -/
def RestsAlone (s : Session) : Request → Prop
  | .add _ _ _ side price qty =>
      let os := openOrders s.sent
      ((tradable os side price).map (·.leavesQty)).sum < qty → tradable os side price = os
  | .cancel _ _ _ => True

def updateTerms (u : MEMarketUpdate) : ℕ × Side × ℕ × ℕ := (u.orderId, u.side, u.price, u.qty)

instance (s : Session) : DecidablePred (RestsAlone s)
  | .add _ _ _ side price qty =>
      inferInstanceAs (Decidable
        (((tradable (openOrders s.sent) side price).map (·.leavesQty)).sum < qty →
          tradable (openOrders s.sent) side price = openOrders s.sent))
  | .cancel _ _ _ => inferInstanceAs (Decidable True)

/-- The table of the ticker has exactly the open orders, each under its own id. -/
structure Mirrors (syn : SnapshotSynthesizer) (t : ℕ) (os : List OpenOrder) : Prop where
  distinct : (os.map (·.marketOrderId)).Nodup
  table : ∀ id, (syn.tickerOrders t id).map (fun p => updateTerms (syn.orderPool.get p)) =
    (os.find? fun o => o.marketOrderId = id).map OpenOrder.terms

section Sending

@[simp] theorem responses_append (out out' : List Outgoing) :
    responses (out ++ out') = responses out ++ responses out' := by
  simp [responses]

@[simp] theorem updates_append (out out' : List Outgoing) :
    updates (out ++ out') = updates out ++ updates out' := by
  simp [updates]

theorem openOrders_append (out out' : List Outgoing) :
    openOrders (out ++ out') = (responses out').foldl answer (openOrders out) := by
  simp [openOrders]

theorem foldl_answer_trade (i : Incoming) (leaves price : ℕ) (o : Resting MEOrderIds)
    (os : List OpenOrder) :
    (responses (tradeMessages i leaves price o)).foldl answer os =
      answer (answer os ⟨.filled, i.clientId, i.tickerId, i.clientOrderId, i.newMarketOrderId,
          i.side, price, min leaves o.qty, leaves - min leaves o.qty⟩)
        ⟨.filled, o.ident.clientId, i.tickerId, o.ident.clientOrderId, o.ident.marketOrderId,
          o.side, price, min leaves o.qty, o.qty - min leaves o.qty⟩ := by
  unfold tradeMessages responses
  split <;> rfl

end Sending

/-- The open order that an order of the book is. -/
def openOf (x : ℕ × Resting MEOrderIds) : OpenOrder :=
  ⟨x.2.ident.clientId, x.2.ident.clientOrderId, x.2.ident.marketOrderId, x.2.side, x.1, x.2.qty⟩

/-- What matching does to a book with at most one order. -/
inductive Traded (i : Incoming) (qty : ℕ) :
    List (ℕ × Resting MEOrderIds) → ℕ → List (ℕ × Resting MEOrderIds) → List Outgoing → Prop
  | passes {q : List (ℕ × Resting MEOrderIds)} :
      qty = 0 ∨ tradable (q.map openOf) i.side i.price = [] → Traded i qty q qty q []
  | fills {price : ℕ} {o : Resting MEOrderIds} : 0 < qty → o.qty ≤ qty →
      Traded i qty [(price, o)] (qty - o.qty) [] (tradeMessages i qty price o)
  | reduces {price : ℕ} {o : Resting MEOrderIds} : 0 < qty → qty < o.qty →
      Traded i qty [(price, o)] 0 [(price, { o with qty := o.qty - qty })]
        (tradeMessages i qty price o)

section Matching
variable {m : MEOrderBook} {S : Shape MEOrderIds} {d : Bool} {q q' : List (ℕ × Resting MEOrderIds)}
  {i : Incoming} {qty leaves : ℕ} {out : List Outgoing}

theorem Rep.eq_nil_of_queue (h : Rep m S) (hq : Shape.queue (S d) = []) : S d = [] := by
  cases hS : S d with
  | nil => rfl
  | cons L w =>
    have hne := (h.shaped.level d L (by simp [hS])).nonempty
    rw [hS, Shape.queue_cons, List.append_eq_nil_iff, List.map_eq_nil_iff] at hq
    exact (hne hq.1).elim

theorem Rep.eq_nil_of_orders (h : Rep m S) (ho : S.orders = []) (d : Bool) : S d = [] := by
  cases hS : S d with
  | nil => rfl
  | cons L w =>
    obtain ⟨o, hoL⟩ := List.exists_mem_of_ne_nil _ (h.shaped.level d L (by simp [hS])).nonempty
    have hm : o ∈ S.orders := Shape.mem_orders.mpr ⟨d, L, by simp [hS], hoL⟩
    rw [ho] at hm
    simp at hm

/-- Orders on the asks are met by a buy, orders on the bids by a sell. -/
theorem tradable_openOf {e : Bool} {price p : ℕ} {o : Resting MEOrderIds}
    (hd : (o.side == .buy) = d) :
    tradable [openOf (p, o)] (sideOf e) price =
      if d = !e ∧ stopsFor e price p = false then [openOf (p, o)] else [] := by
  subst hd
  by_cases hb : o.side = .buy
  · cases e <;> by_cases hp : price ≤ p <;>
      simp [tradable, openOf, sideOf, stopsFor, hb, hp]
  · cases e <;> by_cases hp : p ≤ price <;>
      simp [tradable, openOf, sideOf, stopsFor, hb, hp]

theorem checkForMatch_other (hb : i.side ≠ .buy) (hs : i.side ≠ .sell) :
    m.checkForMatch i qty = .ok (m, qty, []) ∧ ∀ os, tradable os i.side i.price = [] := by
  constructor
  · unfold checkForMatch
    split
    · next he => exact (hb he).elim
    · next he => exact (hs he).elim
    · rfl
  · intro os
    unfold tradable
    rw [List.filter_eq_nil_iff]
    intro o _
    split
    · next he => exact (hb he).elim
    · next he => exact (hs he).elim
    · simp

/-- The sweep through at most one order. -/
theorem traded_sweep {e : Bool} (hi : i.side = sideOf e) (hlen : q.length ≤ 1)
    (hside : ∀ x ∈ q, (x.2.side == .buy) = !e) :
    Traded i qty q (sweep i (stopsFor e i.price) qty q).1 (sweep i (stopsFor e i.price) qty q).2.1
      (sweep i (stopsFor e i.price) qty q).2.2 := by
  rcases q with _ | ⟨⟨p, o⟩, q⟩
  · exact .passes (.inr rfl)
  · have hq : q = [] := by
      rw [List.length_cons] at hlen
      exact List.length_eq_zero_iff.mp (by omega)
    subst hq
    have ht := @tradable_openOf (!e) e i.price p o (hside (p, o) (by simp))
    rw [← hi] at ht
    rcases Nat.eq_zero_or_pos qty with rfl | hpos
    · rw [sweep_zero]
      exact .passes (.inl rfl)
    by_cases hstop : stopsFor e i.price p = true
    · have hpass : Traded i qty [(p, o)] qty [(p, o)] [] := by
        apply Traded.passes
        right
        simpa [hstop] using ht
      simpa [sweep, hstop] using hpass
    · by_cases hqty : o.qty ≤ qty
      · simpa [sweep, hstop, hqty, Nat.pos_iff_ne_zero.mp hpos] using Traded.fills hpos hqty
      · simpa [sweep, hstop, hqty, Nat.pos_iff_ne_zero.mp hpos] using
          Traded.reduces hpos (Nat.not_le.mp hqty)

theorem checkForMatch_alone (h : Rep m S) (hq : Shape.queue (S d) = q) (ho : S (!d) = [])
    (hlen : q.length ≤ 1) (hside : ∀ x ∈ q, (x.2.side == .buy) = d) (i : Incoming) (qty : ℕ) :
    ∃ m₁ S₁ leaves q₁ out, m.checkForMatch i qty = .ok (m₁, leaves, out) ∧ Rep m₁ S₁ ∧
      m₁.nextMarketOrderId = m.nextMarketOrderId ∧ Shape.queue (S₁ d) = q₁ ∧ S₁ (!d) = [] ∧
      Traded i qty q leaves q₁ out := by
  by_cases hi : i.side = .buy ∨ i.side = .sell
  · obtain ⟨e, he⟩ : ∃ e, i.side = sideOf e := by
      rcases hi with hi | hi
      · exact ⟨true, hi⟩
      · exact ⟨false, hi⟩
    obtain ⟨m₁, S₁, hok, hm₁⟩ := @checkForMatch_spec m S e i qty h he
    by_cases hde : d = !e
    · subst hde
      rw [hq] at hok hm₁
      exact ⟨m₁, S₁, _, _, _, hok, hm₁.rep, hm₁.nextId, hm₁.queue, hm₁.other.trans ho,
        traded_sweep he hlen hside⟩
    · have hde' : d = e := by cases d <;> cases e <;> simp_all
      subst hde'
      rw [ho] at hok hm₁
      have hsame : S₁ d = S d := by
        have hother := hm₁.other
        rwa [Bool.not_not] at hother
      refine ⟨m₁, S₁, _, q, _, hok, hm₁.rep, hm₁.nextId, ?_, ?_, ?_⟩
      · rw [hsame]
        exact hq
      · exact hm₁.rep.eq_nil_of_queue hm₁.queue
      · apply Traded.passes
        right
        rcases q with _ | ⟨⟨p, o⟩, q⟩
        · rfl
        · rw [List.length_cons] at hlen
          obtain rfl : q = [] := List.length_eq_zero_iff.mp (by omega)
          have ht := @tradable_openOf d d i.price p o (hside (p, o) (by simp))
          rw [← he] at ht
          simpa using ht
  · rw [not_or] at hi
    obtain ⟨hok, hnone⟩ := @checkForMatch_other m i qty hi.1 hi.2
    exact ⟨m, S, _, q, _, hok, h, rfl, hq, ho, .passes (.inr (hnone _))⟩

end Matching

section Followed
variable {q q' : List (ℕ × Resting MEOrderIds)} {i : Incoming} {qty leaves mid : ℕ}
  {out : List Outgoing} {us live : List MEMarketUpdate}

theorem responses_acceptance (cid oid tid mid : ℕ) (side : Side) (price qty : ℕ)
    (out : List Outgoing) : responses (acceptance cid oid tid mid side price qty :: out) =
      ⟨.accepted, cid, tid, oid, mid, side, price, 0, qty⟩ :: responses out := rfl

/-- What the participants are told of a request to trade `qty`. -/
theorem Traded.answers (mid : ℕ) (h : Traded i qty q leaves q' out)
    (hkey : ∀ x ∈ q, (openOf x).key ≠ (i.clientId, i.clientOrderId)) (hpos : ∀ x ∈ q, x.2.qty ≠ 0) :
    (responses (acceptance i.clientId i.clientOrderId i.tickerId mid i.side i.price qty ::
        out)).foldl answer (q.map openOf) =
      q'.map openOf ++ if leaves = 0 then [] else
        [⟨i.clientId, i.clientOrderId, mid, i.side, i.price, leaves⟩] := by
  rw [responses_acceptance, List.foldl_cons]
  cases h with
  | passes _ =>
    by_cases hq : qty = 0
    · simp [answer, responses, hq]
    · simp [answer, responses, hq]
  | @fills price o hq ho =>
    have hne := hkey (price, o) (by simp)
    have hoq := hpos (price, o) (by simp)
    have hq0 : qty ≠ 0 := Nat.pos_iff_ne_zero.mp hq
    rw [foldl_answer_trade, Nat.min_eq_right ho]
    simp only [openOf, key, ne_eq, Prod.mk.injEq] at hne hoq
    by_cases hleft : qty - o.qty = 0
    · simp [answer, openOf, key, hne, hoq, hq0, hleft]
    · have hne' : ¬(i.clientId = o.ident.clientId ∧ i.clientOrderId = o.ident.clientOrderId) :=
        fun hc => hne ⟨hc.1.symm, hc.2.symm⟩
      simp [answer, openOf, key, hne, hne', hoq, hq0, hleft]
  | @reduces price o hq ho =>
    have hne := hkey (price, o) (by simp)
    have hoq := hpos (price, o) (by simp)
    have hq0 : qty ≠ 0 := Nat.pos_iff_ne_zero.mp hq
    have hleft : o.qty - qty ≠ 0 := by omega
    rw [foldl_answer_trade, Nat.min_eq_left ho.le]
    simp only [openOf, key, ne_eq, Prod.mk.injEq] at hne hoq
    simp [answer, openOf, key, hne, hoq, hq0, hleft]

/-- The orders that the synthesizer holds are those of the book. -/
structure Follows (t : ℕ) (live : List MEMarketUpdate) (q : List (ℕ × Resting MEOrderIds)) :
    Prop where
  terms : live.map updateTerms = q.map fun x => (openOf x).terms
  ticker : ∀ u ∈ live, u.tickerId = t

theorem Follows.nil {t : ℕ} (h : Follows t live []) : live = [] := by
  simpa using h.terms

theorem Follows.one {t price : ℕ} {o : Resting MEOrderIds} (h : Follows t live [(price, o)]) :
    ∃ u, live = [u] ∧ u.tickerId = t ∧ u.orderId = o.ident.marketOrderId ∧ u.side = o.side ∧
      u.price = price ∧ u.qty = o.qty := by
  have hterms := h.terms
  simp only [List.map_cons, List.map_nil, List.map_eq_singleton_iff] at hterms
  obtain ⟨u, hu, he⟩ := hterms
  simp only [updateTerms, OpenOrder.terms, openOf, Prod.mk.injEq] at he
  exact ⟨u, hu, h.ticker u (by simp [hu]), he⟩

theorem Fed.trade {u : MEMarketUpdate} (h : Fed us live) (ht : u.type = .trade)
    (htid : u.tickerId < meMaxTickers) (hlen : live.length + 1 < meMaxOrderIds) :
    Fed (us ++ [u]) live := by
  have hacc : Accepts live u := by
    refine ⟨htid, ?_⟩
    rw [ht]
    trivial
  have hsnoc := h.snoc hacc hlen
  simpa only [keep, ht] using hsnoc

theorem Traded.fed (h : Traded i qty q leaves q' out) (hfed : Fed us live)
    (ht : i.tickerId < meMaxTickers) (hf : Follows i.tickerId live q) :
    ∃ live', Fed (us ++ updates out) live' ∧ Follows i.tickerId live' q' := by
  cases h with
  | passes _ =>
    refine ⟨live, ?_, hf⟩
    simpa [updates] using hfed
  | @fills price o hq ho =>
    obtain ⟨u, rfl, hut, huid, hus, -, -⟩ := hf.one
    have hlen : [u].length + 1 < meMaxOrderIds := show 1 + 1 < meMaxOrderIds by decide
    have htrade := Fed.trade (u := ⟨.trade, orderIdInvalid, i.tickerId, i.side, price,
      min qty o.qty, priorityInvalid⟩) hfed rfl ht hlen
    have hcancel := htrade.snoc (u := ⟨.cancel, o.ident.marketOrderId, i.tickerId, o.side, price,
      o.qty, priorityInvalid⟩) ⟨ht, u, by simp, ⟨hut, huid⟩, hus⟩ hlen
    rw [List.append_assoc] at hcancel
    refine ⟨[], ?_, ⟨rfl, by simp⟩⟩
    simpa [tradeMessages, updates, ho, keep, Names, hut, huid] using hcancel
  | @reduces price o hq ho =>
    obtain ⟨u, rfl, hut, huid, hus, hup, -⟩ := hf.one
    have hno : ¬o.qty ≤ qty := Nat.not_le.mpr ho
    have hlen : [u].length + 1 < meMaxOrderIds := show 1 + 1 < meMaxOrderIds by decide
    have htrade := Fed.trade (u := ⟨.trade, orderIdInvalid, i.tickerId, i.side, price,
      min qty o.qty, priorityInvalid⟩) hfed rfl ht hlen
    have hmodify := htrade.snoc (u := ⟨.modify, o.ident.marketOrderId, i.tickerId, o.side, price,
      o.qty - min qty o.qty, o.priority⟩) ⟨ht, u, by simp, ⟨hut, huid⟩, hus⟩ hlen
    rw [List.append_assoc] at hmodify
    refine ⟨[{ u with qty := o.qty - qty, price := price }], ?_, ?_⟩
    · simpa [tradeMessages, updates, hno, keep, Names, hut, huid, Nat.min_eq_left ho.le] using hmodify
    · constructor
      · simp [updateTerms, OpenOrder.terms, openOf, huid, hus]
      · simp [hut]

theorem Traded.kept (h : Traded i qty q leaves q' out) (hpos : ∀ y ∈ q, y.2.qty ≠ 0) :
    q'.length ≤ q.length ∧ ∀ x ∈ q', x.2.qty ≠ 0 ∧ ∃ y ∈ q, core x.2 = core y.2 := by
  cases h with
  | passes _ => exact ⟨le_rfl, fun x hx => ⟨hpos x hx, x, hx, rfl⟩⟩
  | fills hq ho => simp
  | @reduces price o hq ho =>
    refine ⟨le_rfl, fun x hx => ?_⟩
    rw [List.mem_singleton.mp hx]
    exact ⟨Nat.sub_ne_zero_of_lt ho, (price, o), by simp, rfl⟩

theorem Traded.alone (h : Traded i qty q leaves q' out) (hleaves : leaves ≠ 0)
    (halone : ((tradable (q.map openOf) i.side i.price).map (·.leavesQty)).sum < qty →
      tradable (q.map openOf) i.side i.price = q.map openOf) : q' = [] := by
  cases h with
  | passes hp =>
    have hnone := hp.resolve_left hleaves
    rw [hnone] at halone
    have hq := halone (Nat.pos_of_ne_zero hleaves)
    simpa using hq.symm
  | fills hq ho => rfl
  | reduces hq ho => exact (hleaves rfl).elim

/-- What a run keeps: the book has at most one order, which is the open order
and the one that the synthesizer holds. -/
structure Followed (t : ℕ) (used : List ClientOrderKey) (s : Session) (S : Shape MEOrderIds)
    (d : Bool) (q : List (ℕ × Resting MEOrderIds)) (live : List MEMarketUpdate) : Prop where
  rep : Rep s.book S
  nextId : s.book.nextMarketOrderId = 1
  queue : Shape.queue (S d) = q
  other : S (!d) = []
  length : q.length ≤ 1
  side : ∀ x ∈ q, (x.2.side == .buy) = d
  qty : ∀ x ∈ q, x.2.qty ≠ 0
  mem_used : ∀ x ∈ q, (openOf x).key ∈ used
  marketId : ∀ x ∈ q, x.2.ident.marketOrderId = 1
  orders : openOrders s.sent = q.map openOf
  fed : Fed (updates s.sent) live
  follows : Follows t live q

end Followed

section Steps
variable {t : ℕ} {used : List ClientOrderKey} {s : Session} {S : Shape MEOrderIds} {d : Bool}
  {q : List (ℕ × Resting MEOrderIds)} {live : List MEMarketUpdate}

theorem followed_init (t : ℕ) : Followed t [] (Session.init t) (fun _ => []) true [] [] := by
  constructor
  · exact ⟨shaped_init, indexed_init meBookKind, fun o ho => by simp at ho⟩
  · rfl
  · rfl
  · rfl
  · exact Nat.zero_le _
  · simp
  · simp
  · simp
  · simp
  · rfl
  · exact fed_nil
  · exact ⟨rfl, by simp⟩

/-- Table and open orders agree where a run is followed. -/
theorem Followed.mirrors (h : Followed t used s S d q live) :
    ∃ syn, run addToSnapshot SnapshotSynthesizer.init (publish (updates s.sent)) = .ok syn ∧
      Mirrors syn t (openOrders s.sent) := by
  obtain ⟨syn, held, hrun, hs, hheld, -⟩ := h.fed
  refine ⟨syn, hrun, ?_⟩
  have hlen := h.length
  rw [h.orders]
  rcases q with _ | ⟨⟨p, o⟩, q⟩
  · have hlive := h.follows.nil
    rw [hlive, List.map_eq_nil_iff] at hheld
    subst hheld
    refine ⟨List.nodup_nil, fun id => ?_⟩
    have hnone : syn.tickerOrders t id = none := by
      cases hget : syn.tickerOrders t id with
      | none => rfl
      | some p =>
        obtain ⟨x, hx, -⟩ := (hs.table t id p).mp hget
        simp at hx
    rw [hnone]
    rfl
  · rw [List.length_cons] at hlen
    obtain rfl : q = [] := List.length_eq_zero_iff.mp (by omega)
    obtain ⟨u, hlive, hut, huid, hus, hup, huq⟩ := h.follows.one
    rw [hlive, List.map_eq_singleton_iff] at hheld
    obtain ⟨x, rfl, rfl⟩ := hheld
    refine ⟨List.nodup_singleton _, fun id => ?_⟩
    by_cases hid : o.ident.marketOrderId = id
    · have hget := (hs.table t id x.1).mpr ⟨x, by simp, rfl, hut, huid.trans hid⟩
      rw [hget]
      simp [hs.data x (by simp), openOf, hid, updateTerms, OpenOrder.terms, huid, hus, hup, huq]
    · have hnone : syn.tickerOrders t id = none := by
        cases hget : syn.tickerOrders t id with
        | none => rfl
        | some p =>
          obtain ⟨y, hy, -, -, hyid⟩ := (hs.table t id p).mp hget
          rw [List.mem_singleton.mp hy, huid] at hyid
          exact (hid hyid).elim
      rw [hnone]
      simp [openOf, hid]

theorem Followed.orders_perm (h : Followed t used s S d q live) :
    S.orders.Perm (q.map Prod.snd) := by
  have hperm := S.orders_perm d
  rw [h.other, List.flatMap_nil, List.append_nil, ← Shape.queue_orders, h.queue] at hperm
  exact hperm

/-- The first order of an empty book. -/
theorem queue_of_added {S₁ S' : Shape MEOrderIds} {e : Bool} {price : ℕ} {o : Resting MEOrderIds}
    (h : OrderAdded S₁ S' e price o) (hnil : ∀ e, S₁ e = []) :
    Shape.queue (S' e) = [(price, o)] ∧ S' (!e) = [] := by
  have hother : S' (!e) = [] := h.other.trans (hnil _)
  have horders : S₁.orders = [] := by
    simp [Shape.orders, Shape.levels, hnil]
  have hperm := (S'.orders_perm e).symm.trans h.perm
  rw [hother, List.flatMap_nil, List.append_nil, horders, ← Shape.queue_orders,
    List.perm_singleton] at hperm
  have hcont := h.contents e price
  rw [Shape.contents, Shape.contents, hnil, Shape.ordersAt_eq_queue] at hcont
  refine ⟨?_, hother⟩
  obtain ⟨⟨p, o'⟩, hq, rfl⟩ := List.map_eq_singleton_iff.mp hperm
  rw [hq] at hcont ⊢
  by_cases hp : p = price
  · rw [hp]
  · simp [hp, Shape.ordersAt] at hcont

theorem rest_empty {m : MEOrderBook} {price : ℕ} (cid oid mid leaves : ℕ) (side : Side)
    (h : Rep m S) (hempty : ∀ e, S e = []) (hp : price < meMaxPriceLevels) :
    m.getNextPriority price = .ok 1 ∧
    ((∃ m' S' p, m.restOrder { ident := ⟨t, cid, oid, mid⟩, side := side, price := price
                               qty := leaves, priority := 1 } = .ok m' ∧
        Rep m' S' ∧ m'.nextMarketOrderId = m.nextMarketOrderId ∧ S' (!(side == .buy)) = [] ∧
        Shape.queue (S' (side == .buy)) = [(price, ⟨p, ⟨t, cid, oid, mid⟩, side, leaves, 1⟩)]) ∨
      ∃ f, m.restOrder { ident := ⟨t, cid, oid, mid⟩, side := side, price := price
                         qty := leaves, priority := 1 } = .error f ∧
        ¬(cid < meMaxNumClients ∧ oid < meMaxOrderIds)) := by
  have horders : S.orders = [] := by
    simp [Shape.orders, Shape.levels, hempty]
  have hfull : ¬Full S := by
    simp [Full, Shape.orders, Shape.levels, hempty, meMaxOrderIds, meMaxPriceLevels]
  have hcan : CanRest S (side == .buy) side price := by
    constructor
    · rfl
    · exact .inr (hempty _)
    · simp [hempty]
    · simp [hempty]
    · intro _ M w hS
      simp [hempty] at hS
  have hprio := getNextPriority_spec (e := side == .buy) h hp (by simp [hempty])
  rw [Shape.contents, hempty] at hprio
  refine ⟨hprio, ?_⟩
  cases hcheck : checkClientOrderKey (cid, oid) with
  | ok _ =>
    left
    rcases @rest_spec m S (side == .buy) price side cid oid t mid leaves 1 h hcan hp hcheck
        (by simp [horders]) with ⟨m', S', p, hrest, hrep', -, hid', hadded⟩ | ⟨-, hf⟩
    · obtain ⟨hq', ho'⟩ := queue_of_added hadded hempty
      exact ⟨m', S', p, hrest, hrep', hid', ho', hq'⟩
    · exact (hfull hf).elim
  | error f =>
    right
    refine ⟨f, ?_, ?_⟩
    · rcases @rest_outOfRange m S (side == .buy) price side cid oid t mid leaves 1 h hcan hp f
        hcheck with herr | ⟨-, hf⟩
      · exact herr
      · exact (hfull hf).elim
    · rintro ⟨hc, ho⟩
      rw [checkClientOrderKey_ok hc ho] at hcheck
      cases hcheck

theorem Followed.answered {m' : MEOrderBook} {q' : List (ℕ × Resting MEOrderIds)}
    {S' : Shape MEOrderIds} {used' : List ClientOrderKey} {out : List Outgoing}
    (h : Followed t used s S d q live) (hused : ∀ k ∈ used, k ∈ used') (hrep : Rep m' S')
    (hid : m'.nextMarketOrderId = 1) (hq : Shape.queue (S' d) = q') (ho : S' (!d) = [])
    (hkept : q'.length ≤ q.length ∧ ∀ x ∈ q', x.2.qty ≠ 0 ∧ ∃ y ∈ q, core x.2 = core y.2)
    (horders : (responses out).foldl answer (q.map openOf) = q'.map openOf)
    {live' : List MEMarketUpdate} (hfed : Fed (updates (s.sent ++ out)) live')
    (hf : Follows t live' q') : Followed t used' ⟨m', s.sent ++ out⟩ S' d q' live' := by
  constructor
  · exact hrep
  · exact hid
  · exact hq
  · exact ho
  · exact hkept.1.trans h.length
  · intro x hx
    obtain ⟨-, y, hy, hc⟩ := hkept.2 x hx
    have hs : x.2.side = y.2.side := congrArg (fun z => z.2.2.1) hc
    rw [hs]
    exact h.side y hy
  · exact fun x hx => (hkept.2 x hx).1
  · intro x hx
    obtain ⟨-, y, hy, hc⟩ := hkept.2 x hx
    have hi : x.2.ident = y.2.ident := congrArg (fun z => z.2.1) hc
    have hkey : (openOf x).key = (openOf y).key := by
      simp only [openOf, key, hi]
    rw [hkey]
    exact hused _ (h.mem_used y hy)
  · intro x hx
    obtain ⟨-, y, hy, hc⟩ := hkept.2 x hx
    have hi : x.2.ident = y.2.ident := congrArg (fun z => z.2.1) hc
    rw [hi]
    exact h.marketId y hy
  · rw [openOrders_append, h.orders]
    exact horders
  · exact hfed
  · exact hf

theorem followed_add {cid oid price qty : ℕ} {side : Side} (h : Followed t used s S d q live)
    (ht : t < meMaxTickers) (hp : price < meMaxPriceLevels) (hnew : (cid, oid) ∉ used)
    (halone : RestsAlone s (.add cid oid t side price qty)) :
    (∃ s' S' d' q' live', s.step (.add cid oid t side price qty) = .ok s' ∧
      Followed t ((cid, oid) :: used) s' S' d' q' live') ∨
    ∃ f, s.step (.add cid oid t side price qty) = .error f ∧
      ¬(Request.add cid oid t side price qty).Fits := by
  set i : Incoming := ⟨cid, oid, t, side, price, s.book.nextMarketOrderId % 2 ^ 32⟩ with hi
  obtain ⟨m₁, S₁, leaves, q₁, out, hok, hrep₁, hid₁, hq₁, ho₁, htraded⟩ :=
    checkForMatch_alone h.rep h.queue h.other h.length h.side i qty
  have hid : s.book.nextMarketOrderId = 1 := h.nextId
  have hadd := add_eq _ hok
  have hkeys : ∀ x ∈ q, (openOf x).key ≠ (cid, oid) :=
    fun x hx he => hnew (he ▸ h.mem_used x hx)
  have hans := htraded.answers s.book.nextMarketOrderId hkeys h.qty
  obtain ⟨live₁, hfed₁, hf₁⟩ := htraded.fed h.fed ht h.follows
  have hkept := htraded.kept h.qty
  by_cases hleaves : leaves = 0
  · left
    refine ⟨⟨m₁, s.sent ++ acceptance cid oid t s.book.nextMarketOrderId side price qty :: out⟩,
      S₁, d, q₁, live₁, ?_, ?_⟩
    · rw [if_pos hleaves] at hadd
      simp only [Session.step, handle, hadd]
      rfl
    · apply h.answered (fun k hk => List.mem_cons_of_mem _ hk) hrep₁ (hid₁.trans hid) hq₁ ho₁ hkept
      · rw [if_pos hleaves, List.append_nil] at hans
        exact hans
      · rw [updates_append]
        exact hfed₁
      · exact hf₁
  · have hnil : q₁ = [] := by
      apply htraded.alone hleaves
      rw [← h.orders]
      exact halone
    subst hnil
    have hempty : ∀ e, S₁ e = [] := Shape.forall_side d (hrep₁.eq_nil_of_queue hq₁) ho₁
    obtain ⟨hprio, hrest⟩ := rest_empty (t := t) cid oid
      s.book.nextMarketOrderId leaves side hrep₁ hempty hp
    rw [if_neg hleaves, hprio] at hadd
    rw [if_neg hleaves, List.map_nil, List.nil_append] at hans
    simp only [Except.bind] at hadd
    rcases hrest with ⟨m', S', p, hrest, hrep', hid', ho', hq'⟩ | ⟨f, herr, hfits⟩
    · left
      rw [hrest] at hadd
      set u : MEMarketUpdate := ⟨.add, s.book.nextMarketOrderId, t, side, price, leaves, 1⟩ with hu
      have hlive : live₁ = [] := hf₁.nil
      subst hlive
      have hsnoc := hfed₁.snoc (u := u) ⟨ht, by simp [hu, hid, meMaxOrderIds]⟩ (by decide)
      refine ⟨⟨m', s.sent ++ (acceptance cid oid t s.book.nextMarketOrderId side price qty ::
        out ++ [.update u])⟩, S', side == .buy,
        [(price, ⟨p, ⟨t, cid, oid, s.book.nextMarketOrderId⟩, side, leaves, 1⟩)], [u], ?_, ?_⟩
      · simp only [Session.step, handle, hadd]
        rfl
      · constructor
        · exact hrep'
        · exact hid'.trans (hid₁.trans hid)
        · exact hq'
        · exact ho'
        · exact le_rfl
        · simp
        · simpa using hleaves
        · simp [openOf, key]
        · simpa using hid
        · rw [openOrders_append, h.orders, responses_append, List.foldl_append, hans]
          rfl
        · rw [updates_append, updates_append, ← List.append_assoc]
          exact hsnoc
        · exact ⟨rfl, by simp [hu]⟩
    · right
      rw [herr] at hadd
      refine ⟨f, ?_, hfits⟩
      simp only [Session.step, handle, hadd]
      rfl

theorem Followed.rejected (h : Followed t used s S d q live) (cid oid : ℕ) :
    Followed t used ⟨s.book, s.sent ++ [rejection cid oid t]⟩ S d q live := by
  apply h.answered (fun _ hk => hk) h.rep h.nextId h.queue h.other
  · exact ⟨le_rfl, fun x hx => ⟨h.qty x hx, x, hx, rfl⟩⟩
  · rfl
  · have hfed := h.fed
    rw [updates_append]
    simpa [updates, rejection] using hfed
  · exact h.follows

theorem followed_cancel (cid oid : ℕ) (h : Followed t used s S d q live) (ht : t < meMaxTickers) :
    (∃ s' S' d' q' live', s.step (.cancel cid oid t) = .ok s' ∧
      Followed t used s' S' d' q' live') ∨
    ∃ f, s.step (.cancel cid oid t) = .error f ∧ ¬(Request.cancel cid oid t).Fits := by
  by_cases hc : cid < meMaxNumClients
  swap
  · left
    refine ⟨⟨s.book, s.sent ++ [rejection cid oid t]⟩, S, d, q, live, ?_, h.rejected cid oid⟩
    simp [Session.step, handle, cancel, hc, rejection, bind, Except.bind, pure, Except.pure]
  by_cases ho : oid < meMaxOrderIds
  swap
  · right
    refine ⟨.outOfRange "cid_oid_to_order_", ?_, ho⟩
    simp [Session.step, handle, cancel, hc, at?, ho, bind, Except.bind]
  left
  rcases cancel_spec t h.rep hc ho with
    ⟨hok, -⟩ | ⟨m', S', e, u, L, w, x, o, y, out, hok, hrep, -, hid, hkey, hS, hxy, hgone, hout⟩
  · refine ⟨_, S, d, q, live, ?_, h.rejected cid oid⟩
    simp only [Session.step, handle, hok]
    rfl
  · have hperm := h.orders_perm.symm.trans hgone.perm
    have hlen := hperm.length_eq
    have hlenq := h.length
    rw [List.length_map, List.length_cons] at hlen
    have horders : S'.orders = [] := List.length_eq_zero_iff.mp (by omega)
    rw [horders, List.perm_singleton] at hperm
    obtain ⟨⟨p, o'⟩, rfl, rfl⟩ := List.map_eq_singleton_iff.mp hperm
    have hempty := hrep.eq_nil_of_orders horders
    obtain ⟨v, rfl, hvt, hvid, hvs, -, -⟩ := h.follows.one
    have hfed := h.fed.snoc (u := ⟨.cancel, o'.ident.marketOrderId, t, o'.side, L.price, 0,
      o'.priority⟩) ⟨ht, v, by simp, ⟨hvt, hvid⟩, hvs⟩ (show 1 + 1 < meMaxOrderIds by decide)
    have hk : (openOf (p, o')).key = (cid, oid) := hkey
    refine ⟨⟨m', s.sent ++ out⟩, S', d, [], [], ?_, ?_⟩
    · simp only [Session.step, handle, hok]
      rfl
    · apply h.answered (fun _ hk => hk) hrep (hid.trans h.nextId)
      · rw [hempty]
        rfl
      · exact hempty _
      · simp
      · rw [hout]
        simp [responses, answer, hk]
      · rw [updates_append, hout]
        simpa [updates, keep, Names, hvt, hvid] using hfed
      · exact ⟨rfl, by simp⟩

/-- As long as every order that comes to rest does so alone, the synthesizer
takes the stream of the book, and its table has exactly the open orders. -/
theorem run_mirrors (t : ℕ) (ht : t < meMaxTickers) (rs : List Request)
    (hticker : ∀ r ∈ rs, r.OnTicker t) (hkeys : (rs.filterMap Request.newKey).Nodup)
    (halone : Meets Session.step RestsAlone (Session.init t) rs) :
    (∃ s, run Session.step (Session.init t) rs = .ok s ∧
      ∃ syn, run addToSnapshot SnapshotSynthesizer.init (publish (updates s.sent)) = .ok syn ∧
        Mirrors syn t (openOrders s.sent)) ∨
    ∃ f, run Session.step (Session.init t) rs = .error f ∧ ∃ r ∈ rs, ¬r.Fits := by
  have hrun := run_progress_history (E := fun _ => ∃ r ∈ rs, ¬r.Fits)
    (Q := fun done s => ∃ S d q live,
      Followed t (done.filterMap Request.newKey).reverse s S d q live)
    ⟨_, _, _, _, followed_init t⟩ halone ?_
  · rcases hrun with ⟨s, hok, S, d, q, live, hs⟩ | ⟨f, herr, hr⟩
    · exact .inl ⟨s, hok, hs.mirrors⟩
    · exact .inr ⟨f, herr, hr⟩
  · rintro done r s hpre ⟨S, d, q, live, hs⟩ hr
    have hmem : r ∈ rs := hpre.subset (by simp)
    have hon := hticker r hmem
    have hnd := hkeys.sublist (hpre.filterMap Request.newKey).sublist
    rw [List.filterMap_append] at hnd ⊢
    cases r with
    | cancel cid oid tid =>
      obtain rfl : tid = t := hon
      rcases followed_cancel cid oid hs ht with
        ⟨s', S', d', q', live', hok, hs'⟩ | ⟨f, herr, hfits⟩
      · left
        exact ⟨s', hok, S', d', q', live', by
          simpa [List.filterMap_cons, Request.newKey] using hs'⟩
      · exact .inr ⟨f, herr, _, hmem, hfits⟩
    | add cid oid tid side price qty =>
      obtain ⟨rfl, hp⟩ := hon
      have hnew : (cid, oid) ∉ (done.filterMap Request.newKey).reverse := by
        rw [List.mem_reverse]
        intro hm
        exact (List.nodup_append.mp hnd).2.2 _ hm (cid, oid) (by simp [Request.newKey]) rfl
      rcases followed_add hs ht hp hnew hr with
        ⟨s', S', d', q', live', hok, hs'⟩ | ⟨f, herr, hfits⟩
      · left
        exact ⟨s', hok, S', d', q', live', by simpa [Request.newKey] using hs'⟩
      · exact .inr ⟨f, herr, _, hmem, hfits⟩

/-- A sell that rests, a buy that takes all of it and rests with what is left, and
the cancellation of the buy. -/
theorem run_mirrors_one_at_a_time :
    (∃ s, run Session.step (Session.init 3) [.add 0 0 3 .sell 10 5, .add 1 0 3 .buy 10 8,
        .cancel 1 0 3] = .ok s ∧
      ∃ syn, run addToSnapshot SnapshotSynthesizer.init (publish (updates s.sent)) = .ok syn ∧
        Mirrors syn 3 (openOrders s.sent)) ∨
    ∃ f, run Session.step (Session.init 3) [.add 0 0 3 .sell 10 5, .add 1 0 3 .buy 10 8,
        .cancel 1 0 3] = .error f ∧
      ∃ r ∈ ([.add 0 0 3 .sell 10 5, .add 1 0 3 .buy 10 8, .cancel 1 0 3] : List Request),
        ¬r.Fits := by
  apply run_mirrors
  · decide
  · simp [Request.OnTicker, meMaxPriceLevels]
  · decide
  · decide

/-- Two bids at different prices have one market order id. -/
theorem second_order_trips_assertion :
    (∀ r ∈ ([.add 0 0 0 .buy 10 5, .add 0 1 0 .buy 11 5] : List Request), r.OnTicker 0) ∧
      (([.add 0 0 0 .buy 10 5, .add 0 1 0 .buy 11 5] : List Request).filterMap
        Request.newKey).Nodup ∧
      ∃ s, run Session.step (Session.init 0) [.add 0 0 0 .buy 10 5, .add 0 1 0 .buy 11 5] =
          .ok s ∧
        (openOrders s.sent).map (·.marketOrderId) = [1, 1] ∧
        ∀ syn, run addToSnapshot SnapshotSynthesizer.init (publish (updates s.sent)) ≠ .ok syn := by
  have hsent : (run Session.step (Session.init 0)
      [.add 0 0 0 .buy 10 5, .add 0 1 0 .buy 11 5]).map (fun s =>
        ((openOrders s.sent).map (·.marketOrderId), updates s.sent)) =
      .ok ([1, 1], [⟨.add, 1, 0, .buy, 10, 5, 1⟩, ⟨.add, 1, 0, .buy, 11, 5, 1⟩]) := by
    decide
  have hfails : (run addToSnapshot SnapshotSynthesizer.init (publish
      [⟨.add, 1, 0, .buy, 10, 5, 1⟩, ⟨.add, 1, 0, .buy, 11, 5, 1⟩])).toOption.isNone = true := by
    decide
  refine ⟨?_, by decide, ?_⟩
  · simp [Request.OnTicker, meMaxPriceLevels]
  · obtain ⟨s, hrun, hpair⟩ := map_eq_ok hsent
    simp only [Prod.mk.injEq] at hpair
    refine ⟨s, hrun, hpair.1, fun syn hok => ?_⟩
    rw [← hpair.2, hok] at hfails
    cases hfails

end Steps

end MEOrderBook

end HighPerformance
