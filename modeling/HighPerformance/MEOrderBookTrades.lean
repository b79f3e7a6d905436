import HighPerformance.MEOrderBookGreedy
import HighPerformance.MEOrderBookOwnership
import HighPerformance.PriceLevelReach

/-!
# What a call of the order book trades with

The resting orders that the matching loop meets, as the messages report them, and what is true of
every order that a call leaves in the book. Nothing is assumed of the rings.
-/

namespace HighPerformance.MEOrderBook
open LevelBook FallibleRun

/-- The trade with the order in block `itr`. -/
def fillWith (m : MEOrderBook) (itr : Ptr) (leavesQty : ℕ) : Fill :=
  let order := m.book.order itr
  ⟨order.price, ⟨itr, order.ident, order.side, order.qty, order.priority⟩, leavesQty⟩

/-- The trades of the matching loop, with the orders that it meets. -/
def loopTrades (i : Incoming) (bids : Bool) (stops : ℕ → Bool) :
    ℕ → MEOrderBook → ℕ → List Fill
  | 0, _, _ => []
  | fuel + 1, m, leavesQty =>
      if leavesQty = 0 then []
      else match m.book.best bids with
        | none => []
        | some l =>
            match (m.book.level l).firstOrder with
            | none => []
            | some itr =>
                if stops (m.book.order itr).price then []
                else match matchOrder m i itr leavesQty with
                  | .error _ => []
                  | .ok r => m.fillWith itr leavesQty :: loopTrades i bids stops fuel r.1 r.2.1

/-- The trades of `checkForMatch`. -/
def trades (m : MEOrderBook) (i : Incoming) (qty : ℕ) : List Fill :=
  let fuel := m.book.orderPool.size + 2
  match i.side with
  | .buy => loopTrades i false (fun ask => decide (i.price < ask)) fuel m qty
  | .sell => loopTrades i true (fun bid => decide (i.price > bid)) fuel m qty
  | _ => []

section Trades
variable {m : MEOrderBook} {P : MEOrderIds → Prop} {i : Incoming} {qty fuel : ℕ} {p : Ptr}
  {bids : Bool} {stops : ℕ → Bool} {x : MEOrderBook × ℕ × List Outgoing}

theorem matchOrder_messages (hok : matchOrder m i p qty = .ok x) :
    x.2.2 = (m.fillWith p qty).messages i := by
  have hfilled : (m.book.order p).qty - min qty (m.book.order p).qty = 0 ↔
      (m.book.order p).qty ≤ qty := by omega
  simp only [matchOrder] at hok
  split at hok
  next h =>
    obtain ⟨m₁, -, hok⟩ := bind_eq_ok.mp hok
    cases hok
    simp only [Fill.messages, tradeMessages, fillWith, if_pos (hfilled.mp h), h]
    rfl
  next h =>
    cases hok
    have hmore : ¬(m.book.order p).qty ≤ qty := mt hfilled.mpr h
    simp only [Fill.messages, tradeMessages, fillWith, hmore, if_false]
    rfl

theorem matchOrder_leaves (hok : matchOrder m i p qty = .ok x) :
    x.2.1 + (m.fillWith p qty).execQty = qty := by
  have hleaves : x.2.1 = qty - min qty (m.book.order p).qty := by
    simp only [matchOrder] at hok
    split at hok
    · obtain ⟨m₁, -, hok⟩ := bind_eq_ok.mp hok
      cases hok
      rfl
    · cases hok
      rfl
  simp only [hleaves, Fill.execQty, fillWith]
  omega

/-- A turn of the loop: it ends, or it trades with the first order of the best level. -/
theorem matchLoop_cases (hok : matchLoop i bids stops (fuel + 1) m qty = .ok x) :
    (x = (m, qty, []) ∧ loopTrades i bids stops (fuel + 1) m qty = []) ∨
      ∃ l itr r s, (m.book.level l).firstOrder = some itr ∧ matchOrder m i itr qty = .ok r ∧
        matchLoop i bids stops fuel r.1 r.2.1 = .ok s ∧ x = (s.1, s.2.1, r.2.2 ++ s.2.2) ∧
        loopTrades i bids stops (fuel + 1) m qty =
          m.fillWith itr qty :: loopTrades i bids stops fuel r.1 r.2.1 := by
  unfold matchLoop at hok
  unfold loopTrades
  split at hok
  next h0 =>
    cases hok
    exact .inl ⟨rfl, if_pos h0⟩
  next h0 =>
    rw [if_neg h0]
    cases hbest : m.book.best bids with
    | none =>
      simp only [hbest] at hok
      cases hok
      exact .inl ⟨rfl, rfl⟩
    | some l =>
      simp only [hbest] at hok
      obtain ⟨itr, hitr, hok⟩ := bind_eq_ok.mp hok
      have hfirst : (m.book.level l).firstOrder = some itr := by
        cases hq : (m.book.level l).firstOrder with
        | none =>
          rw [hq] at hitr
          cases hitr
        | some q =>
          rw [hq] at hitr
          cases hitr
          rfl
      simp only [hfirst]
      split at hok
      next hstops =>
        cases hok
        exact .inl ⟨rfl, if_pos hstops⟩
      next hstops =>
        obtain ⟨r, hr, hok⟩ := bind_eq_ok.mp hok
        obtain ⟨s, hs, hok⟩ := bind_eq_ok.mp hok
        cases hok
        refine .inr ⟨l, itr, r, s, hfirst, hr, hs, rfl, ?_⟩
        rw [if_neg hstops]
        simp only [hr]
        cases fuel <;> rfl

/-- The messages of the loop are those of its trades. -/
theorem matchLoop_messages (hok : matchLoop i bids stops fuel m qty = .ok x) :
    x.2.2 = (loopTrades i bids stops fuel m qty).flatMap (Fill.messages i) := by
  induction fuel generalizing m qty x with
  | zero => cases hok
  | succ fuel ih =>
    rcases matchLoop_cases hok with ⟨rfl, ht⟩ | ⟨l, itr, r, s, -, hr, hs, rfl, ht⟩
    · rw [ht]
      rfl
    · rw [ht, List.flatMap_cons, ← matchOrder_messages hr, ← ih hs]

theorem matchLoop_leaves (hok : matchLoop i bids stops fuel m qty = .ok x) :
    x.2.1 + ((loopTrades i bids stops fuel m qty).map Fill.execQty).sum = qty := by
  induction fuel generalizing m qty x with
  | zero => cases hok
  | succ fuel ih =>
    rcases matchLoop_cases hok with ⟨rfl, ht⟩ | ⟨l, itr, r, s, -, hr, hs, rfl, ht⟩
    · rw [ht]
      rfl
    · calc
        s.2.1 + ((loopTrades i bids stops (fuel + 1) m qty).map Fill.execQty).sum
            = s.2.1 + ((loopTrades i bids stops fuel r.1 r.2.1).map Fill.execQty).sum +
                (m.fillWith itr qty).execQty := by
              rw [ht, List.map_cons, List.sum_cons, Nat.add_assoc, Nat.add_comm (Fill.execQty _)]
        _ = r.2.1 + (m.fillWith itr qty).execQty := by rw [ih hs]
        _ = qty := matchOrder_leaves hr

theorem holds_matchOrder (h : HoldsOnly P m.book) (hok : m.matchOrder i p qty = .ok x) :
    HoldsOnly P x.1.book :=
  matchOrder_invariant (fun _ p q hb => hb.setQty p q) (fun _ _ _ hb hr => hb.removeOrder hr) h hok

theorem matchLoop_holds (h : HoldsOnly P m.book)
    (hok : matchLoop i bids stops fuel m qty = .ok x) :
    ∀ t ∈ loopTrades i bids stops fuel m qty, P t.order.ident := by
  induction fuel generalizing m qty x with
  | zero => cases hok
  | succ fuel ih =>
    rcases matchLoop_cases hok with ⟨-, ht⟩ | ⟨l, itr, r, s, hfirst, hr, hs, -, ht⟩
    · rw [ht]
      exact nofun
    · intro t hmem
      rw [ht] at hmem
      rcases List.mem_cons.mp hmem with rfl | hmem
      · exact h.first l itr hfirst
      · exact ih (holds_matchOrder h hr) hs t hmem

theorem matchLoop_untouched (hok : matchLoop i bids stops fuel m qty = .ok x)
    (hnone : loopTrades i bids stops fuel m qty = []) : x = (m, qty, []) := by
  cases fuel with
  | zero => cases hok
  | succ fuel =>
    rcases matchLoop_cases hok with ⟨hx, -⟩ | ⟨l, itr, r, s, -, -, -, -, ht⟩
    · exact hx
    · rw [ht] at hnone
      exact absurd hnone (List.cons_ne_nil _ _)

theorem checkForMatch_cases (m : MEOrderBook) (i : Incoming) (qty : ℕ) :
    (∃ bids stops fuel, m.checkForMatch i qty = matchLoop i bids stops fuel m qty ∧
      m.trades i qty = loopTrades i bids stops fuel m qty) ∨
    (m.checkForMatch i qty = .ok (m, qty, []) ∧ m.trades i qty = []) := by
  unfold checkForMatch trades
  cases i.side with
  | buy => exact .inl ⟨_, _, _, rfl, rfl⟩
  | sell => exact .inl ⟨_, _, _, rfl, rfl⟩
  | _ => exact .inr ⟨rfl, rfl⟩

theorem checkForMatch_messages (hok : m.checkForMatch i qty = .ok x) :
    x.2.2 = (m.trades i qty).flatMap (Fill.messages i) := by
  rcases checkForMatch_cases m i qty with ⟨_, _, _, hm, ht⟩ | ⟨hm, ht⟩
  · rw [hm] at hok
    rw [ht]
    exact matchLoop_messages hok
  · rw [hm] at hok
    cases hok
    rw [ht]
    rfl

theorem checkForMatch_leaves (hok : m.checkForMatch i qty = .ok x) :
    x.2.1 + ((m.trades i qty).map Fill.execQty).sum = qty := by
  rcases checkForMatch_cases m i qty with ⟨_, _, _, hm, ht⟩ | ⟨hm, ht⟩
  · rw [hm] at hok
    rw [ht]
    exact matchLoop_leaves hok
  · rw [hm] at hok
    cases hok
    rw [ht]
    rfl

theorem checkForMatch_holds (h : HoldsOnly P m.book) (hok : m.checkForMatch i qty = .ok x) :
    ∀ f ∈ m.trades i qty, P f.order.ident := by
  rcases checkForMatch_cases m i qty with ⟨_, _, _, hm, ht⟩ | ⟨-, ht⟩
  · rw [hm] at hok
    rw [ht]
    exact matchLoop_holds h hok
  · rw [ht]
    exact nofun

theorem checkForMatch_untouched (hok : m.checkForMatch i qty = .ok x)
    (hnone : m.trades i qty = []) : x = (m, qty, []) := by
  rcases checkForMatch_cases m i qty with ⟨_, _, _, hm, ht⟩ | ⟨hm, -⟩
  · rw [hm] at hok
    rw [ht] at hnone
    exact matchLoop_untouched hok hnone
  · rw [hm] at hok
    exact (Except.ok.inj hok).symm

theorem trades_zero : m.trades i 0 = [] := by
  unfold trades
  cases i.side <;> rfl

section Add
variable {cid oid tid price : ℕ} {side : Side} {m' : MEOrderBook} {out : List Outgoing}

/-- A returning `add` has traded, and has entered what was left. -/
theorem add_eq_ok (hok : m.add cid oid tid side price qty = .ok (m', out)) :
    ∃ x, m.checkForMatch ⟨cid, oid, tid, side, price, m.nextMarketOrderId % 2 ^ 32⟩ qty = .ok x ∧
      ((x.2.1 = 0 ∧ m' = x.1 ∧
        out = acceptance cid oid tid m.nextMarketOrderId side price qty :: x.2.2) ∨
      (x.2.1 ≠ 0 ∧ ∃ priority,
        x.1.restOrder { ident := ⟨tid, cid, oid, m.nextMarketOrderId⟩, side := side, price := price
                        qty := x.2.1, priority := priority } = .ok m' ∧
        out = acceptance cid oid tid m.nextMarketOrderId side price qty :: x.2.2 ++
          [.update ⟨.add, m.nextMarketOrderId, tid, side, price, x.2.1, priority⟩])) := by
  cases hx : m.checkForMatch ⟨cid, oid, tid, side, price, m.nextMarketOrderId % 2 ^ 32⟩ qty with
  | error f =>
    simp only [add, generateNewMarketOrderId, hx, bind, Except.bind] at hok
    cases hok
  | ok x =>
    rw [add_eq x hx] at hok
    refine ⟨x, rfl, ?_⟩
    split at hok
    next h0 =>
      cases hok
      exact .inl ⟨h0, rfl, rfl⟩
    next h0 =>
      obtain ⟨priority, -, hok⟩ := bind_eq_ok.mp hok
      obtain ⟨m₁, hrest, hok⟩ := bind_eq_ok.mp hok
      cases hok
      exact .inr ⟨h0, priority, hrest, rfl⟩

theorem add_messages (hok : m.add cid oid tid side price qty = .ok (m', out)) :
    ∃ rest, out = acceptance cid oid tid m.nextMarketOrderId side price qty ::
        (m.trades ⟨cid, oid, tid, side, price, m.nextMarketOrderId % 2 ^ 32⟩ qty).flatMap
          (Fill.messages ⟨cid, oid, tid, side, price, m.nextMarketOrderId % 2 ^ 32⟩) ++ rest ∧
      ∀ u ∈ rest, ∃ leaves priority, u = .update ⟨.add, m.nextMarketOrderId, tid, side, price,
        leaves, priority⟩ := by
  obtain ⟨x, hx, ⟨-, -, rfl⟩ | ⟨-, priority, -, rfl⟩⟩ := add_eq_ok hok
  · refine ⟨[], ?_, nofun⟩
    rw [checkForMatch_messages hx, List.append_nil]
  · refine ⟨[.update ⟨.add, m.nextMarketOrderId, tid, side, price, x.2.1, priority⟩], ?_, ?_⟩
    · rw [checkForMatch_messages hx]
    · intro u hu
      exact ⟨x.2.1, priority, List.mem_singleton.mp hu⟩

theorem holds_init (tickerId : ℕ) : HoldsOnly P (init tickerId).book where
  used := by simp [init, LevelBook.init]
  entry _ := leadsTo_none
  first _ := leadsTo_none
  prev _ := leadsTo_none
  next _ := leadsTo_none

theorem holds_restOrder {order : MEOrder} (h : HoldsOnly P m.book) (hp : P order.ident)
    (hprev : order.prevOrder = none) (hnext : order.nextOrder = none)
    (hok : m.restOrder order = .ok m') : HoldsOnly P m'.book := by
  obtain ⟨p, pool, b, halloc, hadd, rfl⟩ := restOrder_eq_ok hok
  obtain ⟨hholds, hident⟩ := h.allocate hp hprev hnext halloc
  exact hholds.addOrder hident hadd

theorem holds_checkForMatch (h : HoldsOnly P m.book) (hok : m.checkForMatch i qty = .ok x) :
    HoldsOnly P x.1.book :=
  checkForMatch_invariant (fun _ p q hb => hb.setQty p q) (fun _ _ _ hb hr => hb.removeOrder hr)
    h hok

theorem holds_add (h : HoldsOnly P m.book) (hp : P ⟨tid, cid, oid, m.nextMarketOrderId⟩)
    (hok : m.add cid oid tid side price qty = .ok (m', out)) : HoldsOnly P m'.book := by
  obtain ⟨x, hx, ⟨-, rfl, -⟩ | ⟨-, priority, hrest, -⟩⟩ := add_eq_ok hok
  · exact holds_checkForMatch h hx
  · exact holds_restOrder (holds_checkForMatch h hx) hp rfl rfl hrest

theorem holds_cancel (h : HoldsOnly P m.book) (hok : m.cancel cid oid tid = .ok (m', out)) :
    HoldsOnly P m'.book := by
  rcases cancel_eq_ok hok with ⟨rfl, -, -⟩ | ⟨p, -, hr, -⟩
  · exact h
  · obtain ⟨b, hb, rfl⟩ := removeOrder_eq_ok hr
    exact h.removeOrder hb

end Add

end Trades

end HighPerformance.MEOrderBook
