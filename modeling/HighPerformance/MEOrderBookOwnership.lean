import HighPerformance.MEOrderBookInvariant
import HighPerformance.PriceLevelFrames

/-!
# Who may cancel an order

`cid_oid_to_order_` has one entry for each client and client order id. An `add`
that rests writes the entry without looking at it, so an id that is used again
while its first order still rests takes the entry away from that order.

Nothing here needs the rings to be in order: matching and cancelling give back
a block and clear an entry together, and a pool refuses to take a block twice.
-/

namespace HighPerformance.MEOrderBook
open LevelBook FallibleRun

/-- The book that `addOrder` meets when the order of a request comes to rest. -/
def restingBook (m : MEOrderBook) : Request → Option MEOrderBook
  | .add clientId clientOrderId tickerId side price qty =>
      match m.checkForMatch
        ⟨clientId, clientOrderId, tickerId, side, price, m.nextMarketOrderId % 2 ^ 32⟩ qty with
      | .ok r => if r.2.1 = 0 then none else some r.1
      | .error _ => none
  | .cancel _ _ _ => none

/-- Every resting order is the one its owner's `cancel` finds, no entry leads
anywhere else, and the owner is not rejected. -/
structure Owned (m : MEOrderBook) : Prop where
  entry : ∀ p, m.book.orderPool.isFree p = false →
    m.book.idToOrder ((m.book.order p).ident.clientId, (m.book.order p).ident.clientOrderId) = some p
  resting : ∀ key p, m.book.idToOrder key = some p → m.book.orderPool.isFree p = false
  cancel : ∀ p, m.book.orderPool.isFree p = false → ∀ tickerId m' out,
    m.cancel (m.book.order p).ident.clientId (m.book.order p).ident.clientOrderId tickerId =
      .ok (m', out) → ∀ r, .response r ∈ out → r.type ≠ .cancelRejected

/-- No order comes to rest under an id under which another one is resting. -/
def ReusesNoRestingId (m : MEOrderBook) (r : Request) : Prop :=
  (∃ m', step m r = .ok m') → ∀ key m₁, r.newKey = some key → m.restingBook r = some m₁ →
    m₁.book.idToOrder key = none

section Matching
variable {m m' : MEOrderBook} {P : LevelBook MEOrderIds ClientOrderKey → Prop} {i : Incoming}
  {order : MEOrder} {qty : ℕ} {p : Ptr} {x : MEOrderBook × ℕ × List Outgoing}

theorem removeOrder_eq_ok (h : m.removeOrder p = .ok m') :
    ∃ b, m.book.removeOrder meBookKind p = .ok b ∧ m' = { m with book := b } := by
  obtain ⟨b, hb, h⟩ := bind_eq_ok.mp h
  cases h
  exact ⟨b, hb, rfl⟩

theorem matchOrder_invariant (hset : ∀ b p q, P b → P (b.setQty p q))
    (hremove : ∀ b b' p, P b → b.removeOrder meBookKind p = .ok b' → P b') (h : P m.book)
    (hok : matchOrder m i p qty = .ok x) : P x.1.book := by
  simp only [matchOrder] at hok
  split at hok
  · obtain ⟨m₁, h₁, hok⟩ := bind_eq_ok.mp hok
    cases hok
    obtain ⟨b, hb, rfl⟩ := removeOrder_eq_ok h₁
    exact hremove _ _ p (hset _ _ _ h) hb
  · cases hok
    exact hset _ _ _ h

theorem matchLoop_invariant {bids : Bool} {stops : ℕ → Bool} {fuel : ℕ}
    (hset : ∀ b p q, P b → P (b.setQty p q))
    (hremove : ∀ b b' p, P b → b.removeOrder meBookKind p = .ok b' → P b') (h : P m.book)
    (hok : matchLoop i bids stops fuel m qty = .ok x) : P x.1.book := by
  induction fuel generalizing m qty x with
  | zero => cases hok
  | succ fuel ih =>
    unfold matchLoop at hok
    split at hok
    · cases hok
      exact h
    split at hok
    · cases hok
      exact h
    obtain ⟨itr, -, hok⟩ := bind_eq_ok.mp hok
    split at hok
    · cases hok
      exact h
    obtain ⟨r, hr, hok⟩ := bind_eq_ok.mp hok
    obtain ⟨s, hs, hok⟩ := bind_eq_ok.mp hok
    cases hok
    exact ih (x := s) (matchOrder_invariant hset hremove h hr) hs

theorem checkForMatch_invariant (hset : ∀ b p q, P b → P (b.setQty p q))
    (hremove : ∀ b b' p, P b → b.removeOrder meBookKind p = .ok b' → P b') (h : P m.book)
    (hok : m.checkForMatch i qty = .ok x) : P x.1.book := by
  unfold checkForMatch at hok
  split at hok
  · exact matchLoop_invariant hset hremove h hok
  · exact matchLoop_invariant hset hremove h hok
  · cases hok
    exact h

theorem restOrder_eq_ok (h : m.restOrder order = .ok m') :
    ∃ p pool b, m.book.orderPool.allocate order = .ok (p, pool) ∧
      LevelBook.addOrder meBookKind { m.book with orderPool := pool } p = .ok b ∧
      m' = { m with book := b } := by
  obtain ⟨⟨p, pool⟩, ha, h⟩ := bind_eq_ok.mp h
  obtain ⟨b, hb, h⟩ := bind_eq_ok.mp h
  cases h
  exact ⟨p, pool, b, ha, hb, rfl⟩

theorem cancel_eq_ok {cid oid tid : ℕ} {out : List Outgoing}
    (h : m.cancel cid oid tid = .ok (m', out)) :
    (m' = m ∧ out = [rejection cid oid tid] ∧
      (cid < meMaxNumClients → m.book.idToOrder (cid, oid) = none)) ∨
    ∃ p, m.book.idToOrder (cid, oid) = some p ∧ m.removeOrder p = .ok m' ∧
      out = [.update ⟨.cancel, (m.book.order p).ident.marketOrderId, tid, (m.book.order p).side,
          (m.book.order p).price, 0, (m.book.order p).priority⟩,
        .response ⟨.canceled, cid, tid, oid, (m.book.order p).ident.marketOrderId,
          (m.book.order p).side, (m.book.order p).price, qtyInvalid, (m.book.order p).qty⟩] := by
  unfold cancel at h
  by_cases hc : cid < meMaxNumClients
  · rw [if_pos hc] at h
    cases ha : at? "cid_oid_to_order_" meMaxOrderIds oid with
    | error f =>
      rw [ha] at h
      cases h
    | ok _ =>
      rw [ha] at h
      cases hid : m.book.idToOrder (cid, oid) with
      | none =>
        simp only [hid, bind, Except.bind, pure, Except.pure] at h
        cases h
        exact .inl ⟨rfl, rfl, fun _ => rfl⟩
      | some p =>
        right
        simp only [hid, bind, Except.bind, pure, Except.pure] at h
        cases hr : m.removeOrder p with
        | error f =>
          rw [hr] at h
          cases h
        | ok m₁ =>
          rw [hr] at h
          cases h
          exact ⟨p, rfl, hr, rfl⟩
  · rw [if_neg hc] at h
    cases h
    exact .inl ⟨rfl, rfl, fun hlt => (hc hlt).elim⟩

/-- A returning step did nothing, removed an order, traded, or let an order rest. -/
theorem step_eq_ok {r : Request} (h : step m r = .ok m') :
    (m.restingBook r = none ∧ (m' = m ∨ (∃ p, m.removeOrder p = .ok m') ∨
      ∃ i qty x, m.checkForMatch i qty = .ok x ∧ m' = x.1)) ∨
    ∃ cid oid tid side price qty i leaves out m₁ priority,
      r = .add cid oid tid side price qty ∧ m.restingBook r = some m₁ ∧
      m.checkForMatch i qty = .ok (m₁, leaves, out) ∧
      m₁.restOrder { ident := ⟨tid, cid, oid, m.nextMarketOrderId⟩, side := side, price := price
                     qty := leaves, priority := priority } = .ok m' := by
  cases r with
  | cancel cid oid tid =>
    simp only [step, handle] at h
    cases hc : m.cancel cid oid tid with
    | error f =>
      rw [hc] at h
      cases h
    | ok y =>
      rw [hc] at h
      cases h
      rcases cancel_eq_ok hc with ⟨hm, -, -⟩ | ⟨p, -, hr, -⟩
      · exact .inl ⟨rfl, .inl hm⟩
      · exact .inl ⟨rfl, .inr (.inl ⟨p, hr⟩)⟩
  | add cid oid tid side price qty =>
    simp only [step, handle] at h
    cases hx : m.checkForMatch ⟨cid, oid, tid, side, price, m.nextMarketOrderId % 2 ^ 32⟩ qty with
    | error f =>
      simp only [add, generateNewMarketOrderId, hx, bind, Except.bind] at h
      cases h
    | ok x =>
      rw [add_eq x hx] at h
      by_cases h0 : x.2.1 = 0
      · left
        rw [if_pos h0] at h
        cases h
        constructor
        · simp only [restingBook, hx, if_pos h0]
        · exact .inr (.inr ⟨_, qty, x, hx, rfl⟩)
      · right
        rw [if_neg h0] at h
        cases hp : x.1.getNextPriority price with
        | error f =>
          rw [hp] at h
          cases h
        | ok priority =>
          rw [hp] at h
          simp only [Except.bind] at h
          cases hrest : x.1.restOrder { ident := ⟨tid, cid, oid, m.nextMarketOrderId⟩, side := side
                                        price := price, qty := x.2.1, priority := priority } with
          | error f =>
            rw [hrest] at h
            cases h
          | ok m₂ =>
            rw [hrest] at h
            cases h
            refine ⟨cid, oid, tid, side, price, qty, _, x.2.1, x.2.2, x.1, priority, rfl, ?_, hx,
              hrest⟩
            simp only [restingBook, hx, if_neg h0]

end Matching

section Keys
variable {b b' : LevelBook MEOrderIds ClientOrderKey} {m m' m₁ : MEOrderBook} {p : Ptr}
  {r : Request} {rs : List Request}

/-- The table has the orders in use, each under its own key, and nothing else. -/
structure Keyed (b : LevelBook MEOrderIds ClientOrderKey) : Prop where
  table : ∀ key p, b.idToOrder key = some p ↔
    b.orderPool.isFree p = false ∧ meBookKind.key (b.order p).ident = key
  fits : ∀ key p, b.idToOrder key = some p → checkClientOrderKey key = .ok ()

theorem keyed_init (tickerId : ℕ) : Keyed (init tickerId).book := by
  constructor
  · simp [init, LevelBook.init]
  · simp [init, LevelBook.init]

theorem Keyed.setQty (h : Keyed b) (p : Ptr) (qty : ℕ) : Keyed (b.setQty p qty) := by
  have hident : ∀ q, ((b.setQty p qty).order q).ident = (b.order q).ident := by
    intro q
    simp only [LevelBook.setQty, order_modifyOrder]
    split <;> rfl
  have hfree : ∀ q, (b.setQty p qty).orderPool.isFree q = b.orderPool.isFree q := by
    intro q
    simp [LevelBook.setQty, modifyOrder]
  constructor
  · intro key q
    rw [hfree, hident]
    exact h.table key q
  · exact h.fits

theorem removeOrder_entry (hok : b.removeOrder meBookKind p = .ok b') :
    b.orderPool.isFree p = false ∧
      b'.idToOrder = Function.update b.idToOrder (meBookKind.key (b.order p).ident) none ∧
      (∀ q, b'.orderPool.isFree q = if q = p then true else b.orderPool.isFree q) ∧
      ∀ q, (b'.order q).ident = (b.order q).ident := by
  obtain ⟨b₁, hleave, hok⟩ := bind_eq_ok.mp hok
  have hkeeps := leaveLevel_keepsOrders hleave
  obtain ⟨_, -, hok⟩ := bind_eq_ok.mp hok
  obtain ⟨pool, hpool, hok⟩ := bind_eq_ok.mp hok
  cases hok
  obtain ⟨-, hbusy, -, hstore⟩ := MemPool.deallocate_eq_ok hpool
  have hget : ∀ q, pool.get q = b₁.orderPool.get q := by
    intro q
    simp only [MemPool.get, hstore, Function.update_apply]
    split
    · next hq => rw [hq]
    · rfl
  constructor
  · rw [← hkeeps.free]
    exact hbusy
  constructor
  · rw [hkeeps.ident, hkeeps.idToOrder]
  constructor
  · intro q
    rw [← hkeeps.free]
    simp only [MemPool.isFree, hstore, Function.update_apply]
    split <;> rfl
  · intro q
    rw [← hkeeps.ident]
    simp only [LevelBook.order, hget]

theorem Keyed.removeOrder (h : Keyed b) (hok : b.removeOrder meBookKind p = .ok b') :
    Keyed b' := by
  obtain ⟨hused, htable, hbusy, hident⟩ := removeOrder_entry hok
  have hown := (h.table _ p).mpr ⟨hused, rfl⟩
  constructor
  · intro key q
    rw [htable, hbusy, hident, Function.update_apply]
    by_cases hkey : key = meBookKind.key (b.order p).ident
    · rw [if_pos hkey]
      by_cases hq : q = p
      · simp [hq]
      · simp only [hq, if_false, reduceCtorEq, false_iff, not_and]
        intro hqused hqkey
        have hentry := (h.table _ q).mpr ⟨hqused, hqkey⟩
        rw [hkey, hown] at hentry
        exact hq (Option.some.inj hentry).symm
    · rw [if_neg hkey]
      by_cases hq : q = p
      · simp only [hq, if_true, Bool.true_eq_false, false_and, iff_false]
        intro hold
        exact hkey ((h.table key p).mp hold).2.symm
      · simp only [hq, if_false]
        exact h.table key q
  · intro key q
    rw [htable, Function.update_apply]
    split
    · simp
    · exact h.fits key q

/-- A new order gets its entry, which may have belonged to another one. -/
theorem restOrder_entry {order : MEOrder} (hok : m.restOrder order = .ok m') :
    ∃ p, m.book.orderPool.isFree p = true ∧
      checkClientOrderKey (meBookKind.key order.ident) = .ok () ∧
      m'.book.idToOrder =
        Function.update m.book.idToOrder (meBookKind.key order.ident) (some p) ∧
      (∀ q, m'.book.orderPool.isFree q = if q = p then false else m.book.orderPool.isFree q) ∧
      ∀ q, (m'.book.order q).ident = if q = p then order.ident else (m.book.order q).ident := by
  obtain ⟨p, pool, b, halloc, hadd, rfl⟩ := restOrder_eq_ok hok
  obtain ⟨hfree, -, hstore⟩ := MemPool.allocate_eq_ok halloc
  obtain ⟨b₁, hjoin, hadd⟩ := bind_eq_ok.mp hadd
  have hkeeps := joinLevel_keepsOrders hjoin
  obtain ⟨_, hcheck, hadd⟩ := bind_eq_ok.mp hadd
  cases hadd
  have hnew : ∀ q, pool.get q = if q = p then order else m.book.orderPool.get q := by
    intro q
    simp only [MemPool.get, hstore, Function.update_apply]
    split <;> rfl
  have hident : ∀ q, (b₁.order q).ident = if q = p then order.ident else (m.book.order q).ident := by
    intro q
    rw [hkeeps.ident]
    simp only [LevelBook.order, hnew]
    split <;> rfl
  have hkey : (b₁.order p).ident = order.ident := by
    rw [hident, if_pos rfl]
  rw [hkey] at hcheck
  refine ⟨p, hfree, hcheck, ?_, ?_, hident⟩
  · rw [hkey, hkeeps.idToOrder]
  · intro q
    rw [hkeeps.free]
    simp only [MemPool.isFree, hstore, Function.update_apply]
    split <;> rfl

theorem Keyed.restOrder {order : MEOrder} (h : Keyed m.book) (hok : m.restOrder order = .ok m')
    (hnone : m.book.idToOrder (meBookKind.key order.ident) = none) : Keyed m'.book := by
  obtain ⟨p, hfree, hcheck, htable, hbusy, hident⟩ := restOrder_entry hok
  constructor
  · intro key q
    rw [htable, hbusy, hident, Function.update_apply]
    by_cases hq : q = p
    · subst hq
      simp only [if_true, true_and]
      split
      · next hkey => simp [hkey]
      · next hkey =>
        constructor
        · intro hold
          have hused := ((h.table key q).mp hold).1
          rw [hfree] at hused
          cases hused
        · intro hkey'
          exact (hkey hkey'.symm).elim
    · simp only [hq, if_false]
      split
      · next hkey =>
        subst hkey
        constructor
        · intro hp
          exact (hq (Option.some.inj hp).symm).elim
        · intro hold
          have hentry := (h.table _ q).mpr hold
          rw [hnone] at hentry
          cases hentry
      · exact h.table key q
  · intro key q
    rw [htable, Function.update_apply]
    split
    · next hkey =>
      intro _
      rw [hkey]
      exact hcheck
    · exact h.fits key q

theorem Keyed.owned (h : Keyed m.book) : Owned m := by
  have hentry : ∀ p, m.book.orderPool.isFree p = false →
      m.book.idToOrder (meBookKind.key (m.book.order p).ident) = some p :=
    fun p hp => (h.table _ p).mpr ⟨hp, rfl⟩
  constructor
  · exact hentry
  · intro key p hp
    exact ((h.table key p).mp hp).1
  · intro p hp tid m' out hok r hr
    rcases cancel_eq_ok hok with ⟨-, -, hnone⟩ | ⟨q, -, -, rfl⟩
    · have hfits := h.fits _ p (hentry p hp)
      obtain ⟨_, hclient, -⟩ := bind_eq_ok.mp hfits
      have hempty := hnone (at?_eq_ok.mp hclient)
      have hfull : m.book.idToOrder ((m.book.order p).ident.clientId,
          (m.book.order p).ident.clientOrderId) = some p := hentry p hp
      rw [hempty] at hfull
      cases hfull
    · simp only [List.mem_cons, reduceCtorEq, Outgoing.response.injEq, List.not_mem_nil, or_false,
        false_or] at hr
      rw [hr]
      simp

theorem not_owned_of_reuse {order : MEOrder} (h : Keyed m.book)
    (hok : m.restOrder order = .ok m')
    (hsome : m.book.idToOrder (meBookKind.key order.ident) ≠ none) : ¬Owned m' := by
  intro howned
  obtain ⟨p, hfree, -, htable, hbusy, hident⟩ := restOrder_entry hok
  obtain ⟨q, hq⟩ := Option.ne_none_iff_exists'.mp hsome
  obtain ⟨hused, hkey⟩ := (h.table _ q).mp hq
  have hqp : q ≠ p := by
    intro he
    rw [he, hfree] at hused
    cases hused
  have hq' : m'.book.orderPool.isFree q = false := by
    rw [hbusy, if_neg hqp]
    exact hused
  have hentry : m'.book.idToOrder (meBookKind.key (m'.book.order q).ident) = some q :=
    howned.entry q hq'
  rw [hident, if_neg hqp, hkey, htable, Function.update_self] at hentry
  exact hqp (Option.some.inj hentry).symm

theorem keyed_checkForMatch {i : Incoming} {qty : ℕ} {x : MEOrderBook × ℕ × List Outgoing}
    (h : Keyed m.book) (hok : m.checkForMatch i qty = .ok x) : Keyed x.1.book :=
  checkForMatch_invariant (fun _ p q hb => hb.setQty p q)
    (fun _ _ _ hb hr => hb.removeOrder hr) h hok

/-- One step from a book whose table is right: the table stays right if the
order does not rest under the key of another one, and only then. -/
theorem keyed_step (h : Keyed m.book) (hok : step m r = .ok m') :
    (ReusesNoRestingId m r → Keyed m'.book) ∧ (Owned m' → ReusesNoRestingId m r) := by
  rcases step_eq_ok hok with ⟨hnone, hm⟩ |
      ⟨cid, oid, tid, side, price, qty, i, leaves, out, m₁, priority, rfl, hsome, hx, hrest⟩
  · constructor
    · intro _
      rcases hm with rfl | ⟨p, hr⟩ | ⟨i, qty, x, hx, rfl⟩
      · exact h
      · obtain ⟨b, hb, rfl⟩ := removeOrder_eq_ok hr
        exact h.removeOrder hb
      · exact keyed_checkForMatch h hx
    · intro _ _ key m₁ _ hsome
      rw [hnone] at hsome
      cases hsome
  · have h₁ : Keyed m₁.book := keyed_checkForMatch h hx
    constructor
    · intro hr
      exact h₁.restOrder hrest (hr ⟨m', hok⟩ (cid, oid) m₁ rfl hsome)
    · intro howned _ key m₂ hkey hsome₂
      rw [hsome, Option.some.injEq] at hsome₂
      subst hsome₂
      cases hkey
      by_contra hne
      exact not_owned_of_reuse h₁ hrest hne howned

/-- The book is right after every part of a run exactly when no order of the
run comes to rest under an id that is still in use. -/
theorem run_owned_iff (tickerId : ℕ) (rs : List Request) :
    (∀ done, done <+: rs → ∀ m, run step (init tickerId) done = .ok m → Owned m) ↔
      Meets step ReusesNoRestingId (init tickerId) rs := by
  apply forall_run_iff_meets (I := fun m => Keyed m.book) (keyed_init tickerId)
  · exact fun m h => h.owned
  · exact fun m r m' h hok => keyed_step h hok
  · rintro m r hfail ⟨m', hok⟩
    exact (hfail m' hok).elim

/-- Two orders of client 3 at one price under one id: the first one stays in
the book, and nobody can cancel it. -/
theorem second_order_takes_entry :
    ∃ m, run step (init 0) [.add 3 7 0 .buy 10 5, .add 3 7 0 .buy 10 5] = .ok m ∧ ¬Owned m := by
  have hread : (run step (init 0) [.add 3 7 0 .buy 10 5, .add 3 7 0 .buy 10 5]).map (fun m =>
      (m.book.orderPool.isFree 0, (m.book.order 0).ident.clientId,
        (m.book.order 0).ident.clientOrderId, m.book.idToOrder (3, 7))) =
      .ok (false, 3, 7, some 1) := by
    decide
  obtain ⟨m, hrun, hpair⟩ := map_eq_ok hread
  simp only [Prod.mk.injEq] at hpair
  obtain ⟨hused, hclient, horder, htable⟩ := hpair
  refine ⟨m, hrun, fun howned => ?_⟩
  have hentry := howned.entry 0 hused
  rw [hclient, horder, htable] at hentry
  cases hentry

end Keys

end HighPerformance.MEOrderBook
