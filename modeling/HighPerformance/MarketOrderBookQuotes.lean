import HighPerformance.MarketOrderBookClear

/-!
# The best bid and offer that the strategy sees

`onMarketUpdate` refreshes a side of `bbo_` only when its flag is set, and both
flags come from the book before the update. The reference is the front of the
levels of the live orders, with the sum of the quantities at that price.

A side without levels never has its flag set, so the first order of a side is
not quoted; and a `CLEAR` sets a flag only when its own side and price happen to
be at the front. Every other update leaves a right quote right.
-/

namespace HighPerformance

namespace BBO

def ofSides (f : Bool → ℕ × ℕ) : BBO :=
  { bidPrice := (f true).1, askPrice := (f false).1, bidQty := (f true).2, askQty := (f false).2 }

/-- Price and quantity of one side. -/
def side (q : BBO) (d : Bool) : ℕ × ℕ := if d then (q.bidPrice, q.bidQty) else (q.askPrice, q.askQty)

@[simp] theorem side_ofSides (f : Bool → ℕ × ℕ) (d : Bool) : (ofSides f).side d = f d := by
  cases d <;> rfl

theorem ofSides_inj {f g : Bool → ℕ × ℕ} : ofSides f = ofSides g ↔ ∀ d, f d = g d := by
  constructor
  · intro he d
    rw [← side_ofSides f, he, side_ofSides]
  · intro he
    rw [funext he]

end BBO

namespace LiveOrder
open FallibleRun

/-- The best price of a side with the sum of the quantities at that price. -/
def topOf (live : List LiveOrder) (d : Bool) : ℕ × ℕ :=
  match levelsOf live d with
  | [] => (priceInvalid, qtyInvalid)
  | (p, os) :: _ => (p, (os.map (·.qty)).sum)

/-- What the strategy should see. -/
def quotes (live : List LiveOrder) : BBO := BBO.ofSides (topOf live)

/-- The updates of a stream that may contain `CLEAR` and whose levels hold less
than `2 ^ 32`. -/
def AllowedQuoted (live : List LiveOrder) (u : MEMarketUpdate) : Prop :=
  (u.type = .clear ∨ Allowed live u) ∧
    ∀ d, ∀ L ∈ levelsOf (apply live u) d, (L.2.map (·.qty)).sum < 2 ^ 32

section Front
variable {live live' : List LiveOrder} {d : Bool} {p : ℕ} {ps : List ℕ}

theorem mem_pricesOf_iff : p ∈ pricesOf live d ↔ ordersOf live d p ≠ [] := by
  rw [mem_pricesOf]
  constructor
  · rintro ⟨o, ho, hs, hp⟩
    exact List.ne_nil_of_mem (mem_ordersOf.mpr ⟨ho, hs, hp⟩)
  · intro hne
    obtain ⟨o, ho⟩ := List.exists_mem_of_ne_nil _ hne
    obtain ⟨hm, hs, hp⟩ := mem_ordersOf.mp ho
    exact ⟨o, hm, hs, hp⟩

theorem topOf_nil (hp : pricesOf live d = []) : topOf live d = (priceInvalid, qtyInvalid) := by
  simp [topOf, levelsOf, hp]

theorem topOf_cons (hp : pricesOf live d = p :: ps) :
    topOf live d = (p, ((ordersOf live d p).map (·.qty)).sum) := by
  simp [topOf, levelsOf, hp]

/-- The front of a side depends on the orders that are not behind it. -/
theorem topOf_congr (hp : pricesOf live d = p :: ps)
    (hsame : ∀ q, ¬better d p q → ordersOf live' d q = ordersOf live d q) :
    topOf live' d = topOf live d := by
  have hpp : p ∈ pricesOf live d := by simp [hp]
  have hfront := hsame p (better_irrefl d p)
  have hin : p ∈ pricesOf live' d := by
    rw [mem_pricesOf_iff, hfront]
    exact mem_pricesOf_iff.mp hpp
  have hsorted := pricesOf_sorted live d
  have hsorted' := pricesOf_sorted live' d
  rw [hp, List.pairwise_cons] at hsorted
  cases hps : pricesOf live' d with
  | nil => simp [hps] at hin
  | cons q qs =>
    rw [hps] at hin
    rw [hps, List.pairwise_cons] at hsorted'
    have hqp : q = p := by
      rcases List.mem_cons.mp hin with he | hm
      · exact he.symm
      · -- a better front would already have been there
        have hb := hsorted'.1 p hm
        have hq : q ∈ pricesOf live d := by
          rw [mem_pricesOf_iff, ← hsame q fun hc => better_irrefl d p (better_trans hc hb)]
          exact mem_pricesOf_iff.mp (by simp [hps])
        rw [hp] at hq
        rcases List.mem_cons.mp hq with he | hm
        · exact he
        · exact (better_irrefl d p (better_trans (hsorted.1 q hm) hb)).elim
    subst hqp
    rw [topOf_cons hps, topOf_cons hp, hfront]

theorem topOf_eq_nil_iff (hlt : ∀ o ∈ live, o.price < meMaxPriceLevels) :
    topOf live d = topOf [] d ↔ pricesOf live d = [] := by
  have hnil : topOf [] d = (priceInvalid, qtyInvalid) := topOf_nil (by cases d <;> rfl)
  rw [hnil]
  cases hp : pricesOf live d with
  | nil => simp [topOf_nil hp]
  | cons p ps =>
    obtain ⟨o, ho, -, rfl⟩ := mem_pricesOf.mp (show p ∈ pricesOf live d by simp [hp])
    have hne : o.price ≠ priceInvalid := by
      have hlt := hlt o ho
      unfold meMaxPriceLevels at hlt
      unfold priceInvalid
      omega
    simp [topOf_cons hp, hne]

end Front

end LiveOrder

namespace MarketOrderBook
open LevelBook CircularList FallibleRun LiveOrder

/-- The flag of one side. -/
def updated (m : MarketOrderBook) (u : MEMarketUpdate) (d : Bool) : Bool :=
  if d then m.bidUpdated u else m.askUpdated u

/-- The quote when the strategy is called. -/
def seen (m : MarketOrderBook) (u : MEMarketUpdate) : Except Fault BBO := do
  if u.type = .trade then return m.bbo
  let book ← m.applyUpdate u
  let m ← updateBBO { m with book := book } (m.bidUpdated u) (m.askUpdated u)
  return m.bbo

/-- No order arrives at an empty side, and `CLEAR` sets the flag of each side
that has orders. -/
def KeepsQuote (m : MarketOrderBook) (u : MEMarketUpdate) : Prop :=
  match u.type with
  | .add => m.book.best (u.side == .buy) ≠ none
  | .clear => ∀ d, m.book.best d = none ∨ m.updated u d = true
  | _ => True

instance : ∀ m u, Decidable (KeepsQuote m u) := fun m u => by
  unfold KeepsQuote
  split <;> exact inferInstance

section Flags
variable {m m' : MarketOrderBook} {u : MEMarketUpdate} {b : LevelBook MarketOrderId ℕ}
  {S : Shape MarketOrderId} {live : List LiveOrder} {d : Bool}

theorem updated_none (h : m.book.best d = none) : m.updated u d = false := by
  cases d
  · have hasks : m.book.asksByPrice = none := h
    simp [updated, askUpdated, hasks]
  · have hbids : m.book.bidsByPrice = none := h
    simp [updated, bidUpdated, hbids]

theorem updated_some {l : Ptr} (h : m.book.best d = some l) :
    m.updated u d = true ↔ u.side = sideOf d ∧ ¬better d (m.book.level l).price u.price := by
  cases d
  · have hasks : m.book.asksByPrice = some l := h
    simp [updated, askUpdated, hasks, sideOf, better]
  · have hbids : m.book.bidsByPrice = some l := h
    simp [updated, bidUpdated, hbids, sideOf, better]

theorem updateBBO_eq (m : MarketOrderBook) (f g : Bool) : updateBBO m f g =
    (if f then m.book.bestQuote m.book.bidsByPrice else .ok (m.bbo.side true)).bind fun bid =>
      (if g then m.book.bestQuote m.book.asksByPrice else .ok (m.bbo.side false)).bind fun ask =>
        .ok { m with bbo := .ofSides fun d => if d then bid else ask } := by
  cases f <;> cases g <;> rfl

theorem updateBBO_spec {q : Bool → ℕ × ℕ} (hq : ∀ d, b.bestQuote (b.best d) = .ok (q d))
    (f : Bool → Bool) : updateBBO { m with book := b } (f true) (f false) = .ok { m with
      book := b, bbo := .ofSides fun d => if f d then q d else m.bbo.side d } := by
  have hbid : b.bestQuote b.bidsByPrice = .ok (q true) := hq true
  have hask : b.bestQuote b.asksByPrice = .ok (q false) := hq false
  rw [updateBBO_eq, hbid, hask]
  cases hf : f true <;> cases hg : f false <;> simp [BBO.ofSides, hf, hg, Except.bind]

theorem seen_eq {q : Bool → ℕ × ℕ} (ht : u.type ≠ .trade) (hb : m.applyUpdate u = .ok b)
    (hq : ∀ d, b.bestQuote (b.best d) = .ok (q d)) :
    m.seen u = .ok (.ofSides fun d => if m.updated u d then q d else m.bbo.side d) := by
  have hflags := @updateBBO_spec m b q hq (m.updated u)
  simp only [updated, if_true, Bool.false_eq_true, if_false] at hflags
  simp only [seen, ht, if_false, hb, bind, Except.bind, hflags]
  rfl

theorem side_of_seen {q : BBO} (hs : m.seen u = .ok q) (hd : m.updated u d = false) :
    q.side d = m.bbo.side d := by
  unfold seen at hs
  split at hs
  · cases hs
    rfl
  · obtain ⟨b, -, hs⟩ := bind_eq_ok.mp hs
    obtain ⟨m', hm', hs⟩ := bind_eq_ok.mp hs
    rw [updateBBO_eq] at hm'
    obtain ⟨bid, hbid, hm'⟩ := bind_eq_ok.mp hm'
    obtain ⟨ask, hask, hm'⟩ := bind_eq_ok.mp hm'
    cases hm'
    cases hs
    rw [BBO.side_ofSides]
    cases d
    · have hd : m.askUpdated u = false := hd
      rw [hd] at hask
      cases hask
      rfl
    · have hd : m.bidUpdated u = false := hd
      rw [hd] at hbid
      cases hbid
      rfl

theorem seen_of_ok (hok : m.onMarketUpdate u = .ok m') : m.seen u = .ok m'.bbo := by
  unfold onMarketUpdate at hok
  unfold seen
  split at hok
  · next ht =>
    cases hok
    simp only [ht, if_true]
    rfl
  · next ht =>
    obtain ⟨b, hb, hok⟩ := bind_eq_ok.mp hok
    obtain ⟨m₁, hm₁, hok⟩ := bind_eq_ok.mp hok
    obtain ⟨_, -, hok⟩ := bind_eq_ok.mp hok
    cases hok
    simp only [ht, if_false, hb, bind, Except.bind]
    rw [hm₁]
    rfl

end Flags

section Front
variable {b : LevelBook MarketOrderId ℕ} {S : Shape MarketOrderId} {live : List LiveOrder}
  {u : MEMarketUpdate} {d : Bool}

theorem Tracks.best_eq_none_iff (h : Tracks b S live) : b.best d = none ↔ pricesOf live d = [] := by
  rw [h.shaped.levels.best d, ← h.prices_eq d, List.head?_eq_none_iff, List.map_eq_nil_iff,
    List.map_eq_nil_iff]

theorem Tracks.price_lt (h : Tracks b S live) {o : LiveOrder} (ho : o ∈ live) :
    o.price < meMaxPriceLevels := by
  obtain ⟨d, -, z, hz, -⟩ := h.exists_resting ho
  obtain ⟨L, hL, hp, -⟩ := Shape.mem_contents.mp hz
  rw [← hp]
  exact h.shaped.levels.priceLt d L hL

theorem Tracks.id_inj (h : Tracks b S live) {o z : LiveOrder} (ho : o ∈ live) (hz : z ∈ live)
    (he : o.orderId = z.orderId) : o = z := by
  obtain ⟨d, -, x, hx, hxo⟩ := h.exists_resting ho
  obtain ⟨e, -, y, hy, hyz⟩ := h.exists_resting hz
  have hxS : x ∈ S.orders := Shape.mem_orders_iff_contents.mpr ⟨d, _, hx⟩
  have hyS : y ∈ S.orders := Shape.mem_orders_iff_contents.mpr ⟨e, _, hy⟩
  have hid : x.ident.orderId = y.ident.orderId := by
    have hxid : x.ident.orderId = o.orderId := congrArg (·.orderId) hxo
    have hyid : y.ident.orderId = z.orderId := congrArg (·.orderId) hyz
    rw [hxid, hyid, he]
  have hxy := h.ident_inj hxS hyS hid
  subst hxy
  -- the block of an order holds its price
  obtain ⟨L, hL, hLp, hxL⟩ := Shape.mem_contents.mp hx
  obtain ⟨M, hM, hMp, hxM⟩ := Shape.mem_contents.mp hy
  have hLdata := ((h.shaped.level d L hL).orders x hxL).2
  have hMdata := ((h.shaped.level e M hM).orders x hxM).2
  have hp : L.price = M.price := by
    have hdata := hLdata.symm.trans hMdata
    simp only [Prod.mk.injEq] at hdata
    exact hdata.2.2.1
  rw [← hxo, ← hyz, ← hLp, ← hMp, hp]

theorem foldl_qty {zs : List (Resting MarketOrderId)} {q : ℕ}
    (hlt : q + (zs.map (·.qty)).sum < 2 ^ 32) :
    zs.foldl (fun q z => (q + z.qty) % 2 ^ 32) q = q + (zs.map (·.qty)).sum := by
  induction zs generalizing q with
  | nil => rfl
  | cons z zs ih =>
    rw [List.map_cons, List.sum_cons, ← Nat.add_assoc] at hlt
    have hz : (q + z.qty) % 2 ^ 32 = q + z.qty := Nat.mod_eq_of_lt (by omega)
    rw [List.foldl_cons, hz, ih hlt, List.map_cons, List.sum_cons, Nat.add_assoc]

theorem Tracks.quoteOf_eq (h : Tracks b S live)
    (hlt : ∀ L ∈ levelsOf live d, (L.2.map (·.qty)).sum < 2 ^ 32) :
    quoteOf (S d) = topOf live d := by
  have hprices := h.prices_eq d
  cases hS : S d with
  | nil =>
    rw [hS] at hprices
    rw [topOf_nil hprices.symm]
    rfl
  | cons L w =>
    rw [hS, List.map_cons] at hprices
    have horders : ordersOf live d L.price = L.orders.map (toLive L.price) := by
      rw [← h.orders, h.shaped.levels.contents_eq (show L ∈ S d by simp [hS])]
    have hqty : (ordersOf live d L.price).map (·.qty) = L.orders.map (·.qty) := by
      rw [horders, List.map_map]
      rfl
    have hsum := hlt (L.price, ordersOf live d L.price) (by simp [levelsOf, ← hprices])
    rw [topOf_cons hprices.symm]
    rw [hqty] at hsum ⊢
    cases ho : L.orders with
    | nil => exact ((h.shaped.level d L (by simp [hS])).nonempty ho).elim
    | cons o y =>
      rw [ho, List.map_cons, List.sum_cons] at hsum
      rw [List.map_cons, List.sum_cons]
      simp only [quoteOf, ho, foldl_qty hsum]

theorem Tracks.ordersOf_apply (h : Tracks b S live) (hu : Allowed live u) {p : ℕ}
    (hne : ¬(u.side = sideOf d ∧ u.price = p)) :
    ordersOf (apply live u) d p = ordersOf live d p := by
  have hother : ∀ o ∈ live, o.orderId = u.orderId ∧ o.side = u.side ∧ o.price = u.price →
      ∀ c ∈ ordersOf live d p, c.orderId ≠ u.orderId := by
    rintro o ho ⟨hid, hs, hp⟩ c hc he
    obtain ⟨hm, hcs, hcp⟩ := mem_ordersOf.mp hc
    have hco := h.id_inj hm ho (he.trans hid.symm)
    subst hco
    exact hne ⟨hs.symm.trans hcs, hp.symm.trans hcp⟩
  unfold Allowed at hu
  split at hu
  · next ht =>
    simp only [apply, ht]
    rw [ordersOf_append, if_neg hne, List.append_nil]
  · next ht =>
    obtain ⟨o, ho, hsame⟩ := hu
    simp only [apply, ht]
    rw [ordersOf_map]
    · conv_rhs => rw [← List.map_id (ordersOf live d p)]
      apply List.map_congr_left
      intro c hc
      exact if_neg (hother o ho hsame c hc)
    · intro c
      split <;> exact ⟨rfl, rfl⟩
  · next ht =>
    obtain ⟨o, ho, hsame⟩ := hu
    simp only [apply, ht]
    rw [ordersOf_filter, List.filter_eq_self]
    intro c hc
    simpa using hother o ho hsame c hc
  · next ht => simp only [apply, ht]
  · exact hu.elim

end Front

/-- The quote is right, and the book is in order or has nothing but entries in
the table of the levels. -/
structure Quoted (m : MarketOrderBook) (live : List LiveOrder) : Prop where
  bbo : m.bbo = quotes live
  book : (∃ S, Tracks m.book S live) ∨ Blank m.book ∧ live = []

section Steps
variable {m m' : MarketOrderBook} {u : MEMarketUpdate} {b : LevelBook MarketOrderId ℕ}
  {S : Shape MarketOrderId} {live live' : List LiveOrder} {d : Bool}

theorem Quoted.price_lt (h : Quoted m live) : ∀ o ∈ live, o.price < meMaxPriceLevels := by
  rcases h.book with ⟨S, htracks⟩ | ⟨-, rfl⟩
  · exact fun o ho => htracks.price_lt ho
  · intro o ho
    simp at ho

theorem Quoted.best_eq_none_iff (h : Quoted m live) :
    m.book.best d = none ↔ topOf live d = topOf [] d := by
  rcases h.book with ⟨S, htracks⟩ | ⟨hblank, rfl⟩
  · rw [htracks.best_eq_none_iff, topOf_eq_nil_iff h.price_lt]
  · simp [hblank.best d]

/-- The quote stays right when each side has its flag set or its front unchanged. -/
theorem seen_iff (hbbo : m.bbo = quotes live) (ht : u.type ≠ .trade) (hb : m.applyUpdate u = .ok b)
    (hq : ∀ d, b.bestQuote (b.best d) = .ok (topOf live' d)) :
    m.seen u = .ok (quotes live') ↔
      ∀ d, m.updated u d = true ∨ topOf live' d = topOf live d := by
  rw [seen_eq ht hb hq, Except.ok.injEq, quotes, BBO.ofSides_inj]
  apply forall_congr'
  intro d
  rw [hbbo, quotes, BBO.side_ofSides]
  by_cases hd : m.updated u d = true
  · simp [hd]
  · simp [hd, eq_comm]

/-- A side whose flag is not set keeps its front, unless the first order of the
side arrives. -/
theorem Tracks.topOf_apply (h : Tracks m.book S live) (hu : Allowed live u)
    (hfront : m.book.best d = none → u.side ≠ sideOf d) (hd : m.updated u d = false) :
    topOf (apply live u) d = topOf live d := by
  have hprices := h.prices_eq d
  have hbest := h.shaped.levels.best d
  cases hS : S d with
  | nil =>
    rw [hS] at hprices hbest
    have hother := hfront hbest
    have hnil : pricesOf (apply live u) d = [] := by
      rw [List.eq_nil_iff_forall_not_mem]
      intro p hp
      rw [mem_pricesOf_iff, h.ordersOf_apply hu fun hc => hother hc.1, ← mem_pricesOf_iff,
        ← hprices] at hp
      simp at hp
    rw [topOf_nil hnil, topOf_nil hprices.symm]
  | cons L w =>
    rw [hS] at hprices hbest
    apply topOf_congr hprices.symm
    intro q hq
    apply h.ordersOf_apply hu
    rintro ⟨hside, rfl⟩
    have hprice := (h.shaped.level d L (by simp [hS])).price
    have hset := (updated_some hbest).mpr ⟨hside, by rwa [hprice]⟩
    rw [hd] at hset
    cases hset

theorem Tracks.seen_quotes (h : Tracks m.book S live) (hbbo : m.bbo = quotes live)
    (hu : AllowedQuoted live u) (ha : Allowed live u) (ht : u.type ≠ .trade)
    (hfront : ∀ d, m.book.best d = none → u.side ≠ sideOf d) :
    m.seen u = .ok (quotes (apply live u)) := by
  obtain ⟨b, S', hb, htracks⟩ := applyUpdate_tracks h ha.permitted
  have hq : ∀ d, b.bestQuote (b.best d) = .ok (topOf (apply live u) d) := by
    intro d
    rw [bestQuote_spec htracks.shaped d, htracks.quoteOf_eq (hu.2 d)]
  rw [seen_iff hbbo ht hb hq]
  intro d
  by_cases hd : m.updated u d = true
  · exact .inl hd
  · exact .inr (h.topOf_apply ha (hfront d) (by simpa using hd))

theorem Quoted.not_seen_add (h : Quoted m live) (ht : u.type = .add) (ha : Allowed live u)
    (hd : u.side = sideOf d) (hbest : m.book.best d = none) :
    m.seen u ≠ .ok (quotes (apply live u)) := by
  intro hseen
  have hside := side_of_seen hseen (updated_none hbest)
  rw [h.bbo, quotes, quotes, BBO.side_ofSides, BBO.side_ofSides, h.best_eq_none_iff.mp hbest,
    topOf_eq_nil_iff] at hside
  · have hin : u.price ∈ pricesOf (apply live u) d := by
      rw [mem_pricesOf]
      exact ⟨⟨u.orderId, u.side, u.price, u.qty, u.priority⟩, by simp [apply, ht], hd, rfl⟩
    simp [hside] at hin
  · simp only [Allowed, ht] at ha
    simp only [apply, ht]
    intro o ho
    rcases List.mem_append.mp ho with ho | ho
    · exact h.price_lt o ho
    · rw [List.mem_singleton.mp ho]
      exact ha.2.2.2.1

theorem Quoted.clear_returns (h : Quoted m live) : ∃ b', m.book.clear = .ok b' ∧ Blank b' := by
  rcases h.book with ⟨S, htracks⟩ | ⟨hblank, -⟩
  · obtain ⟨b', hok, hblank, -⟩ := MarketOrderBook.clear_returns htracks
    exact ⟨b', hok, hblank⟩
  · exact ⟨m.book, hblank.clear_eq, hblank⟩

theorem book_of_onMarketUpdate (hok : m.onMarketUpdate u = .ok m') (ht : u.type ≠ .trade) :
    m.applyUpdate u = .ok m'.book := by
  unfold onMarketUpdate at hok
  simp only [ht, if_false] at hok
  obtain ⟨b, hb, hok⟩ := bind_eq_ok.mp hok
  obtain ⟨m₁, hm₁, hok⟩ := bind_eq_ok.mp hok
  obtain ⟨_, -, hok⟩ := bind_eq_ok.mp hok
  rw [updateBBO_eq] at hm₁
  obtain ⟨_, -, hm₁⟩ := bind_eq_ok.mp hm₁
  obtain ⟨_, -, hm₁⟩ := bind_eq_ok.mp hm₁
  cases hok
  cases hm₁
  exact hb

theorem Quoted.clear_step (h : Quoted m live) (ht : u.type = .clear) :
    (m.seen u = .ok (quotes (apply live u)) ↔ KeepsQuote m u) ∧
      (KeepsQuote m u → ∀ m', m.onMarketUpdate u = .ok m' → Quoted m' (apply live u)) := by
  obtain ⟨b, hb, hblank⟩ := h.clear_returns
  have happly : m.applyUpdate u = .ok b := by
    simp only [applyUpdate, ht]
    exact hb
  have hlive : apply live u = [] := by simp only [apply, ht]
  have hq : ∀ d, b.bestQuote (b.best d) = .ok (topOf [] d) := by
    intro d
    rw [hblank.best d, topOf_nil (by cases d <;> rfl)]
    rfl
  have hiff : m.seen u = .ok (quotes (apply live u)) ↔ KeepsQuote m u := by
    rw [hlive, seen_iff h.bbo (by simp [ht]) happly hq]
    simp only [KeepsQuote, ht]
    apply forall_congr'
    intro d
    rw [h.best_eq_none_iff, or_comm, eq_comm]
  refine ⟨hiff, fun hk m' hok => ?_⟩
  have hseen := hiff.mpr hk
  rw [seen_of_ok hok, Except.ok.injEq] at hseen
  have hbook := book_of_onMarketUpdate hok (by simp [ht])
  rw [happly, Except.ok.injEq] at hbook
  exact ⟨hseen, .inr ⟨hbook ▸ hblank, hlive⟩⟩

/-- `TRADE` calls the strategy with the book as it is. -/
theorem Quoted.trade_step (h : Quoted m live) (ht : u.type = .trade) :
    (m.seen u = .ok (quotes (apply live u)) ↔ KeepsQuote m u) ∧
      (KeepsQuote m u → ∀ m', m.onMarketUpdate u = .ok m' → Quoted m' (apply live u)) := by
  have hlive : apply live u = live := by simp only [apply, ht]
  rw [hlive]
  constructor
  · simp only [seen, ht, if_true, KeepsQuote, iff_true, h.bbo]
    rfl
  · intro _ m' hok
    simp only [onMarketUpdate, ht, if_true] at hok
    cases hok
    exact h

theorem Quoted.best_ne_none (h : Quoted m live) {o : LiveOrder} (ho : o ∈ live)
    (hs : o.side = sideOf d) : m.book.best d ≠ none := by
  rw [Ne, h.best_eq_none_iff, topOf_eq_nil_iff h.price_lt]
  intro hnil
  have hin : o.price ∈ pricesOf live d := mem_pricesOf.mpr ⟨o, ho, hs, rfl⟩
  simp [hnil] at hin

theorem Quoted.tracks (h : Quoted m live) (hbest : m.book.best d ≠ none) :
    ∃ S, Tracks m.book S live := by
  rcases h.book with htracks | ⟨hblank, -⟩
  · exact htracks
  · exact (hbest (hblank.best d)).elim

/-- The side of an update of the orders; `MODIFY` and `CANCEL` find it occupied. -/
theorem Quoted.side_of_allowed (h : Quoted m live) (ha : Allowed live u) (ht : u.type ≠ .trade) :
    ∃ d, u.side = sideOf d ∧ (KeepsQuote m u ↔ m.book.best d ≠ none) ∧
      (u.type = .add ∨ m.book.best d ≠ none) := by
  have hfound : (∃ o ∈ live, o.orderId = u.orderId ∧ o.side = u.side ∧ o.price = u.price) →
      ∃ d, u.side = sideOf d ∧ m.book.best d ≠ none := by
    rintro ⟨o, ho, -, hs, -⟩
    have hside : o.side = .buy ∨ o.side = .sell := by
      rcases h.book with ⟨S, htracks⟩ | ⟨-, rfl⟩
      · exact htracks.sides o ho
      · simp at ho
    obtain ⟨d, hd⟩ := exists_sideOf hside
    exact ⟨d, hs ▸ hd, h.best_ne_none ho hd⟩
  unfold Allowed at ha
  split at ha
  · next hadd =>
    obtain ⟨d, hd⟩ := exists_sideOf ha.2.2.1
    refine ⟨d, hd, ?_, .inl hadd⟩
    simp only [KeepsQuote, hadd, hd, sideOf_beq_buy]
  · next hmodify =>
    obtain ⟨d, hd, hbest⟩ := hfound ha
    exact ⟨d, hd, by simp [KeepsQuote, hmodify, hbest], .inr hbest⟩
  · next hcancel =>
    obtain ⟨d, hd, hbest⟩ := hfound ha
    exact ⟨d, hd, by simp [KeepsQuote, hcancel, hbest], .inr hbest⟩
  · next htrade => exact (ht htrade).elim
  · exact ha.elim

theorem Quoted.order_step (h : Quoted m live) (hu : AllowedQuoted live u) (ha : Allowed live u)
    (ht : u.type ≠ .trade) : (m.seen u = .ok (quotes (apply live u)) ↔ KeepsQuote m u) ∧
      (KeepsQuote m u → ∀ m', m.onMarketUpdate u = .ok m' → Quoted m' (apply live u)) := by
  obtain ⟨d, hd, hkeeps, hadd⟩ := h.side_of_allowed ha ht
  rw [hkeeps]
  have hshown : m.book.best d ≠ none → m.seen u = .ok (quotes (apply live u)) := by
    intro hbest
    obtain ⟨S, htracks⟩ := h.tracks hbest
    apply htracks.seen_quotes h.bbo hu ha ht
    intro e he hside
    rw [hd, sideOf_inj] at hside
    exact hbest (hside ▸ he)
  refine ⟨⟨fun hseen hnone => ?_, hshown⟩, fun hbest m' hok => ?_⟩
  · rcases hadd with hadd | hbest
    · exact h.not_seen_add hadd ha hd hnone hseen
    · exact hbest hnone
  · have hseen := hshown hbest
    obtain ⟨S, htracks⟩ := h.tracks hbest
    rw [seen_of_ok hok, Except.ok.injEq] at hseen
    exact ⟨hseen, .inl (htracks.next ha.permitted hok)⟩

/-- One update shows the front of the book exactly when it meets the condition,
and then leaves a quote that is right. -/
theorem quoted_step (h : Quoted m live) (hu : AllowedQuoted live u) :
    (m.seen u = .ok (quotes (apply live u)) ↔ KeepsQuote m u) ∧
      (KeepsQuote m u → ∀ m', m.onMarketUpdate u = .ok m' → Quoted m' (apply live u)) := by
  rcases hu.1 with ht | ha
  · exact h.clear_step ht
  · by_cases ht : u.type = .trade
    · exact h.trade_step ht
    · exact h.order_step hu ha ht

end Steps

section Runs

/-- From any book with a right quote, a stream is quoted rightly at every update
exactly when every update meets the condition. A constructed book, with `us`
empty, is such a book. -/
theorem run_quotes_iff (tickerId : ℕ) (us vs : List MEMarketUpdate) (m : MarketOrderBook)
    (hus : WellFormed [] us) (hrun : run onMarketUpdate (init tickerId) us = .ok m)
    (hbbo : m.bbo = quotes (us.foldl apply []))
    (hvs : Along apply AllowedQuoted (us.foldl apply []) vs) :
    (∀ done u, done ++ [u] <+: vs → ∀ m', run onMarketUpdate m done = .ok m' →
      m'.seen u = .ok (quotes (apply (done.foldl apply (us.foldl apply [])) u))) ↔
    Meets onMarketUpdate KeepsQuote m vs := by
  have hp : Along apply Permitted [] us := Along.imp hus fun _ _ => Allowed.permitted
  have h₀ : Quoted m (us.foldl apply []) :=
    ⟨hbbo, .inl (run_tracks (m := init tickerId) tracks_init hp hrun)⟩
  exact forall_step_iff_meets h₀ hvs fun _ _ _ h hu => quoted_step h hu

/-- The second bid is quoted with the first; a better one, its removal and a
change of the second are followed. -/
theorem run_quotes_iff_second_bid : ∃ m,
    run onMarketUpdate (init 0) [⟨.add, 1, 0, .buy, 10, 5, 1⟩, ⟨.add, 2, 0, .buy, 10, 6, 2⟩] =
      .ok m ∧
    ∀ done u, done ++ [u] <+: [⟨.add, 3, 0, .buy, 11, 4, 1⟩, ⟨.cancel, 3, 0, .buy, 11, 4, 1⟩,
        ⟨.modify, 2, 0, .buy, 10, 9, 2⟩] → ∀ m', run onMarketUpdate m done = .ok m' →
      m'.seen u = .ok (quotes (apply (done.foldl apply
        [⟨1, .buy, 10, 5, 1⟩, ⟨2, .buy, 10, 6, 2⟩]) u)) := by
  have hus : WellFormed [] [⟨.add, 1, 0, .buy, 10, 5, 1⟩, ⟨.add, 2, 0, .buy, 10, 6, 2⟩] := by
    simp [WellFormed, Along, Allowed, apply, meMaxOrderIds, meMaxPriceLevels]
  have hbbo : (run onMarketUpdate (init 0) [⟨.add, 1, 0, .buy, 10, 5, 1⟩,
      ⟨.add, 2, 0, .buy, 10, 6, 2⟩]).map (fun m => m.bbo) =
        .ok (quotes [⟨1, .buy, 10, 5, 1⟩, ⟨2, .buy, 10, 6, 2⟩]) := by
    decide
  have hmeets : (run onMarketUpdate (init 0) [⟨.add, 1, 0, .buy, 10, 5, 1⟩,
      ⟨.add, 2, 0, .buy, 10, 6, 2⟩]).map (fun m => decide (Meets onMarketUpdate KeepsQuote m
        [⟨.add, 3, 0, .buy, 11, 4, 1⟩, ⟨.cancel, 3, 0, .buy, 11, 4, 1⟩,
          ⟨.modify, 2, 0, .buy, 10, 9, 2⟩])) = .ok true := by
    decide
  cases hrun : run onMarketUpdate (init 0) [⟨.add, 1, 0, .buy, 10, 5, 1⟩,
    ⟨.add, 2, 0, .buy, 10, 6, 2⟩] with
  | error e =>
    rw [hrun] at hbbo
    cases hbbo
  | ok m =>
    rw [hrun] at hbbo hmeets
    refine ⟨m, rfl, (run_quotes_iff 0 _ _ m hus hrun (Except.ok.inj hbbo) ?_).mpr ?_⟩
    · refine ⟨⟨.inr ?_, by decide⟩, ⟨.inr ?_, by decide⟩, ⟨.inr ?_, by decide⟩, trivial⟩ <;>
        simp [Allowed, apply, meMaxOrderIds, meMaxPriceLevels]
    · exact of_decide_eq_true (Except.ok.inj hmeets)

/-- The first bid of a new book is not quoted. -/
theorem first_bid_is_not_quoted :
    Along apply AllowedQuoted [] [⟨.add, 1, 0, .buy, 10, 5, 1⟩] ∧
      ¬∀ done u, done ++ [u] <+: [⟨.add, 1, 0, .buy, 10, 5, 1⟩] →
        ∀ m', run onMarketUpdate (init 0) done = .ok m' →
          m'.seen u = .ok (quotes (apply (done.foldl apply []) u)) := by
  constructor
  · refine ⟨⟨.inr ?_, ?_⟩, trivial⟩
    · simp [Allowed, meMaxOrderIds, meMaxPriceLevels]
    · decide
  · intro hall
    have hseen := hall [] _ List.prefix_rfl _ rfl
    revert hseen
    decide

end Runs

end MarketOrderBook

end HighPerformance
