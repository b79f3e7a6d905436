import HighPerformance.MEOrderBook
import HighPerformance.PriceLevelOrders

/-!
# Matching as a sweep

On a shape, `checkForMatch` is a sweep through the queue of the opposite side:
orders are taken from the front until the incoming quantity is used up or the
price is no longer acceptable. `sweep` is that function on plain lists, and the
loop of the source is shown to compute it, messages included.
-/

namespace HighPerformance.MEOrderBook
open LevelBook CircularList

/-- `m` stores the shape `S`, and its table can hold every order of it. -/
structure Rep (m : MEOrderBook) (S : Shape MEOrderIds) : Prop where
  shaped : Shaped m.book S []
  indexed : Indexed meBookKind m.book S
  keys : ∀ o ∈ S.orders, checkClientOrderKey (meBookKind.key o.ident) = .ok ()

/-- The messages of one trade with the resting order `o`. -/
def tradeMessages (i : Incoming) (leaves price : ℕ) (o : Resting MEOrderIds) : List Outgoing :=
  let fill := min leaves o.qty
  [.response ⟨.filled, i.clientId, i.tickerId, i.clientOrderId, i.newMarketOrderId, i.side, price,
      fill, leaves - fill⟩,
    .response ⟨.filled, o.ident.clientId, i.tickerId, o.ident.clientOrderId,
      o.ident.marketOrderId, o.side, price, fill, o.qty - fill⟩,
    .update ⟨.trade, orderIdInvalid, i.tickerId, i.side, price, fill, priorityInvalid⟩,
    if o.qty ≤ leaves then
      .update ⟨.cancel, o.ident.marketOrderId, i.tickerId, o.side, price, o.qty, priorityInvalid⟩
    else
      .update ⟨.modify, o.ident.marketOrderId, i.tickerId, o.side, price, o.qty - fill,
        o.priority⟩]

/-- What is left of the incoming quantity and of the queue, and what is sent. -/
def sweep (i : Incoming) (stops : ℕ → Bool) :
    ℕ → List (ℕ × Resting MEOrderIds) → ℕ × List (ℕ × Resting MEOrderIds) × List Outgoing
  | leaves, [] => (leaves, [], [])
  | leaves, (price, o) :: rest =>
      if leaves = 0 ∨ stops price = true then (leaves, (price, o) :: rest, [])
      else if o.qty ≤ leaves then
        let r := sweep i stops (leaves - o.qty) rest
        (r.1, r.2.1, tradeMessages i leaves price o ++ r.2.2)
      else (0, (price, { o with qty := o.qty - leaves }) :: rest, tradeMessages i leaves price o)

/-- `m'` stores `S'`, which differs from `S` only in the queue of side `d`. -/
structure MatchedTo (m m' : MEOrderBook) (S S' : Shape MEOrderIds) (d : Bool)
    (queue : List (ℕ × Resting MEOrderIds)) : Prop where
  rep : Rep m' S'
  tickerId : m'.tickerId = m.tickerId
  nextId : m'.nextMarketOrderId = m.nextMarketOrderId
  queue : Shape.queue (S' d) = queue
  other : S' (!d) = S (!d)

section Trade
variable {m : MEOrderBook} {S : Shape MEOrderIds} {d : Bool} {L : PriceLevel MEOrderIds}
  {w : List (PriceLevel MEOrderIds)} {o : Resting MEOrderIds} {y : List (Resting MEOrderIds)}
  {leaves : ℕ}

theorem Rep.orderData (h : Rep m S) (hS : S d = L :: w) (ho : L.orders = o :: y) :
    m.book.orderData o.addr = (o.ident, o.side, L.price, o.qty, o.priority) :=
  ((h.shaped.level d L (by simp [hS])).orders o (by simp [ho])).2

theorem Rep.setQty (h : Rep m S) (hS : S d = L :: w) (ho : L.orders = o :: y) (qty : ℕ) :
    ∃ S', Rep { m with book := m.book.setQty o.addr qty } S' ∧
      QtySet S S' d [] L w [] o y qty := by
  obtain ⟨S', hshaped, hidx, hset⟩ := setQty_spec h.shaped h.indexed (u := []) hS (x := []) ho qty
  refine ⟨S', ⟨hshaped, hidx, ?_⟩, hset⟩
  obtain ⟨rest, h₁, h₂⟩ := hset.perm
  intro z hz
  rcases List.mem_cons.mp (h₂.mem_iff.mp hz) with rfl | hz
  · exact h.keys o (h₁.mem_iff.mpr (by simp))
  · exact h.keys z (h₁.mem_iff.mpr (List.mem_cons_of_mem _ hz))

theorem Rep.removeOrder {u : List (PriceLevel MEOrderIds)} {x : List (Resting MEOrderIds)}
    (h : Rep m S) (hS : S d = u ++ L :: w) (ho : L.orders = x ++ o :: y) :
    ∃ m' S', m.removeOrder o.addr = .ok m' ∧ Rep m' S' ∧ m'.tickerId = m.tickerId ∧
      m'.nextMarketOrderId = m.nextMarketOrderId ∧ OrderGone S S' d u L w o (x ++ y) := by
  have hom : o ∈ S.orders := Shape.mem_orders.mpr ⟨d, L, by simp [hS], by simp [ho]⟩
  obtain ⟨b', S', hok, hshaped, hidx, hgone⟩ :=
    removeOrder_spec h.shaped h.indexed hS ho (h.keys o hom)
  refine ⟨{ m with book := b' }, S', ?_, ⟨hshaped, hidx, ?_⟩, rfl, rfl, hgone⟩
  · simp only [MEOrderBook.removeOrder, hok, bind, Except.bind, pure, Except.pure]
  · intro z hz
    exact h.keys z (hgone.perm.mem_iff.mpr (List.mem_cons_of_mem _ hz))

theorem matchOrder_fills_eq {m' : MEOrderBook} {price : ℕ} (i : Incoming)
    (hdata : m.book.orderData o.addr = (o.ident, o.side, price, o.qty, o.priority))
    (hq : o.qty ≤ leaves)
    (hok : MEOrderBook.removeOrder { m with book := m.book.setQty o.addr 0 } o.addr = .ok m') :
    matchOrder m i o.addr leaves = .ok (m', leaves - o.qty, tradeMessages i leaves price o) := by
  simp only [LevelBook.orderData, Prod.mk.injEq] at hdata
  have hmin : min leaves o.qty = o.qty := Nat.min_eq_right hq
  simp only [matchOrder, hdata, hmin, Nat.sub_self, if_true, bind, Except.bind]
  rw [hok]
  simp [tradeMessages, hq, pure, Except.pure]

/-- The incoming quantity is used up before the resting order is. -/
theorem matchOrder_reduces_eq {price : ℕ} (i : Incoming)
    (hdata : m.book.orderData o.addr = (o.ident, o.side, price, o.qty, o.priority))
    (hq : leaves < o.qty) :
    matchOrder m i o.addr leaves =
      .ok ({ m with book := m.book.setQty o.addr (o.qty - leaves) }, 0,
        tradeMessages i leaves price o) := by
  simp only [LevelBook.orderData, Prod.mk.injEq] at hdata
  have hmin : min leaves o.qty = leaves := Nat.min_eq_left hq.le
  have hrest : o.qty - leaves ≠ 0 := by omega
  simp [matchOrder, hdata, hmin, hrest, tradeMessages, hq, pure, Except.pure]

theorem matchOrder_fills (h : Rep m S) (hS : S d = L :: w) (ho : L.orders = o :: y)
    (i : Incoming) (hq : o.qty ≤ leaves) :
    ∃ m' S', matchOrder m i o.addr leaves =
        .ok (m', leaves - o.qty, tradeMessages i leaves L.price o) ∧
      MatchedTo m m' S S' d ((y.map fun z => (L.price, z)) ++ Shape.queue w) := by
  obtain ⟨S₁, hrep₁, hset⟩ := h.setQty hS ho 0
  obtain ⟨m', S', hok, hrep', htid, hnid, hgone⟩ := hrep₁.removeOrder (x := []) hset.side rfl
  refine ⟨m', S', matchOrder_fills_eq i (h.orderData hS ho) hq hok, ?_⟩
  constructor
  · exact hrep'
  · exact htid
  · exact hnid
  · rw [hgone.side]
    simp
  · rw [hgone.other, hset.other]

theorem matchOrder_reduces (h : Rep m S) (hS : S d = L :: w) (ho : L.orders = o :: y)
    (i : Incoming) (hq : leaves < o.qty) :
    ∃ m' S', matchOrder m i o.addr leaves = .ok (m', 0, tradeMessages i leaves L.price o) ∧
      MatchedTo m m' S S' d ((L.price, { o with qty := o.qty - leaves }) ::
        (y.map fun z => (L.price, z)) ++ Shape.queue w) := by
  obtain ⟨S', hrep', hset⟩ := h.setQty hS ho (o.qty - leaves)
  refine ⟨_, S', matchOrder_reduces_eq i (h.orderData hS ho) hq, hrep', rfl, rfl, ?_, hset.other⟩
  rw [hset.side]
  simp

end Trade

section Loop
variable {m : MEOrderBook} {S : Shape MEOrderIds} {d : Bool} {stops : ℕ → Bool}
  {i : Incoming} {leaves : ℕ}

@[simp] theorem sweep_nil : sweep i stops leaves [] = (leaves, [], []) := rfl

@[simp] theorem sweep_zero {q : List (ℕ × Resting MEOrderIds)} :
    sweep i stops 0 q = (0, q, []) := by
  cases q with
  | nil => rfl
  | cons x q => simp [sweep]

theorem MatchedTo.refl (h : Rep m S) (d : Bool) : MatchedTo m m S S d (Shape.queue (S d)) :=
  ⟨h, rfl, rfl, rfl, rfl⟩

theorem MatchedTo.trans {m' m'' : MEOrderBook} {S' S'' : Shape MEOrderIds}
    {q q' : List (ℕ × Resting MEOrderIds)} (h : MatchedTo m m' S S' d q)
    (h' : MatchedTo m' m'' S' S'' d q') : MatchedTo m m'' S S'' d q' :=
  ⟨h'.rep, h'.tickerId.trans h.tickerId, h'.nextId.trans h.nextId, h'.queue,
    h'.other.trans h.other⟩

theorem matchLoop_zero {fuel : ℕ} : matchLoop i d stops (fuel + 1) m 0 = .ok (m, 0, []) := by
  simp [matchLoop]

/-- The loop computes the sweep on every description `R m q` of a side by its
queue `q` that allows to meet the first order, to fill it and to reduce it. The
induction is on the fuel: a turn that goes on takes one order off the queue. -/
theorem matchLoop_of (i : Incoming) (d : Bool) (stops : ℕ → Bool) (leaves : ℕ)
    {R : MEOrderBook → List (ℕ × Resting MEOrderIds) → Prop}
    {q : List (ℕ × Resting MEOrderIds)} {fuel : ℕ}
    (hempty : ∀ m, R m [] → m.book.best d = none)
    (hfront : ∀ m price o q, R m ((price, o) :: q) → ∃ l, m.book.best d = some l ∧
      (m.book.level l).firstOrder = some o.addr ∧ (m.book.order o.addr).price = price)
    (hfills : ∀ m price o q leaves, R m ((price, o) :: q) → o.qty ≤ leaves →
      ∃ m', matchOrder m i o.addr leaves = .ok (m', leaves - o.qty, tradeMessages i leaves price o) ∧
        R m' q)
    (hreduces : ∀ m price o q leaves, R m ((price, o) :: q) → 0 < leaves → leaves < o.qty →
      ∃ m', matchOrder m i o.addr leaves = .ok (m', 0, tradeMessages i leaves price o) ∧
        R m' ((price, { o with qty := o.qty - leaves }) :: q))
    (h : R m q) (hfuel : q.length + 2 ≤ fuel) :
    ∃ m', matchLoop i d stops fuel m leaves =
        .ok (m', (sweep i stops leaves q).1, (sweep i stops leaves q).2.2) ∧
      R m' (sweep i stops leaves q).2.1 := by
  induction fuel generalizing m q leaves with
  | zero => omega
  | succ fuel ih =>
    rcases Nat.eq_zero_or_pos leaves with rfl | hleaves
    · rw [sweep_zero]
      exact ⟨m, matchLoop_zero, h⟩
    have hne : leaves ≠ 0 := Nat.pos_iff_ne_zero.mp hleaves
    cases q with
    | nil =>
      refine ⟨m, ?_, h⟩
      simp [matchLoop, hne, hempty m h]
    | cons x q =>
      obtain ⟨price, o⟩ := x
      rw [List.length_cons] at hfuel
      obtain ⟨l, hbest, hfirst, hprice⟩ := hfront m price o q h
      by_cases hstop : stops price = true
      · refine ⟨m, ?_, ?_⟩
        · simp [matchLoop, sweep, hne, hbest, hfirst, hprice, hstop, bind, Except.bind, pure,
            Except.pure]
        · simpa [sweep, hne, hstop] using h
      · by_cases hq : o.qty ≤ leaves
        · obtain ⟨m₁, hok₁, hm₁⟩ := hfills m price o q leaves h hq
          obtain ⟨m', hok, hm'⟩ := @ih m₁ (leaves - o.qty) q hm₁ (by omega)
          refine ⟨m', ?_, ?_⟩
          · simp [matchLoop, sweep, hne, hbest, hfirst, hprice, hstop, hq, hok₁, hok, bind,
              Except.bind, pure, Except.pure]
          · simpa [sweep, hne, hstop, hq] using hm'
        · obtain ⟨m', hok, hm'⟩ := hreduces m price o q leaves h hleaves (by omega)
          obtain ⟨fuel, rfl⟩ : ∃ n, fuel = n + 1 := ⟨fuel - 1, by omega⟩
          refine ⟨m', ?_, ?_⟩
          · rw [matchLoop]
            simp [sweep, hne, hbest, hfirst, hprice, hstop, hq, hok, matchLoop_zero, bind,
              Except.bind, pure, Except.pure]
          · simpa [sweep, hne, hstop, hq] using hm'

theorem matchLoop_spec {fuel : ℕ} (h : Rep m S) (hfuel : S.orders.length + 2 ≤ fuel) :
    ∃ m' S', matchLoop i d stops fuel m leaves =
        .ok (m', (sweep i stops leaves (Shape.queue (S d))).1,
          (sweep i stops leaves (Shape.queue (S d))).2.2) ∧
      MatchedTo m m' S S' d (sweep i stops leaves (Shape.queue (S d))).2.1 := by
  have hnonempty : ∀ {m' S' q}, MatchedTo m m' S S' d q → ∀ L ∈ S' d, L.orders ≠ [] :=
    fun hm L hL => (hm.rep.shaped.level d L hL).nonempty
  have hlen : (Shape.queue (S d)).length + 2 ≤ fuel := by
    have hperm := (S.orders_perm d).length_eq
    rw [List.length_append] at hperm
    rw [Shape.length_queue]
    omega
  have hloop := matchLoop_of i d stops leaves
    (R := fun m' q => ∃ S', MatchedTo m m' S S' d q) ?_ ?_ ?_ ?_ ⟨S, MatchedTo.refl h d⟩ hlen
  · obtain ⟨m', hok, S', hm'⟩ := hloop
    exact ⟨m', S', hok, hm'⟩
  · rintro m₁ ⟨S₁, hm₁⟩
    rw [hm₁.rep.shaped.levels.best, Shape.queue_eq_nil (hnonempty hm₁) hm₁.queue]
    rfl
  · rintro m₁ price o q ⟨S₁, hm₁⟩
    obtain ⟨L, w, y, hS, ho, rfl, -⟩ := Shape.queue_eq_cons (hnonempty hm₁) hm₁.queue
    have hrep := hm₁.rep.shaped.level d L (by simp [hS])
    refine ⟨L.addr, ?_, ?_, congrArg (fun x => x.2.2.1) (hm₁.rep.orderData hS ho)⟩
    · rw [hm₁.rep.shaped.levels.best, hS]
      rfl
    · rw [hrep.firstOrder, ho]
      rfl
  · rintro m₁ price o q leaves ⟨S₁, hm₁⟩ hq
    obtain ⟨L, w, y, hS, ho, rfl, rfl⟩ := Shape.queue_eq_cons (hnonempty hm₁) hm₁.queue
    obtain ⟨m₂, S₂, hok, hm₂⟩ := matchOrder_fills hm₁.rep hS ho i hq
    exact ⟨m₂, hok, S₂, hm₁.trans hm₂⟩
  · rintro m₁ price o q leaves ⟨S₁, hm₁⟩ - hq
    obtain ⟨L, w, y, hS, ho, rfl, rfl⟩ := Shape.queue_eq_cons (hnonempty hm₁) hm₁.queue
    obtain ⟨m₂, S₂, hok, hm₂⟩ := matchOrder_reduces hm₁.rep hS ho i hq
    exact ⟨m₂, hok, S₂, hm₁.trans hm₂⟩

end Loop

section Sweep
variable {i : Incoming} {stops : ℕ → Bool} {leaves : ℕ} {q : List (ℕ × Resting MEOrderIds)}

/-- The quantity that may be traded. -/
def volume (stops : ℕ → Bool) (q : List (ℕ × Resting MEOrderIds)) : ℕ :=
  ((q.filter fun x => !stops x.1).map fun x => x.2.qty).sum

/-- What a trade leaves as it is. -/
def core (o : Resting MEOrderIds) : Ptr × MEOrderIds × Side × ℕ :=
  (o.addr, o.ident, o.side, o.priority)

theorem volume_eq_zero (h : ∀ x ∈ q, stops x.1 = true) : volume stops q = 0 := by
  unfold volume
  rw [List.filter_eq_nil_iff.mpr (fun x hx => by simp [h x hx])]
  rfl

theorem sweep_leaves (hq : q.Pairwise fun x y => stops x.1 = true → stops y.1 = true) :
    (sweep i stops leaves q).1 = leaves - volume stops q := by
  induction q generalizing leaves with
  | nil => simp [volume]
  | cons x q ih =>
    obtain ⟨price, o⟩ := x
    rw [List.pairwise_cons] at hq
    rcases Nat.eq_zero_or_pos leaves with rfl | hleaves
    · simp
    by_cases hstop : stops price = true
    · have hall : ∀ x ∈ (price, o) :: q, stops x.1 = true := by
        intro x hx
        rcases List.mem_cons.mp hx with rfl | hx
        · exact hstop
        · exact hq.1 x hx hstop
      rw [volume_eq_zero hall]
      simp [sweep, hstop]
    · have hvol : volume stops ((price, o) :: q) = o.qty + volume stops q := by
        simp [volume, hstop]
      rw [hvol]
      by_cases ho : o.qty ≤ leaves
      · have hrec := @ih (leaves - o.qty) hq.2
        simp only [sweep, hstop, ho, Nat.pos_iff_ne_zero.mp hleaves, or_self, if_false, if_true,
          Bool.false_eq_true, hrec]
        omega
      · simp only [sweep, hstop, ho, Nat.pos_iff_ne_zero.mp hleaves, or_self, if_false,
          Bool.false_eq_true]
        omega

/-- The sweep takes orders from the front only. -/
theorem sweep_suffix : ((sweep i stops leaves q).2.1.map fun x => (x.1, core x.2)) <:+
    q.map fun x => (x.1, core x.2) := by
  induction q generalizing leaves with
  | nil => simp
  | cons x q ih =>
    obtain ⟨price, o⟩ := x
    unfold sweep
    split
    · exact List.suffix_rfl
    · split
      · rw [List.map_cons]
        exact ih.trans (List.suffix_cons _ _)
      · exact List.suffix_rfl

theorem sweep_stops (hq : q.Pairwise fun x y => stops x.1 = true → stops y.1 = true)
    (hne : (sweep i stops leaves q).1 ≠ 0) :
    ∀ x ∈ (sweep i stops leaves q).2.1, stops x.1 = true := by
  induction q generalizing leaves with
  | nil => simp
  | cons x q ih =>
    obtain ⟨price, o⟩ := x
    rw [List.pairwise_cons] at hq
    unfold sweep at hne ⊢
    split
    · next hend =>
      rw [if_pos hend] at hne
      have hstop : stops price = true := hend.resolve_left hne
      intro x hx
      rcases List.mem_cons.mp hx with rfl | hx
      · exact hstop
      · exact hq.1 x hx hstop
    · next hgo =>
      rw [if_neg hgo] at hne
      split
      · next ho =>
        rw [if_pos ho] at hne
        exact ih hq.2 hne
      · next ho =>
        rw [if_neg ho] at hne
        exact (hne rfl).elim

end Sweep

section Reduced
variable {m m' : MEOrderBook} {S S' T : Shape MEOrderIds} {d : Bool}

/-- Nothing but quantities changed in `S'`, and some orders went. -/
def Reduced (S S' : Shape MEOrderIds) : Prop :=
  ∀ e q, ((S'.contents e q).map core).Sublist ((S.contents e q).map core)

theorem Reduced.exists_of_mem {o' : Resting MEOrderIds} (h : Reduced S S') (ho : o' ∈ S'.orders) :
    ∃ o ∈ S.orders, core o = core o' := by
  obtain ⟨e, q, ho⟩ := Shape.mem_orders_iff_contents.mp ho
  have hm := (h e q).subset (List.mem_map_of_mem ho)
  obtain ⟨o, hoS, he⟩ := List.mem_map.mp hm
  exact ⟨o, Shape.mem_orders_iff_contents.mpr ⟨e, q, hoS⟩, he⟩

theorem contents_core (S : Shape MEOrderIds) (d : Bool) (q : ℕ) : (S.contents d q).map core =
    (((Shape.queue (S d)).map fun x => (x.1, core x.2)).filter fun x => x.1 = q).map Prod.snd := by
  rw [Shape.contents, Shape.ordersAt_eq_queue, List.filter_map, List.map_map, List.map_map]
  rfl

theorem MatchedTo.reduced {i : Incoming} {stops : ℕ → Bool} {leaves : ℕ}
    (h : MatchedTo m m' S S' d (sweep i stops leaves (Shape.queue (S d))).2.1) : Reduced S S' := by
  intro e q
  by_cases he : e = d
  · subst he
    rw [contents_core, contents_core, h.queue]
    exact (sweep_suffix.sublist.filter _).map _
  · have hn : e = !d := by cases e <;> cases d <;> simp_all
    subst hn
    rw [Shape.contents, Shape.contents, h.other]

end Reduced

section Calls
variable {m : MEOrderBook} {S : Shape MEOrderIds} {e : Bool} {i : Incoming} {qty price : ℕ}

/-- Where an order of side `e` stops to trade. -/
def stopsFor (e : Bool) (price : ℕ) (resting : ℕ) : Bool :=
  if e then decide (price < resting) else decide (price > resting)

theorem stopsFor_sorted {ls : List (PriceLevel MEOrderIds)} (price : ℕ)
    (h : (ls.map (·.price)).Pairwise (better (!e))) : (Shape.queue ls).Pairwise fun x y =>
    stopsFor e price x.1 = true → stopsFor e price y.1 = true := by
  apply (Shape.queue_sorted h).imp
  intro x y hxy hx
  cases e
  · simp [better, stopsFor] at hxy hx ⊢
    omega
  · simp [better, stopsFor] at hxy hx ⊢
    omega

theorem stopsFor_mono (h : Rep m S) (price : ℕ) : (Shape.queue (S (!e))).Pairwise fun x y =>
    stopsFor e price x.1 = true → stopsFor e price y.1 = true :=
  stopsFor_sorted price (h.shaped.levels.sorted (!e))

theorem checkForMatch_eq_loop (m : MEOrderBook) (qty : ℕ) (hside : i.side = sideOf e) :
    checkForMatch m i qty = matchLoop i (!e) (stopsFor e i.price)
      (m.book.orderPool.size + 2) m qty := by
  cases e
  · simp only [checkForMatch, hside]
    rfl
  · simp only [checkForMatch, hside]
    rfl

theorem checkForMatch_spec (h : Rep m S) (hside : i.side = sideOf e) :
    ∃ m' S', checkForMatch m i qty =
        .ok (m', (sweep i (stopsFor e i.price) qty (Shape.queue (S (!e)))).1,
          (sweep i (stopsFor e i.price) qty (Shape.queue (S (!e)))).2.2) ∧
      MatchedTo m m' S S' (!e) (sweep i (stopsFor e i.price) qty (Shape.queue (S (!e)))).2.1 := by
  have hlen := h.shaped.length_orders_le
  rw [checkForMatch_eq_loop m qty hside]
  apply matchLoop_spec h
  omega

/-- One more than the priority of the last order. -/
def nextPriority (os : List (Resting MEOrderIds)) : ℕ :=
  match os.getLast? with
  | none => 1
  | some z => (z.priority + 1) % 2 ^ 64

theorem getNextPriority_spec (h : Rep m S) (hp : price < meMaxPriceLevels)
    (hother : ∀ M ∈ S (!e), M.price ≠ price) :
    m.getNextPriority price = .ok (nextPriority (S.contents e price)) := by
  have hlookup := fun l => getOrdersAtPrice_eq_some (l := l) h.shaped.levels hp
  unfold getNextPriority
  cases hget : m.book.getOrdersAtPrice price with
  | none =>
    have hnil : S.contents e price = [] := by
      apply Shape.ordersAt_eq_nil
      intro M hM he
      have hsome := (hlookup M.addr).mpr ⟨M, Shape.mem_levels.mpr ⟨e, hM⟩, rfl, he⟩
      simp [hget] at hsome
    simp [hnil, nextPriority]
  | some l =>
    obtain ⟨L, hLm, rfl, rfl⟩ := (hlookup l).mp hget
    have hLe : L ∈ S e := by
      obtain ⟨d, hd⟩ := Shape.mem_levels.mp hLm
      by_cases hde : d = e
      · rwa [← hde]
      · have hn : d = !e := by cases d <;> cases e <;> simp_all
        subst hn
        exact (hother L hd rfl).elim
    have hrep := h.shaped.level e L hLe
    have hcont := h.shaped.levels.contents_eq hLe
    obtain ⟨z, hz⟩ : ∃ z, L.orders.getLast? = some z := by
      cases hl : L.orders.getLast? with
      | none => exact (hrep.nonempty (List.getLast?_eq_none_iff.mp hl)).elim
      | some z => exact ⟨z, rfl⟩
    obtain ⟨o, y, ho⟩ : ∃ o y, L.orders = o :: y := by
      cases hl : L.orders with
      | nil => exact (hrep.nonempty hl).elim
      | cons o y => exact ⟨o, y, rfl⟩
    have hfirst : (m.book.level L.addr).firstOrder = some o.addr := by
      have hd := congrArg (fun x => x.2.2) hrep.data
      simpa [LevelBook.levelData, ho] using hd
    have hring := hrep.ring
    have hprev : (m.book.order o.addr).prevOrder = some z.addr := by
      rw [ho, List.map_cons] at hring
      have hp := hring.prev_head
      have hlast : (L.orders.map (·.addr)).getLast? = some z.addr := by
        rw [List.getLast?_map, hz]
        rfl
      rw [ho, List.map_cons, List.getLast?_eq_some_getLast (by simp)] at hlast
      rw [← hlast]
      exact hp
    have hprio : (m.book.order z.addr).priority = z.priority :=
      congrArg (fun x => x.2.2.2.2) (hrep.orders z (List.mem_of_getLast? hz)).2
    simp [nextPriority, hcont, hz, hfirst, hprev, hprio, bind, Except.bind, pure, Except.pure]

/-- What the place of a new order on side `e` relies on. -/
structure CanRest (S : Shape MEOrderIds) (e : Bool) (side : Side) (price : ℕ) : Prop where
  dir : (side == .buy) = e
  valid : side = sideOf e ∨ S e = []
  same : ∀ M ∈ S e, M.price = price → side = M.side
  other : ∀ M ∈ S (!e), M.price ≠ price
  starts : (∀ M ∈ S e, M.price ≠ price) → SearchStarts meBookKind side price (S e)

theorem canRest_sided (h : Rep m S) (hs : S.Sided) (hother : ∀ M ∈ S (!e), M.price ≠ price)
    (hstart : (∀ M ∈ S e, M.price ≠ price) →
      SearchStarts meBookKind (sideOf e) price (S e)) : CanRest S e (sideOf e) price :=
  ⟨sideOf_beq_buy e, .inl rfl, fun _ hM _ => (h.shaped.level_side hs hM).symm, hother, hstart⟩

/-- The pools have no block left for another order. -/
def Full (S : Shape MEOrderIds) : Prop :=
  meMaxOrderIds ≤ S.orders.length + 1 ∨ meMaxPriceLevels ≤ S.levels.length + 1

section Rest
variable {side : Side} {cid oid tid mid leaves priority : ℕ}

/-- The block of a new order is allocated, and the order may join the book. -/
theorem rest_allocates (h : Rep m S) (hc : CanRest S e side price) (hp : price < meMaxPriceLevels) :
    (∃ p q, Shaped { m.book with orderPool := q } S [p] ∧
      Joinable meBookKind { m.book with orderPool := q } S e
        ⟨p, ⟨tid, cid, oid, mid⟩, side, leaves, priority⟩ price ∧
      m.restOrder { ident := ⟨tid, cid, oid, mid⟩, side := side, price := price
                    qty := leaves, priority := priority } =
        (LevelBook.addOrder meBookKind { m.book with orderPool := q } p).map
          fun b => { m with book := b }) ∨
    (m.restOrder { ident := ⟨tid, cid, oid, mid⟩, side := side, price := price
                   qty := leaves, priority := priority } = .error MemPool.outOfSpace ∧
      meMaxOrderIds ≤ S.orders.length + 1) := by
  rcases h.shaped.pool.allocate_spec
    { ident := ⟨tid, cid, oid, mid⟩, side := side, price := price, qty := leaves
      priority := priority } with
    ⟨p, q, hq, hfresh, hholds, hsize, hget, hkeep⟩ | ⟨herr, hfull⟩
  · left
    refine ⟨p, q, ?_, ?_, ?_⟩
    · apply h.shaped.setPool
      · exact List.nodup_cons.mpr ⟨hfresh, h.shaped.nodup⟩
      · exact hholds
      · exact hsize
      · intro c hc
        apply hkeep
        rintro rfl
        exact hfresh (by simpa using hc)
    · constructor
      · exact hp
      · simp only [LevelBook.orderData, LevelBook.order, hget]
      · exact hc.dir
      · exact hc.valid
      · exact hc.same
      · exact hc.other
      · exact hc.starts
    · simp only [restOrder, hq, bind, Except.bind, MEOrderBook.addOrder]
      cases LevelBook.addOrder meBookKind { m.book with orderPool := q } p <;> rfl
  · right
    rw [h.shaped.poolSize, List.nil_append, List.length_map] at hfull
    refine ⟨?_, hfull⟩
    simp only [restOrder, herr, bind, Except.bind]

/-- The last part of `add`: the remaining quantity rests in the book. -/
theorem rest_spec (h : Rep m S) (hc : CanRest S e side price) (hp : price < meMaxPriceLevels)
    (hkey : checkClientOrderKey (cid, oid) = .ok ())
    (hnew : ∀ x ∈ S.orders, meBookKind.key x.ident ≠ (cid, oid)) :
    (∃ m' S' p, m.restOrder
        { ident := ⟨tid, cid, oid, mid⟩, side := side, price := price, qty := leaves
          priority := priority } = .ok m' ∧
      Rep m' S' ∧ m'.tickerId = m.tickerId ∧ m'.nextMarketOrderId = m.nextMarketOrderId ∧
      OrderAdded S S' e price ⟨p, ⟨tid, cid, oid, mid⟩, side, leaves, priority⟩) ∨
    (m.restOrder
        { ident := ⟨tid, cid, oid, mid⟩, side := side, price := price, qty := leaves
          priority := priority } = .error MemPool.outOfSpace ∧ Full S) := by
  rcases @rest_allocates m S e price side cid oid tid mid leaves priority h hc hp with
    ⟨p, q, hpend, hjoin, hcall⟩ | ⟨herr, hfull⟩
  · have hidx : Indexed meBookKind { m.book with orderPool := q } S := h.indexed
    set o : Resting MEOrderIds := ⟨p, ⟨tid, cid, oid, mid⟩, side, leaves, priority⟩ with ho
    rcases addOrder_spec (o := o) hpend hidx hjoin hkey hnew with
      ⟨b', S', hok, hshaped, hidx, hadded⟩ | ⟨herr, -, hfull⟩
    · left
      refine ⟨{ m with book := b' }, S', p, ?_, ⟨hshaped, hidx, ?_⟩, rfl, rfl, hadded⟩
      · rw [hcall, hok]
        rfl
      · intro z hz
        rcases List.mem_cons.mp (hadded.perm.mem_iff.mp hz) with rfl | hz
        · exact hkey
        · exact h.keys z hz
    · right
      refine ⟨?_, .inr hfull⟩
      rw [hcall, herr]
      rfl
  · exact .inr ⟨herr, .inl hfull⟩

theorem rest_outOfRange (h : Rep m S) (hc : CanRest S e side price) (hp : price < meMaxPriceLevels)
    {f : Fault} (hkey : checkClientOrderKey (cid, oid) = .error f) :
    m.restOrder { ident := ⟨tid, cid, oid, mid⟩, side := side, price := price, qty := leaves
                  priority := priority } = .error f ∨
    (m.restOrder { ident := ⟨tid, cid, oid, mid⟩, side := side, price := price, qty := leaves
                   priority := priority } = .error MemPool.outOfSpace ∧ Full S) := by
  rcases @rest_allocates m S e price side cid oid tid mid leaves priority h hc hp with
    ⟨p, q, hpend, hjoin, hcall⟩ | ⟨herr, hfull⟩
  · set o : Resting MEOrderIds := ⟨p, ⟨tid, cid, oid, mid⟩, side, leaves, priority⟩ with ho
    rw [hcall]
    rcases addOrder_outOfRange (o := o) hpend hjoin hkey with herr | ⟨herr, hfull⟩
    · left
      exact congrArg (Except.map fun b => { m with book := b }) herr
    · right
      exact ⟨congrArg (Except.map fun b => { m with book := b }) herr, .inr hfull⟩
  · exact .inr ⟨herr, .inl hfull⟩

end Rest

/-- The message with which an order is accepted. -/
def acceptance (cid oid tid mid : ℕ) (side : Side) (price qty : ℕ) : Outgoing :=
  .response ⟨.accepted, cid, tid, oid, mid, side, price, 0, qty⟩

/-- What `add` does when the matching is over. -/
theorem add_eq {cid oid tid : ℕ} {side : Side} (x : MEOrderBook × ℕ × List Outgoing)
    (hx : m.checkForMatch ⟨cid, oid, tid, side, price, m.nextMarketOrderId % 2 ^ 32⟩ qty = .ok x) :
    m.add cid oid tid side price qty =
      if x.2.1 = 0 then
        .ok (x.1, acceptance cid oid tid m.nextMarketOrderId side price qty :: x.2.2)
      else (x.1.getNextPriority price).bind fun priority =>
        (x.1.restOrder { ident := ⟨tid, cid, oid, m.nextMarketOrderId⟩, side := side
                         price := price, qty := x.2.1, priority := priority }).bind fun m' =>
          .ok (m', acceptance cid oid tid m.nextMarketOrderId side price qty :: x.2.2 ++
            [.update ⟨.add, m.nextMarketOrderId, tid, side, price, x.2.1, priority⟩]) := by
  simp only [add, generateNewMarketOrderId, hx, bind, Except.bind, pure, Except.pure]
  split <;> rfl

/-- `add` on shapes: the queue of the other side is swept, and what remains of
the quantity rests behind the orders of its price. -/
theorem add_spec {cid oid : ℕ} (tid : ℕ) (h : Rep m S) (hs : S.Sided) (hp : price < meMaxPriceLevels)
    (hkey : checkClientOrderKey (cid, oid) = .ok ())
    (hnew : ∀ x ∈ S.orders, meBookKind.key x.ident ≠ (cid, oid))
    (i : Incoming) (hi : i = ⟨cid, oid, tid, sideOf e, price, m.nextMarketOrderId % 2 ^ 32⟩)
    (r : ℕ × List (ℕ × Resting MEOrderIds) × List Outgoing)
    (hr : r = sweep i (stopsFor e price) qty (Shape.queue (S (!e))))
    (hstart : r.1 ≠ 0 → (∀ M ∈ S e, M.price ≠ price) →
      SearchStarts meBookKind (sideOf e) price (S e)) :
    ∃ m₁ S₁, MatchedTo m m₁ S S₁ (!e) r.2.1 ∧
      ((r.1 = 0 ∧ m.add cid oid tid (sideOf e) price qty =
          .ok (m₁, acceptance cid oid tid m.nextMarketOrderId (sideOf e) price qty :: r.2.2)) ∨
        (r.1 ≠ 0 ∧ ∃ m' S' p, m.add cid oid tid (sideOf e) price qty =
            .ok (m', acceptance cid oid tid m.nextMarketOrderId (sideOf e) price qty :: r.2.2 ++
              [.update ⟨.add, m.nextMarketOrderId, tid, sideOf e, price, r.1,
                nextPriority (S₁.contents e price)⟩]) ∧
          Rep m' S' ∧ m'.tickerId = m.tickerId ∧ m'.nextMarketOrderId = m.nextMarketOrderId ∧
          OrderAdded S₁ S' e price ⟨p, ⟨tid, cid, oid, m.nextMarketOrderId⟩, sideOf e, r.1,
            nextPriority (S₁.contents e price)⟩) ∨
        (r.1 ≠ 0 ∧ m.add cid oid tid (sideOf e) price qty = .error MemPool.outOfSpace)) := by
  have hside : i.side = sideOf e := by rw [hi]
  have hprice : i.price = price := by rw [hi]
  obtain ⟨m₁, S₁, hmatch, hm₁⟩ := @checkForMatch_spec m S e i qty h hside
  rw [hprice, ← hr] at hmatch hm₁
  refine ⟨m₁, S₁, hm₁, ?_⟩
  rw [add_eq _ (hi ▸ hmatch)]
  rcases Nat.eq_zero_or_pos r.1 with h0 | hpos
  · left
    exact ⟨h0, by simp [h0]⟩
  have hne : r.1 ≠ 0 := Nat.pos_iff_ne_zero.mp hpos
  have hred : Reduced S S₁ := MatchedTo.reduced (i := i) (hr ▸ hm₁)
  have hsame : S₁ e = S e := by
    have ho := hm₁.other
    rwa [Bool.not_not] at ho
  have hs₁ : S₁.Sided := by
    intro o' ho'
    obtain ⟨o, ho, hcore⟩ := hred.exists_of_mem ho'
    have hside := congrArg (fun x => x.2.2.1) hcore
    rw [← show o.side = o'.side from hside]
    exact hs o ho
  have hnew₁ : ∀ x ∈ S₁.orders, meBookKind.key x.ident ≠ (cid, oid) := by
    intro o' ho'
    obtain ⟨o, ho, hcore⟩ := hred.exists_of_mem ho'
    have hident := congrArg (fun x => x.2.1) hcore
    rw [← show o.ident = o'.ident from hident]
    exact hnew o ho
  have hother : ∀ M ∈ S₁ (!e), M.price ≠ price := by
    intro M hM hMp
    obtain ⟨o, ho⟩ := List.exists_mem_of_ne_nil _ (hm₁.rep.shaped.level _ M hM).nonempty
    have hmem : (M.price, o) ∈ Shape.queue (S₁ (!e)) :=
      List.mem_flatMap.mpr ⟨M, hM, List.mem_map_of_mem ho⟩
    rw [hm₁.queue, hr] at hmem
    rw [hr] at hne
    have hstop := sweep_stops (stopsFor_mono h price) hne _ hmem
    rw [hMp] at hstop
    cases e <;> simp [stopsFor] at hstop
  have hprio := getNextPriority_spec hm₁.rep hp hother
  right
  rw [hprio, if_neg hne]
  have hcan := canRest_sided hm₁.rep hs₁ hother (hsame ▸ hstart hne)
  rcases @rest_spec m₁ S₁ e price (sideOf e) cid oid tid m.nextMarketOrderId r.1
      (nextPriority (S₁.contents e price)) hm₁.rep hcan hp hkey hnew₁ with
    ⟨m', S', p, hok, hrep, htid, hnid, hadded⟩ | ⟨herr, -⟩
  · left
    refine ⟨hne, m', S', p, ?_, hrep, htid.trans hm₁.tickerId, hnid.trans hm₁.nextId, hadded⟩
    simp only [Except.bind, hok]
  · right
    refine ⟨hne, ?_⟩
    simp only [Except.bind, herr]

/-- The answer to the cancellation of an order that is not there. -/
def rejection (cid oid tid : ℕ) : Outgoing :=
  .response ⟨.cancelRejected, cid, tid, oid, orderIdInvalid, .invalid, priceInvalid, qtyInvalid,
    qtyInvalid⟩

/-- `cancel` either finds nothing or takes one order out of the book. -/
theorem cancel_spec {cid oid : ℕ} (tid : ℕ) (h : Rep m S) (hc : cid < meMaxNumClients)
    (ho : oid < meMaxOrderIds) :
    (m.cancel cid oid tid = .ok (m, [rejection cid oid tid]) ∧
      ∀ o ∈ S.orders, meBookKind.key o.ident ≠ (cid, oid)) ∨
    ∃ m' S' d u L w x o y out, m.cancel cid oid tid = .ok (m', out) ∧ Rep m' S' ∧
      m'.tickerId = m.tickerId ∧ m'.nextMarketOrderId = m.nextMarketOrderId ∧
      meBookKind.key o.ident = (cid, oid) ∧ S d = u ++ L :: w ∧ L.orders = x ++ o :: y ∧
      OrderGone S S' d u L w o (x ++ y) ∧
      out = [.update ⟨.cancel, o.ident.marketOrderId, tid, o.side, L.price, 0, o.priority⟩,
        .response ⟨.canceled, cid, tid, oid, o.ident.marketOrderId, o.side, L.price, qtyInvalid,
          o.qty⟩] := by
  have hat : at? "cid_oid_to_order_" meMaxOrderIds oid = .ok () := at?_lt ho
  cases hid : m.book.idToOrder (cid, oid) with
  | none =>
    left
    constructor
    · simp [cancel, rejection, hc, hat, hid, bind, Except.bind, pure, Except.pure]
    · intro o ho hkey
      have hsome := (h.indexed (cid, oid) o.addr).mpr ⟨o, ho, rfl, hkey⟩
      simp [hid] at hsome
  | some p =>
    right
    obtain ⟨o, hoS, rfl, hkey⟩ := (h.indexed (cid, oid) p).mp hid
    obtain ⟨d, L, hL, hoL⟩ := Shape.mem_orders.mp hoS
    obtain ⟨u, w, hS⟩ := List.append_of_mem hL
    obtain ⟨x, y, hxy⟩ := List.append_of_mem hoL
    obtain ⟨m', S', hok, hrep, htid, hnid, hgone⟩ := h.removeOrder hS hxy
    have hdata := ((h.shaped.level d L hL).orders o hoL).2
    simp only [LevelBook.orderData, Prod.mk.injEq] at hdata
    refine ⟨m', S', d, u, L, w, x, o, y, _, ?_, hrep, htid, hnid, hkey, hS, hxy, hgone, rfl⟩
    simp only [cancel, hc, if_true, hat, hid, bind, Except.bind, pure, Except.pure, hok, hdata]

end Calls

end HighPerformance.MEOrderBook
