import HighPerformance.MEOrderBookCancel

/-!
# Greedy matching against one side

`greedy` lists the trades of price-time priority: the orders of the opposite
side in the order of their queue, each for as much as both sides have, until
the incoming quantity is used up or the price is worse than the limit. The
matching loop makes exactly these trades. Only the opposite side has to be in
order for this (`SideRep`); the own side of the book may look like anything.
-/

namespace HighPerformance.MEOrderBook
open LevelBook CircularList FallibleRun

/-- One trade: the resting order as it was met, and the incoming quantity then. -/
structure Fill where
  price : ℕ
  order : Resting MEOrderIds
  leaves : ℕ

def Fill.execQty (f : Fill) : ℕ := min f.leaves f.order.qty

/-- Price-time priority; `stops` refuses the prices worse than the limit. -/
def greedy (stops : ℕ → Bool) : ℕ → List (ℕ × Resting MEOrderIds) → List Fill
  | _, [] => []
  | leaves, (price, o) :: rest =>
      if leaves = 0 ∨ stops price = true then []
      else ⟨price, o, leaves⟩ :: greedy stops (leaves - min leaves o.qty) rest

/-- What the trades have taken from the order in the block `p`. -/
def executed (fills : List Fill) (p : Ptr) : ℕ :=
  ((fills.filter fun f => f.order.addr = p).map Fill.execQty).sum

/-- What the trades leave of an order. -/
def remaining (fills : List Fill) (x : ℕ × Resting MEOrderIds) : Option (ℕ × Resting MEOrderIds) :=
  if x.2.qty = executed fills x.2.addr then none
  else some (x.1, { x.2 with qty := x.2.qty - executed fills x.2.addr })

/-- The messages of a trade: the two responses and the updates. -/
def Fill.messages (i : Incoming) (f : Fill) : List Outgoing :=
  tradeMessages i f.leaves f.price f.order

/-- Side `d` of the book is in order and has the levels `ls`. -/
structure SideRep (m : MEOrderBook) (d : Bool) (ls : List (PriceLevel MEOrderIds)) : Prop where
  stored : Stored m.book ls []
  ring : SideRing m.book d ls
  pools : InPools m.book ls []
  keys : ∀ L ∈ ls, ∀ o ∈ L.orders, checkClientOrderKey (meBookKind.key o.ident) = .ok ()
  positive : ∀ L ∈ ls, ∀ o ∈ L.orders, 0 < o.qty

section Greedy
variable {i : Incoming} {stops : ℕ → Bool} {leaves : ℕ} {q : List (ℕ × Resting MEOrderIds)}

@[simp] theorem greedy_zero : greedy stops 0 q = [] := by
  cases q with
  | nil => rfl
  | cons x q => simp [greedy]

theorem sweep_messages :
    (sweep i stops leaves q).2.2 = (greedy stops leaves q).flatMap (Fill.messages i) := by
  induction q generalizing leaves with
  | nil => rfl
  | cons x q ih =>
    obtain ⟨price, o⟩ := x
    unfold sweep greedy
    split
    · rfl
    · split
      · next hq => simp [ih, Fill.messages, Nat.min_eq_right hq]
      · next hq =>
        have hmin : min leaves o.qty = leaves := Nat.min_eq_left (by omega)
        simp [Fill.messages, hmin]

theorem sweep_conserves : (sweep i stops leaves q).1 +
    ((greedy stops leaves q).map Fill.execQty).sum = leaves := by
  induction q generalizing leaves with
  | nil => rfl
  | cons x q ih =>
    obtain ⟨price, o⟩ := x
    unfold sweep greedy
    split
    · rfl
    · split
      · next hq =>
        have hrec := @ih (leaves - o.qty)
        simp only [List.map_cons, List.sum_cons, Fill.execQty, Nat.min_eq_right hq]
        omega
      · next hq =>
        have hmin : min leaves o.qty = leaves := Nat.min_eq_left (by omega)
        simp [Fill.execQty, hmin]

/-- Best price first, and first in first out inside a price. -/
theorem greedy_front :
    ((greedy stops leaves q).map fun f => (f.price, f.order)) <+: q := by
  induction q generalizing leaves with
  | nil => exact List.prefix_rfl
  | cons x q ih =>
    obtain ⟨price, o⟩ := x
    unfold greedy
    split
    · exact List.nil_prefix
    · rw [List.map_cons]
      exact List.cons_prefix_cons.mpr ⟨rfl, ih⟩

theorem greedy_trades (hpos : ∀ x ∈ q, 0 < x.2.qty) :
    ∀ f ∈ greedy stops leaves q, 0 < f.execQty ∧ stops f.price = false := by
  induction q generalizing leaves with
  | nil => simp [greedy]
  | cons x q ih =>
    obtain ⟨price, o⟩ := x
    unfold greedy
    split
    · simp
    · next hgo =>
      obtain ⟨hne, hstop⟩ := not_or.mp hgo
      intro f hf
      rcases List.mem_cons.mp hf with rfl | hf
      · have ho : 0 < o.qty := hpos (price, o) (by simp)
        refine ⟨?_, by simpa using hstop⟩
        simp only [Fill.execQty]
        omega
      · exact ih (fun x hx => hpos x (by simp [hx])) f hf

theorem executed_eq_zero {fills : List Fill} {p : Ptr} (h : ∀ f ∈ fills, f.order.addr ≠ p) :
    executed fills p = 0 := by
  unfold executed
  rw [List.filter_eq_nil_iff.mpr (fun f hf => by simpa using h f hf)]
  rfl

theorem remaining_cons_of_ne {f : Fill} {fills : List Fill} {x : ℕ × Resting MEOrderIds}
    (h : f.order.addr ≠ x.2.addr) : remaining (f :: fills) x = remaining fills x := by
  have hsum : executed (f :: fills) x.2.addr = executed fills x.2.addr := by
    simp [executed, h]
  unfold remaining
  rw [hsum]

theorem greedy_addr_mem {f : Fill} (hf : f ∈ greedy stops leaves q) :
    f.order.addr ∈ q.map fun x => x.2.addr := by
  have hm := greedy_front.subset (List.mem_map_of_mem (f := fun f => (f.price, f.order)) hf)
  exact List.mem_map_of_mem (f := fun x => x.2.addr) hm

theorem filterMap_remaining {fills : List Fill} (hpos : ∀ x ∈ q, 0 < x.2.qty)
    (hfar : ∀ x ∈ q, ∀ f ∈ fills, f.order.addr ≠ x.2.addr) : q.filterMap (remaining fills) = q := by
  induction q with
  | nil => rfl
  | cons x q ih =>
    have hx : remaining fills x = some x := by
      have hp := hpos x (by simp)
      have hzero := executed_eq_zero (hfar x (by simp))
      unfold remaining
      rw [hzero, if_neg (by omega), Nat.sub_zero]
    rw [List.filterMap_cons_some hx, ih (fun y hy => hpos y (by simp [hy]))
      (fun y hy => hfar y (by simp [hy]))]

/-- What is left of the queue: every order less what the trades took from it. -/
theorem sweep_remaining (hnd : (q.map fun x => x.2.addr).Nodup) (hpos : ∀ x ∈ q, 0 < x.2.qty) :
    (sweep i stops leaves q).2.1 = q.filterMap (remaining (greedy stops leaves q)) := by
  induction q generalizing leaves with
  | nil => rfl
  | cons x q ih =>
    obtain ⟨price, o⟩ := x
    rw [List.map_cons, List.nodup_cons] at hnd
    have hpos' : ∀ x ∈ q, 0 < x.2.qty := fun x hx => hpos x (by simp [hx])
    have ho : 0 < o.qty := hpos (price, o) (by simp)
    have hother : ∀ x ∈ q, o.addr ≠ x.2.addr := by
      intro x hx he
      exact hnd.1 (he ▸ List.mem_map_of_mem (f := fun x => x.2.addr) hx)
    unfold sweep greedy
    split
    · exact (filterMap_remaining hpos (by simp)).symm
    · split
      · next hq =>
        -- the first order is filled, and no later trade meets it again
        have hrest : executed (greedy stops (leaves - o.qty) q) o.addr = 0 := by
          apply executed_eq_zero
          intro f hf he
          exact hnd.1 (he ▸ greedy_addr_mem hf)
        have hfirst : remaining (⟨price, o, leaves⟩ :: greedy stops (leaves - o.qty) q)
            (price, o) = none := by
          have hsum : executed (⟨price, o, leaves⟩ :: greedy stops (leaves - o.qty) q) o.addr =
              o.qty := by
            simp only [executed, List.filter_cons, decide_true, if_true, List.map_cons,
              List.sum_cons, Fill.execQty, Nat.min_eq_right hq]
            unfold executed at hrest
            rw [hrest, Nat.add_zero]
          simp [remaining, hsum]
        have hlater : ∀ x ∈ q, remaining (⟨price, o, leaves⟩ :: greedy stops (leaves - o.qty) q) x =
            remaining (greedy stops (leaves - o.qty) q) x := by
          exact fun x hx => remaining_cons_of_ne (hother x hx)
        rw [Nat.min_eq_right hq, List.filterMap_cons_none hfirst, List.filterMap_congr hlater,
          ← ih hnd.2 hpos']
      · next hq =>
        have hmin : min leaves o.qty = leaves := Nat.min_eq_left (by omega)
        have hfirst : remaining [⟨price, o, leaves⟩] (price, o) =
            some (price, { o with qty := o.qty - leaves }) := by
          have hne : o.qty ≠ leaves := by omega
          have hsum : executed [⟨price, o, leaves⟩] o.addr = leaves := by
            simp [executed, Fill.execQty, hmin]
          simp [remaining, hsum, hne]
        have hlater : q.filterMap (remaining [⟨price, o, leaves⟩]) = q := by
          apply filterMap_remaining hpos'
          simpa using hother
        rw [hmin, Nat.sub_self, greedy_zero, List.filterMap_cons_some hfirst, hlater]

end Greedy

section Side
variable {m : MEOrderBook} {d e : Bool} {i : Incoming} {leaves qty : ℕ}
  {ls w : List (PriceLevel MEOrderIds)} {L : PriceLevel MEOrderIds} {o : Resting MEOrderIds}
  {y : List (Resting MEOrderIds)}

theorem Resting.setQty_of_ne {p : Ptr} (qty : ℕ) {z : Resting MEOrderIds} (h : z.addr ≠ p) :
    z.setQty p qty = z := if_neg h

theorem map_setQty_front {b : LevelBook MEOrderIds ClientOrderKey} (h : Stored b (L :: w) [])
    (ho : L.orders = o :: y) (qty : ℕ) : (L :: w).map (PriceLevel.setQty o.addr qty) =
      { L with orders := { o with qty := qty } :: y } :: w := by
  have hnd := h.orderNodup
  rw [List.nil_append, List.flatMap_cons, ho, List.cons_append, List.map_cons, List.nodup_cons,
    List.map_append, List.mem_append, not_or] at hnd
  have hy : y.map (Resting.setQty o.addr qty) = y := by
    refine (List.map_congr_left fun z hz => Resting.setQty_of_ne qty ?_).trans (List.map_id y)
    intro he
    exact hnd.1.1 (he ▸ List.mem_map_of_mem hz)
  have hw : w.map (PriceLevel.setQty o.addr qty) = w := by
    refine (List.map_congr_left fun M hM => ?_).trans (List.map_id w)
    have hM : M.orders.map (Resting.setQty o.addr qty) = M.orders := by
      refine (List.map_congr_left fun z hz => Resting.setQty_of_ne qty ?_).trans
        (List.map_id M.orders)
      intro he
      exact hnd.1.2 (he ▸ List.mem_map_of_mem (List.mem_flatMap.mpr ⟨M, hM, hz⟩))
    simp only [PriceLevel.setQty, hM, id]
  have hfront : Resting.setQty o.addr qty o = { o with qty := qty } := if_pos rfl
  rw [List.map_cons, hw]
  simp only [PriceLevel.setQty, ho, List.map_cons, hfront, hy]

/-- The quantity of the first order changes; `m'` may differ from `m` in nothing else. -/
theorem SideRep.setQty_front (h : SideRep m d (L :: w)) (ho : L.orders = o :: y) (qty : ℕ) :
    Stored (m.book.setQty o.addr qty) ({ L with orders := { o with qty := qty } :: y } :: w) [] ∧
      SideRing (m.book.setQty o.addr qty) d
        ({ L with orders := { o with qty := qty } :: y } :: w) ∧
      InPools (m.book.setQty o.addr qty)
        ({ L with orders := { o with qty := qty } :: y } :: w) [] := by
  have hset := h.stored.setQty o.addr qty
  rw [map_setQty_front h.stored ho] at hset
  refine ⟨hset, ?_, ?_⟩
  · have hsame : SameLevels m.book (m.book.setQty o.addr qty) :=
      ⟨fun _ => rfl, fun _ => rfl, fun _ => rfl, rfl, rfl, rfl, fun _ => rfl⟩
    apply h.ring.congr hsame
    rfl
  · constructor
    · intro M hM
      rcases List.mem_cons.mp hM with rfl | hM
      · exact h.pools.levels L (by simp)
      · exact h.pools.levels M (by simp [hM])
    · intro p hp
      apply h.pools.orders
      simpa [ho] using hp

theorem SideRep.orderData (h : SideRep m d (L :: w)) (ho : L.orders = o :: y) :
    m.book.orderData o.addr = (o.ident, o.side, L.price, o.qty, o.priority) :=
  ((h.stored.level L (by simp)).orders o (by simp [ho])).2

theorem SideRep.nonempty (h : SideRep m d ls) : ∀ L ∈ ls, L.orders ≠ [] :=
  fun L hL => (h.stored.level L hL).nonempty

/-- The first order is filled and goes, and its level with it if it was the last. -/
theorem SideRep.fills (h : SideRep m d (L :: w)) (ho : L.orders = o :: y) (i : Incoming)
    (hq : o.qty ≤ leaves) :
    ∃ m', matchOrder m i o.addr leaves =
        .ok (m', leaves - o.qty, tradeMessages i leaves L.price o) ∧
      SideRep m' d (Shape.refill L y ++ w) := by
  obtain ⟨hs, hring, hpools⟩ := h.setQty_front ho 0
  have hkey := h.keys L (by simp) o (by simp [ho])
  set L₀ : PriceLevel MEOrderIds := { L with orders := { o with qty := 0 } :: y } with hL₀
  rw [← List.append_nil (L₀ :: w), ← List.nil_append (L₀ :: w)] at hs hpools
  rw [← List.nil_append (L₀ :: w)] at hring
  obtain ⟨b', hok, hgone⟩ := removeOrder_returns (k := meBookKind) (x := []) (y := y)
    (o := { o with qty := 0 }) hs hring hpools rfl hkey
  have hrefill : Shape.refill L₀ ([] ++ y) = Shape.refill L y := by
    simp only [Shape.refill, hL₀, List.nil_append]
  have hstored := hgone.stored
  have hside := hgone.side
  have hin := hgone.pools
  rw [hrefill, List.nil_append, List.append_nil] at hstored hin
  rw [hrefill, List.nil_append] at hside
  have hold : ∀ M ∈ Shape.refill L y ++ w, ∀ z ∈ M.orders, ∃ N ∈ L :: w, z ∈ N.orders := by
    intro M hM z hz
    rcases List.mem_append.mp hM with hM | hM
    · rw [Shape.refill] at hM
      split at hM
      · simp at hM
      · rw [List.mem_singleton.mp hM] at hz
        exact ⟨L, by simp, by simp [ho, hz]⟩
    · exact ⟨M, by simp [hM], hz⟩
  refine ⟨{ m with book := b' }, ?_, ?_⟩
  · apply matchOrder_fills_eq i (h.orderData ho) hq
    simp only [MEOrderBook.removeOrder, bind, Except.bind]
    rw [hok]
    rfl
  · constructor
    · exact hstored
    · exact hside
    · exact hin
    · intro M hM z hz
      obtain ⟨N, hN, hzN⟩ := hold M hM z hz
      exact h.keys N hN z hzN
    · intro M hM z hz
      obtain ⟨N, hN, hzN⟩ := hold M hM z hz
      exact h.positive N hN z hzN

theorem SideRep.reduces (h : SideRep m d (L :: w)) (ho : L.orders = o :: y) (i : Incoming)
    (hq : leaves < o.qty) :
    ∃ m', matchOrder m i o.addr leaves = .ok (m', 0, tradeMessages i leaves L.price o) ∧
      SideRep m' d ({ L with orders := { o with qty := o.qty - leaves } :: y } :: w) := by
  obtain ⟨hs, hring, hpools⟩ := h.setQty_front ho (o.qty - leaves)
  refine ⟨_, matchOrder_reduces_eq i (h.orderData ho) hq, ?_⟩
  constructor
  · exact hs
  · exact hring
  · exact hpools
  · intro M hM z hz
    rcases List.mem_cons.mp hM with rfl | hM
    · rcases List.mem_cons.mp hz with rfl | hz
      · exact h.keys L (by simp) o (by simp [ho])
      · exact h.keys L (by simp) z (by simp [ho, hz])
    · exact h.keys M (by simp [hM]) z hz
  · intro M hM z hz
    rcases List.mem_cons.mp hM with rfl | hM
    · rcases List.mem_cons.mp hz with rfl | hz
      · exact Nat.sub_pos_of_lt hq
      · exact h.positive L (by simp) z (by simp [ho, hz])
    · exact h.positive M (by simp [hM]) z hz

theorem SideRep.length_queue_le (h : SideRep m d ls) :
    (Shape.queue ls).length ≤ m.book.orderPool.size := by
  have hsub : (ls.flatMap (·.orders)).map (·.addr) ⊆ List.range m.book.orderPool.size :=
    fun p hp => List.mem_range.mpr (h.pools.orders p hp)
  have hle := (h.stored.orderNodup.subperm hsub).length_le
  rw [List.nil_append, List.length_map, List.length_range] at hle
  rwa [Shape.length_queue]

theorem SideRep.matchLoop (h : SideRep m d ls) (i : Incoming) (stops : ℕ → Bool) (leaves : ℕ) :
    ∃ m' ls', matchLoop i d stops (m.book.orderPool.size + 2) m leaves =
        .ok (m', (sweep i stops leaves (Shape.queue ls)).1,
          (sweep i stops leaves (Shape.queue ls)).2.2) ∧
      SideRep m' d ls' ∧ Shape.queue ls' = (sweep i stops leaves (Shape.queue ls)).2.1 := by
  have hlen := h.length_queue_le
  have hfuel : (Shape.queue ls).length + 2 ≤ m.book.orderPool.size + 2 := by omega
  have hloop := matchLoop_of i d stops leaves
    (R := fun m' q => ∃ ls', SideRep m' d ls' ∧ Shape.queue ls' = q) ?_ ?_ ?_ ?_ ⟨ls, h, rfl⟩
    hfuel
  · obtain ⟨m', hok, ls', hm', hq⟩ := hloop
    exact ⟨m', ls', hok, hm', hq⟩
  · rintro m₁ ⟨ls₁, h₁, hq⟩
    rw [h₁.ring.best, Shape.queue_eq_nil h₁.nonempty hq]
    rfl
  · rintro m₁ price o q ⟨ls₁, h₁, hq⟩
    obtain ⟨L, w, y, rfl, ho, rfl, -⟩ := Shape.queue_eq_cons h₁.nonempty hq
    refine ⟨L.addr, h₁.ring.best, ?_, congrArg (fun x => x.2.2.1) (h₁.orderData ho)⟩
    rw [(h₁.stored.level L (by simp)).firstOrder, ho]
    rfl
  · rintro m₁ price o q leaves ⟨ls₁, h₁, hq⟩ hle
    obtain ⟨L, w, y, rfl, ho, rfl, rfl⟩ := Shape.queue_eq_cons h₁.nonempty hq
    obtain ⟨m₂, hok, h₂⟩ := h₁.fills ho i hle
    exact ⟨m₂, hok, _, h₂, by rw [Shape.queue_append, Shape.queue_refill]⟩
  · rintro m₁ price o q leaves ⟨ls₁, h₁, hq⟩ - hlt
    obtain ⟨L, w, y, rfl, ho, rfl, rfl⟩ := Shape.queue_eq_cons h₁.nonempty hq
    obtain ⟨m₂, hok, h₂⟩ := h₁.reduces ho i hlt
    exact ⟨m₂, hok, _, h₂, by simp⟩

/-- `checkForMatch` returns after exactly the greedy trades with the opposite
side, and an order that is neither to buy nor to sell trades with nobody. -/
theorem checkForMatch_greedy (m : MEOrderBook) (i : Incoming) (qty : ℕ) :
    (∀ e ls, i.side = sideOf e → SideRep m (!e) ls →
      ∃ m' ls' leaves fills, fills = greedy (stopsFor e i.price) qty (Shape.queue ls) ∧
        m.checkForMatch i qty = .ok (m', leaves, fills.flatMap (Fill.messages i)) ∧
        leaves + (fills.map Fill.execQty).sum = qty ∧
        (fills.map fun f => (f.price, f.order)) <+: Shape.queue ls ∧
        (∀ f ∈ fills, 0 < f.execQty ∧ stopsFor e i.price f.price = false) ∧
        Shape.queue ls' = (Shape.queue ls).filterMap (remaining fills) ∧
        SideRep m' (!e) ls' ∧
        (leaves = 0 ∨ ∀ L ∈ ls', stopsFor e i.price L.price = true)) ∧
    (i.side ≠ .buy → i.side ≠ .sell → m.checkForMatch i qty = .ok (m, qty, [])) := by
  constructor
  · intro e ls hside h
    have hpos : ∀ x ∈ Shape.queue ls, 0 < x.2.qty := by
      intro x hx
      obtain ⟨L, hL, hx⟩ := List.mem_flatMap.mp hx
      obtain ⟨o, ho, rfl⟩ := List.mem_map.mp hx
      exact h.positive L hL o ho
    have hnd : ((Shape.queue ls).map fun x => x.2.addr).Nodup := by
      have hnodup := h.stored.orderNodup
      rw [List.nil_append, ← Shape.queue_orders, List.map_map] at hnodup
      exact hnodup
    obtain ⟨m', ls', hok, h', hq⟩ := h.matchLoop i (stopsFor e i.price) qty
    refine ⟨m', ls', _, _, rfl, ?_, sweep_conserves (i := i), greedy_front, greedy_trades hpos, ?_,
      h', ?_⟩
    · rw [checkForMatch_eq_loop m qty hside, hok, sweep_messages]
    · rw [hq, sweep_remaining hnd hpos]
    · by_cases hzero : (sweep i (stopsFor e i.price) qty (Shape.queue ls)).1 = 0
      · exact .inl hzero
      · right
        intro L hL
        obtain ⟨o, ho⟩ := List.exists_mem_of_ne_nil _ (h'.nonempty L hL)
        have hmem : (L.price, o) ∈ Shape.queue ls' :=
          List.mem_flatMap.mpr ⟨L, hL, List.mem_map_of_mem ho⟩
        rw [hq] at hmem
        exact sweep_stops (stopsFor_sorted i.price h.ring.sorted) hzero _ hmem
  · intro hbuy hsell
    unfold checkForMatch
    split
    · next hb => exact (hbuy hb).elim
    · next hs => exact (hsell hs).elim
    · rfl

/-- Sells of 5 and 3 at 10, and a buy of 6 at 11: one order is filled, and the
other one reduced. -/
theorem checkForMatch_greedy_two_sells :
    ∃ m, run step (init 0) [.add 0 0 0 .sell 10 5, .add 0 1 0 .sell 10 3] = .ok m ∧
      ∃ m' ls' leaves, ∃ fills : List Fill,
        m.checkForMatch ⟨1, 0, 0, .buy, 11, 1⟩ 6 =
          .ok (m', leaves, fills.flatMap (Fill.messages ⟨1, 0, 0, .buy, 11, 1⟩)) ∧
        leaves + (fills.map Fill.execQty).sum = 6 ∧ SideRep m' false ls' := by
  have hlevel : (run step (init 0) [.add 0 0 0 .sell 10 5, .add 0 1 0 .sell 10 3]).map (fun m =>
      (m.book.levelData 0, m.book.getOrdersAtPrice 10, m.book.asksByPrice, m.book.nextEntry 0,
        m.book.prevEntry 0)) = .ok ((.sell, 10, some 0), some 0, some 0, some 0, some 0) := by
    decide
  have hpools : (run step (init 0) [.add 0 0 0 .sell 10 5, .add 0 1 0 .sell 10 3]).map (fun m =>
      (m.book.ordersAtPricePool.isFree 0, m.book.ordersAtPricePool.size, m.book.orderPool.isFree 0,
        m.book.orderPool.isFree 1, m.book.orderPool.size)) =
      .ok (false, 256, false, false, 1048576) := by
    decide
  have hlinks : (run step (init 0) [.add 0 0 0 .sell 10 5, .add 0 1 0 .sell 10 3]).map (fun m =>
      (m.book.nextOrder 0, m.book.prevOrder 0, m.book.nextOrder 1, m.book.prevOrder 1)) =
      .ok (some 1, some 1, some 0, some 0) := by
    decide
  have hd₀ : (run step (init 0) [.add 0 0 0 .sell 10 5, .add 0 1 0 .sell 10 3]).map (fun m =>
      m.book.orderData 0) = .ok (⟨0, 0, 0, 1⟩, .sell, 10, 5, 1) := by
    decide
  have hd₁ : (run step (init 0) [.add 0 0 0 .sell 10 5, .add 0 1 0 .sell 10 3]).map (fun m =>
      m.book.orderData 1) = .ok (⟨0, 0, 1, 1⟩, .sell, 10, 3, 2) := by
    decide
  obtain ⟨m, hrun, hparts⟩ := map_eq_ok hlevel
  rw [hrun] at hpools hlinks hd₀ hd₁
  simp only [Except.map, Except.ok.injEq, Prod.mk.injEq] at hparts hpools hlinks
  simp only [Except.map, Except.ok.injEq] at hd₀ hd₁
  obtain ⟨hdata, htable, hbest, hne, hpe⟩ := hparts
  obtain ⟨huse, hsize, hu₀, hu₁, hsize'⟩ := hpools
  obtain ⟨hn₀, hp₀, hn₁, hp₁⟩ := hlinks
  have hrep : SideRep m false
      [⟨0, .sell, 10, [⟨0, ⟨0, 0, 0, 1⟩, .sell, 5, 1⟩, ⟨1, ⟨0, 0, 1, 1⟩, .sell, 3, 2⟩]⟩] := by
    constructor
    · constructor
      · intro L hL
        rw [List.mem_singleton.mp hL]
        constructor
        · simp [hdata]
        · rfl
        · simp
        · exact ⟨by simp, by simp [Linked, hn₀, hp₀, hn₁, hp₁]⟩
        · simp [hd₀, hd₁]
      · simp
      · simp [htable]
      · simp [huse]
      · simp
      · simp [hu₀, hu₁]
    · constructor
      · exact hbest
      · exact .singleton hne hpe
      · simp
      · simp
    · constructor
      · simp [hsize]
      · simp [hsize']
    · simp only [List.mem_cons, List.not_mem_nil, or_false, forall_eq, forall_eq_or_imp]
      decide
    · simp
  obtain ⟨m', ls', leaves, fills, -, hok, hsum, -, -, -, hrep', -⟩ :=
    (checkForMatch_greedy m ⟨1, 0, 0, .buy, 11, 1⟩ 6).1 true _ rfl hrep
  exact ⟨m, hrun, m', ls', leaves, fills, hok, hsum, hrep'⟩

end Side

end HighPerformance.MEOrderBook
