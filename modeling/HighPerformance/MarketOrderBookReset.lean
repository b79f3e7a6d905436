import HighPerformance.MarketOrderBookQuotes
import HighPerformance.MarketOrderBookStale
import HighPerformance.PriceLevelFrames

/-!
# A book after `CLEAR`

A program that follows no link of a block it has given back does not depend on
what such a block contains. `onMarketUpdateOver w` is `onMarketUpdate` on a
machine that overwrites every free block by `w`, after each update and, in the
loops of `CLEAR`, as soon as a level is given back. With `Scribble.keep` it is
`onMarketUpdate` itself.

`CLEAR` does not clear the table of the levels, and its loops step from a level
that they have just given back. The condition under which none of this is met:
no later order has a price at which there was a level, and no side has two
levels when it is cleared.
-/

namespace HighPerformance

namespace MemPool
variable {α : Type}

/-- Replace the objects of the free blocks. -/
def overwrite (p : MemPool α) (w : Ptr → α → α) : MemPool α :=
  { p with store := fun i =>
      if (p.store i).isFree then ⟨w i (p.store i).object, true⟩ else p.store i }

section Overwrite
variable (p : MemPool α) (w : Ptr → α → α) {live : List Ptr} {i : Ptr}

@[simp] theorem isFree_overwrite : (p.overwrite w).isFree i = p.isFree i := by
  unfold isFree overwrite
  simp only
  split
  · next hfree => exact hfree.symm
  · rfl

theorem get_overwrite (h : p.isFree i = false) : (p.overwrite w).get i = p.get i := by
  have hbusy : ¬(p.store i).isFree = true := by simpa [isFree] using h
  simp only [get, overwrite, if_neg hbusy]

theorem Holds.overwrite {p : MemPool α} (h : p.Holds live) (w : Ptr → α → α) :
    (p.overwrite w).Holds live := h.of_flags rfl rfl fun _ => isFree_overwrite p w

@[simp] theorem overwrite_id : (p.overwrite fun _ a => a) = p := by
  have hstore : (fun i => if (p.store i).isFree then ⟨(p.store i).object, true⟩ else p.store i) =
      p.store := by
    funext i
    split
    · next hfree => rw [← hfree]
    · rfl
  unfold MemPool.overwrite
  rw [hstore]

end Overwrite

end MemPool

/-- What is written over a block that is free. -/
structure Scribble where
  order : Ptr → MarketOrder → MarketOrder
  level : Ptr → OrdersAtPrice → OrdersAtPrice

def Scribble.keep : Scribble := { order := fun _ o => o, level := fun _ l => l }

@[simp] theorem MemPool.overwrite_keep (p : MemPool OrdersAtPrice) :
    p.overwrite Scribble.keep.level = p := p.overwrite_id

namespace LevelBook

def overwrite (b : LevelBook MarketOrderId ℕ) (w : Scribble) : LevelBook MarketOrderId ℕ :=
  { b with
    orderPool := b.orderPool.overwrite w.order
    ordersAtPricePool := b.ordersAtPricePool.overwrite w.level }

/-- `clearBehind` when a level is overwritten as soon as it is given back. -/
def clearBehindOver (w : Scribble) (best : Ptr) :
    ℕ → Option Ptr → MemPool OrdersAtPrice → Except Fault (MemPool OrdersAtPrice)
  | 0, _, _ => .error .diverges
  | fuel + 1, l, pool =>
      if l = some best then .ok pool
      else do
        let l ← deref l
        let pool ← pool.deallocate l
        let pool := pool.overwrite w.level
        clearBehindOver w best fuel (pool.get l).nextEntry pool

def clearLevelsOver (w : Scribble) (best : Option Ptr) (pool : MemPool OrdersAtPrice) :
    Except Fault (MemPool OrdersAtPrice) :=
  match best with
  | none => .ok pool
  | some l => do
      let pool ← clearBehindOver w l (pool.size + 1) (pool.get l).nextEntry pool
      let pool ← pool.deallocate l
      return pool.overwrite w.level

/-- The loop over the orders follows no link. -/
def clearOver (w : Scribble) (b : LevelBook MarketOrderId ℕ) :
    Except Fault (LevelBook MarketOrderId ℕ) := do
  let orders ← clearOrders b meMaxOrderIds
  let levels ← clearLevelsOver w b.bidsByPrice b.ordersAtPricePool
  let levels ← clearLevelsOver w b.asksByPrice levels
  return { b with
    idToOrder := fun id => if id < meMaxOrderIds then none else b.idToOrder id
    orderPool := orders, ordersAtPricePool := levels, bidsByPrice := none, asksByPrice := none }

section Keep
variable (b : LevelBook MarketOrderId ℕ)

@[simp] theorem overwrite_keep : b.overwrite .keep = b := by
  simp [overwrite, Scribble.keep]

theorem clearBehindOver_keep (best : Ptr) (fuel : ℕ) (l : Option Ptr)
    (pool : MemPool OrdersAtPrice) :
    clearBehindOver .keep best fuel l pool = clearBehind best fuel l pool := by
  induction fuel generalizing l pool with
  | zero => rfl
  | succ fuel ih => simp only [clearBehindOver, clearBehind, MemPool.overwrite_keep, ih]

theorem clearLevelsOver_keep (best : Option Ptr) (pool : MemPool OrdersAtPrice) :
    clearLevelsOver .keep best pool = clearLevels best pool := by
  cases best with
  | none => rfl
  | some l =>
    simp only [clearLevelsOver, clearLevels, clearBehindOver_keep, MemPool.overwrite_keep, bind_pure]

theorem clearOver_keep : b.clearOver .keep = b.clear := by
  simp only [clearOver, clear, clearLevelsOver_keep]

end Keep

end LevelBook

namespace MarketOrderBook
open LevelBook CircularList FallibleRun LiveOrder

section Overwrite
variable {b : LevelBook MarketOrderId ℕ} {S : Shape MarketOrderId} {live : List LiveOrder}
  {d : Bool}

theorem Tracks.overwrite (h : Tracks b S live) (w : Scribble) : Tracks (b.overwrite w) S live := by
  have hlevel : ∀ d, ∀ L ∈ S d, (b.overwrite w).level L.addr = b.level L.addr := by
    intro d L hL
    apply MemPool.get_overwrite
    exact (h.shaped.levels.pool.busy _).mpr
      (List.mem_map_of_mem (Shape.mem_levels.mpr ⟨d, hL⟩))
  have horder : ∀ o ∈ S.orders, (b.overwrite w).order o.addr = b.order o.addr := by
    intro o ho
    apply MemPool.get_overwrite
    exact (h.shaped.pool.busy _).mpr (List.mem_map_of_mem ho)
  have hlink : ∀ d, ∀ l ∈ (S d).map (·.addr), (b.overwrite w).level l = b.level l := by
    intro d l hl
    obtain ⟨L, hL, rfl⟩ := List.mem_map.mp hl
    exact hlevel d L hL
  have hlevels : LevelsRep (b.overwrite w) S := by
    constructor
    · exact h.shaped.levels.best
    · intro d
      apply (h.shaped.levels.ring d).frame
      · intro l hl
        simp only [nextEntry, hlink d l hl]
      · intro l hl
        simp only [prevEntry, hlink d l hl]
    · exact h.shaped.levels.sorted
    · exact h.shaped.levels.priceLt
    · exact h.shaped.levels.nodup
    · exact h.shaped.levels.priceTable
    · exact h.shaped.levels.pool.overwrite w.level
    · exact h.shaped.levels.poolSize
  have hrep : ∀ d, ∀ L ∈ S d, LevelRep (b.overwrite w) d L := by
    intro d L hL
    apply (h.shaped.level d L hL).frame
    · simp only [levelData, hlevel d L hL]
    · intro o ho
      have hsame := horder o (Shape.mem_orders.mpr ⟨d, L, hL, ho⟩)
      constructor
      · simp only [nextOrder, hsame]
      · simp only [prevOrder, hsame]
      · simp only [orderData, hsame]
  constructor
  · exact ⟨hlevels, hrep, h.shaped.nodup, h.shaped.pool.overwrite w.order, h.shaped.poolSize⟩
  · exact h.indexed
  · exact h.orders
  · exact h.sides
  · exact h.ids

/-- A side with at most one level is cleared without following a link. -/
theorem clearLevelsOver_spec (w : Scribble) {vs rest : List Ptr} {pool : MemPool OrdersAtPrice}
    (hone : vs.length ≤ 1) (hself : ∀ l ∈ vs, (pool.get l).nextEntry = some l)
    (hnodup : (vs ++ rest).Nodup) (hholds : pool.Holds (vs ++ rest)) :
    ∃ pool', clearLevelsOver w vs.head? pool = .ok pool' ∧ pool'.size = pool.size ∧
      pool'.Holds rest ∧ ∀ l ∈ rest, pool'.get l = pool.get l := by
  match vs, hone with
  | [], _ => exact ⟨pool, rfl, rfl, hholds, fun _ _ => rfl⟩
  | [a], _ =>
    rw [List.cons_append, List.nil_append] at hnodup hholds
    have hnext : (pool.get a).nextEntry = some a := hself a (by simp)
    obtain ⟨q, hq, hqh, hqs, hqget⟩ := hholds.deallocate_spec List.mem_cons_self
      fun _ => mem_iff_of_notMem (List.nodup_cons.mp hnodup).1
    refine ⟨q.overwrite w.level, ?_, hqs, hqh.overwrite w.level, fun l hl => ?_⟩
    · simp only [List.head?_cons, clearLevelsOver, hnext, clearBehindOver, if_true, bind, Except.bind,
        hq]
      rfl
    · rw [MemPool.get_overwrite _ _ ((hqh.busy l).mpr hl), hqget]

theorem clearOver_eq (w : Scribble) (b : LevelBook MarketOrderId ℕ) : b.clearOver w =
    (clearOrders b meMaxOrderIds).bind fun orders =>
      (clearLevelsOver w b.bidsByPrice b.ordersAtPricePool).bind fun levels =>
        (clearLevelsOver w b.asksByPrice levels).bind fun levels => .ok { b with
          idToOrder := fun id => if id < meMaxOrderIds then none else b.idToOrder id
          orderPool := orders, ordersAtPricePool := levels, bidsByPrice := none
          asksByPrice := none } := rfl

theorem clearOver_returns (h : Tracks b S live) (w : Scribble)
    (hw : w = .keep ∨ ∀ d, (S d).length ≤ 1) :
    ∃ b', b.clearOver w = .ok b' ∧ Blank b' ∧ b'.priceOrdersAtPrices = b.priceOrdersAtPrices := by
  rcases hw with rfl | hone
  · rw [clearOver_keep]
    exact clear_returns h
  · obtain ⟨hnodup, hholds⟩ := h.levels_split rfl rfl
    have hlen : ∀ d, ((S d).map (·.addr)).length ≤ 1 := by
      intro d
      rw [List.length_map]
      exact hone d
    have hself : ∀ d, ∀ l ∈ (S d).map (·.addr), (b.level l).nextEntry = some l := by
      intro d l hl
      have hring := h.shaped.levels.ring d
      obtain ⟨a, ha⟩ := List.length_eq_one_iff.mp
        (Nat.le_antisymm (hlen d) (List.length_pos_of_mem hl))
      rw [ha] at hring hl
      rw [List.mem_singleton.mp hl]
      exact hring.next_singleton
    obtain ⟨orders, ho, hos, hoh⟩ := clearOrders_spec h meMaxOrderIds
    obtain ⟨p, hp, hps, hph, hpget⟩ := clearLevelsOver_spec w (hlen true) (hself true) hnodup hholds
    have hself' : ∀ l ∈ (S false).map (·.addr), (p.get l).nextEntry = some l := by
      intro l hl
      rw [hpget l (by simpa using hl)]
      exact hself false l hl
    obtain ⟨q, hq, hqs, hqh, -⟩ := clearLevelsOver_spec w (hlen false) hself'
      (List.nodup_append.mp hnodup).2.1 hph
    have hbids : b.bidsByPrice = ((S true).map (·.addr)).head? := h.shaped.levels.best true
    have hasks : b.asksByPrice = ((S false).map (·.addr)).head? := h.shaped.levels.best false
    have hok := clearOver_eq w b
    rw [ho, hbids, hasks, hp] at hok
    simp only [Except.bind, hq] at hok
    exact ⟨_, hok, h.blank hos hoh (hqs.trans hps) hqh, rfl⟩

end Overwrite

def applyUpdateOver (w : Scribble) (m : MarketOrderBook) (u : MEMarketUpdate) :
    Except Fault (LevelBook MarketOrderId ℕ) :=
  if u.type = .clear then m.book.clearOver w else m.applyUpdate u

/-- `onMarketUpdate` on a machine that overwrites the free blocks after the
`switch`. -/
def onMarketUpdateOver (w : Scribble) (m : MarketOrderBook) (u : MEMarketUpdate) :
    Except Fault MarketOrderBook := do
  if u.type = .trade then return m
  let book ← m.applyUpdateOver w u
  let m ← updateBBO { m with book := book.overwrite w } (m.bidUpdated u) (m.askUpdated u)
  m.book.sanityCheck
  return m

theorem onMarketUpdateOver_keep : onMarketUpdateOver .keep = onMarketUpdate := by
  funext m u
  have happly : m.applyUpdateOver .keep u = m.applyUpdate u := by
    unfold applyUpdateOver
    split
    · next ht => simp only [applyUpdate, ht, clearOver_keep]
    · rfl
  simp only [onMarketUpdateOver, onMarketUpdate, happly, overwrite_keep]

/-- What a stream has left: the live orders, and the prices at which there were
levels when the book was cleared. -/
structure Trail where
  live : List LiveOrder := []
  stale : List ℕ := []

def Trail.next (t : Trail) (u : MEMarketUpdate) : Trail where
  live := apply t.live u
  stale := if u.type = .clear then t.live.map (·.price) ++ t.stale else t.stale

/-- The updates of a stream that may contain `CLEAR`. -/
def AllowedOrClear (t : Trail) (u : MEMarketUpdate) : Prop := u.type = .clear ∨ Allowed t.live u

/-- No order arrives at a price at which a level was cleared. -/
def FreshPrice (t : Trail) (u : MEMarketUpdate) : Prop := u.type = .add → u.price ∉ t.stale

/-- `CLEAR` finds at most one level on a side. -/
def FewLevels (t : Trail) (u : MEMarketUpdate) : Prop :=
  u.type = .clear → ∀ d, (levelsOf t.live d).length ≤ 1

def SellsForNothing (u : MEMarketUpdate) : Prop := u.type = .add ∧ u.side = .sell ∧ u.price = 0

/-- With the stale entries hidden the book is in order, and no live order has a
price that is stale. -/
structure Resumes (m : MarketOrderBook) (t : Trail) : Prop where
  tracks : ∃ S, Tracks (m.book.hide t.stale) S t.live
  apart : ∀ o ∈ t.live, o.price ∉ t.stale
  asks : NoZeroAsk t.live

section Steps
variable {m m' : MarketOrderBook} {t : Trail} {u : MEMarketUpdate} {S : Shape MarketOrderId}
  {live : List LiveOrder} {b : LevelBook MarketOrderId ℕ} {stale : List ℕ} {w : Scribble}

theorem priceToIndex_lt {price : ℕ} (h : price < meMaxPriceLevels) : priceToIndex price = price :=
  Nat.mod_eq_of_lt h

theorem price_of_apply {o : LiveOrder} (ho : o ∈ apply live u) :
    (∃ z ∈ live, z.price = o.price) ∨ u.type = .add ∧ o.price = u.price := by
  unfold apply at ho
  split at ho
  · next ht =>
    rcases List.mem_append.mp ho with ho | ho
    · exact .inl ⟨o, ho, rfl⟩
    · rw [List.mem_singleton.mp ho]
      exact .inr ⟨ht, rfl⟩
  · obtain ⟨z, hz, rfl⟩ := List.mem_map.mp ho
    refine .inl ⟨z, hz, ?_⟩
    split <;> rfl
  · exact .inl ⟨o, List.mem_of_mem_filter ho, rfl⟩
  · simp at ho
  · exact .inl ⟨o, ho, rfl⟩

theorem Resumes.avoidsStale (h : Resumes m t) (ha : Allowed t.live u) (hf : FreshPrice t u) :
    AvoidsStale m t.stale u := by
  constructor
  · intro ht
    simp [Allowed, ht] at ha
  · intro ht
    simp only [Allowed, ht] at ha
    rw [priceToIndex_lt ha.2.2.2.1]
    exact hf ht
  · intro ht p hp
    simp only [Allowed, ht] at ha
    obtain ⟨z, hz, hid, -⟩ := ha
    obtain ⟨S, htracks⟩ := h.tracks
    obtain ⟨d, v, L, w, x, o, y, hlookup, hS, hxy, hoz, -⟩ :=
      Tracks.find (m := { m with book := m.book.hide t.stale }) htracks hz hid
    have hp' : m.lookup u.orderId = .ok o.addr := hlookup
    rw [hp, Except.ok.injEq] at hp'
    have hL : L ∈ S d := by simp [hS]
    have hdata := ((htracks.shaped.level d L hL).orders o (by simp [hxy])).2
    have hprice : (m.book.order o.addr).price = L.price := congrArg (fun x => x.2.2.1) hdata
    rw [hp', hprice, priceToIndex_lt (htracks.shaped.levels.priceLt d L hL)]
    have hzp : z.price = L.price := congrArg (·.price) hoz.symm
    rw [← hzp]
    exact h.apart z hz

theorem blank_hide : Blank (b.hide stale) ↔ Blank b :=
  ⟨fun h => ⟨h.ids, h.best, h.orderPool, h.orderSize, h.levelPool, h.levelSize⟩,
    fun h => ⟨h.ids, h.best, h.orderPool, h.orderSize, h.levelPool, h.levelSize⟩⟩

theorem clearOver_hide (w : Scribble) (b : LevelBook MarketOrderId ℕ) (stale : List ℕ) :
    (b.hide stale).clearOver w = (b.clearOver w).map (·.hide stale) := by
  have hbids : (b.hide stale).bidsByPrice = b.bidsByPrice := rfl
  have hasks : (b.hide stale).asksByPrice = b.asksByPrice := rfl
  rw [clearOver_eq, clearOver_eq, clearOrders_hide, hbids, hasks, ordersAtPricePool_hide]
  cases clearOrders b meMaxOrderIds with
  | error e => rfl
  | ok orders =>
    cases hp : clearLevelsOver w b.bidsByPrice b.ordersAtPricePool with
    | error e => rfl
    | ok levels =>
      simp only [Except.bind]
      cases clearLevelsOver w b.asksByPrice levels <;> rfl

theorem Resumes.clear_applies (h : Resumes m t) (ht : u.type = .clear)
    (hw : w = .keep ∨ FewLevels t u) : ∃ b S, m.applyUpdateOver w u = .ok b ∧
      Tracks (b.hide (t.next u).stale) S (t.next u).live := by
  obtain ⟨S, htracks⟩ := h.tracks
  have hone : w = .keep ∨ ∀ d, (S d).length ≤ 1 := by
    refine hw.imp_right fun hfew d => ?_
    have hlen := hfew ht d
    rwa [levelsOf, List.length_map, ← htracks.prices_eq, List.length_map] at hlen
  obtain ⟨c, hc, hblank, htable⟩ := clearOver_returns htracks w hone
  rw [clearOver_hide] at hc
  obtain ⟨b, hb, rfl⟩ : ∃ b, m.book.clearOver w = .ok b ∧ b.hide t.stale = c := by
    cases hb : m.book.clearOver w with
    | error e =>
      rw [hb] at hc
      cases hc
    | ok b =>
      rw [hb] at hc
      exact ⟨b, rfl, Except.ok.inj hc⟩
  have hlive : (t.next u).live = [] := by simp only [Trail.next, apply, ht]
  have hstale : (t.next u).stale = t.live.map (·.price) ++ t.stale := if_pos ht
  refine ⟨b, fun _ => [], by simp only [applyUpdateOver, ht, if_true, hb], ?_⟩
  rw [hlive]
  apply (blank_hide.mpr (blank_hide.mp hblank)).tracks
  intro i
  by_cases hi : i ∈ (t.next u).stale
  · exact if_pos hi
  · rw [hstale, List.mem_append, not_or] at hi
    have hin : i ∉ (t.next u).stale := by
      rw [hstale, List.mem_append, not_or]
      exact hi
    have hold : (b.hide (t.next u).stale).priceOrdersAtPrices i =
        (m.book.hide t.stale).priceOrdersAtPrices i := by
      rw [← htable]
      exact (if_neg hin).trans (if_neg hi.2).symm
    rw [hold]
    cases hsome : (m.book.hide t.stale).priceOrdersAtPrices i with
    | none => rfl
    | some l =>
      -- an entry that is not stale is that of a level
      obtain ⟨L, hL, -, rfl⟩ := (htracks.shaped.levels.priceTable i l).mp hsome
      obtain ⟨d, hL⟩ := Shape.mem_levels.mp hL
      obtain ⟨o, ho, -, hp⟩ := htracks.exists_live_of_level hL
      exact (hi.1 (List.mem_map.mpr ⟨o, ho, hp⟩)).elim

theorem Resumes.order_applies (h : Resumes m t) (ha : Allowed t.live u) (hf : FreshPrice t u) :
    ∃ b S, m.applyUpdateOver w u = .ok b ∧
      Tracks (b.hide (t.next u).stale) S (t.next u).live := by
  obtain ⟨S, htracks⟩ := h.tracks
  have havoid := h.avoidsStale ha hf
  obtain ⟨c, S', hc, htracks'⟩ := applyUpdate_tracks
    (m := { m with book := m.book.hide t.stale }) htracks ha.permitted
  rw [applyUpdate_hide m t.stale havoid] at hc
  have hstale : (t.next u).stale = t.stale := if_neg havoid.notClear
  cases hb : m.applyUpdate u with
  | error e =>
    rw [hb] at hc
    cases hc
  | ok b =>
    rw [hb] at hc
    have hcb : b.hide t.stale = c := Except.ok.inj hc
    refine ⟨b, S', by simp only [applyUpdateOver, havoid.notClear, if_false, hb], ?_⟩
    rw [hstale, hcb]
    exact htracks'

theorem Resumes.next_apart (h : Resumes m t) (hf : FreshPrice t u) :
    ∀ o ∈ (t.next u).live, o.price ∉ (t.next u).stale := by
  intro o ho
  by_cases ht : u.type = .clear
  · simp only [Trail.next, apply, ht] at ho
    simp at ho
  · have hstale : (t.next u).stale = t.stale := if_neg ht
    rw [hstale]
    rcases price_of_apply ho with ⟨z, hz, hp⟩ | ⟨hadd, hp⟩
    · rw [← hp]
      exact h.apart z hz
    · rw [hp]
      exact hf hadd

theorem updateBBO_hidden (h : Tracks (b.hide stale) S live) (m : MarketOrderBook)
    (u : MEMarketUpdate) : ∃ m', updateBBO { m with book := b } (m.bidUpdated u) (m.askUpdated u) =
      .ok m' ∧ m'.book = b := by
  have hq : ∀ d, b.bestQuote (b.best d) = .ok (quoteOf (S d)) := by
    intro d
    rw [← bestQuote_hide b stale]
    exact bestQuote_spec h.shaped d
  exact ⟨_, updateBBO_spec (m := m) hq (m.updated u), rfl⟩

/-- One update succeeds, unless it is an order to sell for nothing, whatever is
written over the free blocks. -/
theorem Resumes.step (h : Resumes m t) (hu : AllowedOrClear t u) (hf : FreshPrice t u)
    (hw : w = .keep ∨ FewLevels t u) :
    (¬SellsForNothing u ∧ ∃ m', m.onMarketUpdateOver w u = .ok m' ∧ Resumes m' (t.next u)) ∨
      (SellsForNothing u ∧ ∃ msg, m.onMarketUpdateOver w u = .error (.fatal msg)) := by
  by_cases ht : u.type = .trade
  · left
    have hnext : t.next u = t := by simp [Trail.next, apply, ht]
    rw [hnext]
    refine ⟨fun hz => ?_, m, ?_, h⟩
    · rw [hz.1] at ht
      cases ht
    · simp only [onMarketUpdateOver, ht, if_true]
      rfl
  · obtain ⟨b, S, happly, htracks⟩ : ∃ b S, m.applyUpdateOver w u = .ok b ∧
        Tracks (b.hide (t.next u).stale) S (t.next u).live := by
      rcases hu with hclear | ha
      · exact h.clear_applies hclear hw
      · exact h.order_applies ha hf
    have hover : Tracks ((b.overwrite w).hide (t.next u).stale) S (t.next u).live :=
      htracks.overwrite w
    obtain ⟨m', hm', hbook⟩ := updateBBO_hidden hover m u
    have hcheck : m'.book.sanityCheck = ((b.overwrite w).hide (t.next u).stale).sanityCheck := by
      rw [hbook, sanityCheck_hide]
    have hcall : m.onMarketUpdateOver w u = m'.book.sanityCheck.map fun _ => m' := by
      simp only [onMarketUpdateOver, ht, if_false, happly, bind, Except.bind]
      rw [hm']
      rfl
    by_cases hz : SellsForNothing u
    · right
      have hlive : (⟨u.orderId, u.side, u.price, u.qty, u.priority⟩ : LiveOrder) ∈
          (t.next u).live := by
        simp [Trail.next, apply, hz.1]
      obtain ⟨msg, hmsg⟩ := hover.sanityCheck_fatal hlive hz.2.1 hz.2.2
      refine ⟨hz, msg, ?_⟩
      rw [hcall, hcheck, hmsg]
      rfl
    · left
      have hasks : NoZeroAsk (t.next u).live :=
        noZeroAsk_apply h.asks fun hadd hsell hzero => hz ⟨hadd, hsell, hzero⟩
      refine ⟨hz, m', ?_, ⟨S, ?_⟩, h.next_apart hf, hasks⟩
      · rw [hcall, hcheck, hover.sanityCheck_eq hasks]
        rfl
      · rw [hbook]
        exact hover

/-- An order at a price with a stale entry reaches no side of the book. -/
theorem best_of_entry {l : Ptr} (ht : u.type = .add) (hl : m.book.getOrdersAtPrice u.price = some l)
    (hok : m.onMarketUpdate u = .ok m') (d : Bool) : m'.book.best d = m.book.best d := by
  have happly := book_of_onMarketUpdate hok (by simp [ht])
  simp only [applyUpdate, ht] at happly
  obtain ⟨a, ha, happly⟩ := bind_eq_ok.mp happly
  obtain ⟨b, hb, happly⟩ := bind_eq_ok.mp happly
  obtain ⟨_, -, happly⟩ := bind_eq_ok.mp happly
  obtain ⟨-, -, hstore⟩ := MemPool.allocate_eq_ok ha
  have hprice : (order { m.book with orderPool := a.2 } a.1).price = u.price := by
    simp [order, MemPool.get, hstore]
  have hfound : getOrdersAtPrice { m.book with orderPool := a.2 } u.price = some l := hl
  simp only [joinLevel, hprice, hfound] at hb
  have hbest := (appendOrder_edit hb).best d
  have hbook := Except.ok.inj happly
  rw [← hbook]
  exact hbest

end Steps

/-- Both runs leave the same levels with the same orders, or both end with
`FATAL`. -/
def SameOutcome (r r' : Except Fault MarketOrderBook) : Prop :=
  (∃ m m', r = .ok m ∧ r' = .ok m' ∧ ∀ d, readSide m.book d = readSide m'.book d) ∨
    (∃ msg, r = .error (.fatal msg)) ∧ ∃ msg, r' = .error (.fatal msg)

section Runs
variable {m m' : MarketOrderBook} {t t' : Trail} {us vs : List MEMarketUpdate} {w : Scribble}

theorem Resumes.readSide_eq (h : Resumes m t) (d : Bool) :
    readSide m.book d = levelsOf t.live d := by
  obtain ⟨S, htracks⟩ := h.tracks
  exact htracks.readSide_eq d

theorem resumes_init (tickerId : ℕ) : Resumes (init tickerId) {} := by
  refine ⟨⟨fun _ => [], ?_⟩, ?_, ?_⟩
  · rw [hide_nil]
    exact tracks_init
  · intro o ho
    simp at ho
  · simp [NoZeroAsk]

theorem run_resumes (h : Resumes m t)
    (hus : Along Trail.next (fun t u => AllowedOrClear t u ∧ FreshPrice t u) t us)
    (hrun : run onMarketUpdate m us = .ok m') : Resumes m' (us.foldl Trail.next t) := by
  induction us generalizing m t with
  | nil =>
    cases hrun
    exact h
  | cons u us ih =>
    obtain ⟨m₁, hok, hrest⟩ := run_cons_eq_ok.mp hrun
    have hstep := h.step (w := .keep) hus.1.1 hus.1.2 (.inl rfl)
    rw [onMarketUpdateOver_keep, hok] at hstep
    rcases hstep with ⟨-, m₂, hm₂, h₂⟩ | ⟨-, msg, herr⟩
    · cases hm₂
      exact ih h₂ hus.2 hrest
    · cases herr

/-- Two books with the same live orders stay together, as long as no order
arrives at a price that is stale for the first one. -/
theorem run_same (h : Resumes m t) (h' : Resumes m' t') (hlive : t'.live = t.live)
    (hstale : t'.stale ⊆ t.stale)
    (hvs : Along Trail.next (fun t u => AllowedOrClear t u ∧ FreshPrice t u ∧ FewLevels t u) t vs) :
    SameOutcome (run (onMarketUpdateOver w) m vs) (run onMarketUpdate m' vs) := by
  induction vs generalizing m m' t t' with
  | nil =>
    refine .inl ⟨m, m', rfl, rfl, fun d => ?_⟩
    rw [h.readSide_eq, h'.readSide_eq, hlive]
  | cons u vs ih =>
    obtain ⟨⟨hallowed, hfresh, hfew⟩, hrest⟩ := hvs
    have hallowed' : AllowedOrClear t' u := by
      unfold AllowedOrClear
      rw [hlive]
      exact hallowed
    have hfresh' : FreshPrice t' u := fun hadd hm => hfresh hadd (hstale hm)
    have hstep' := h'.step (w := .keep) hallowed' hfresh' (.inl rfl)
    rw [onMarketUpdateOver_keep] at hstep'
    rcases h.step (w := w) hallowed hfresh (.inr hfew) with ⟨hz, m₁, hm₁, h₁⟩ | ⟨hz, msg, hmsg⟩
    · rcases hstep' with ⟨-, m₁', hm₁', h₁'⟩ | ⟨hz', -⟩
      swap
      · exact (hz hz').elim
      rw [run_cons_ok hm₁, run_cons_ok hm₁']
      apply ih h₁ h₁' _ _ hrest
      · simp only [Trail.next, hlive]
      · simp only [Trail.next, hlive]
        split
        · exact List.append_subset.mpr ⟨List.subset_append_left _ _,
            fun _ hx => List.mem_append_right _ (hstale hx)⟩
        · exact hstale
    · rcases hstep' with ⟨hz', -⟩ | ⟨-, msg', hmsg'⟩
      · exact (hz' hz).elim
      · exact .inr ⟨⟨msg, run_cons_error hmsg⟩, msg', run_cons_error hmsg'⟩

/-- A book that has been cleared goes on like a new one, and nothing it does
depends on what the blocks it has given back contain. -/
theorem clear_resets (tickerId : ℕ) (us vs : List MEMarketUpdate) (c : MEMarketUpdate)
    (m : MarketOrderBook) (hc : c.type = .clear)
    (hus : Along Trail.next (fun t u => AllowedOrClear t u ∧ FreshPrice t u) {} us)
    (hrun : run onMarketUpdate (init tickerId) us = .ok m)
    (hvs : Along Trail.next (fun t u => AllowedOrClear t u ∧ FreshPrice t u ∧ FewLevels t u)
      (us.foldl Trail.next {}) (c :: vs)) :
    SameOutcome (run onMarketUpdate m (c :: vs)) (run onMarketUpdate (init tickerId) vs) ∧
      ∀ w, SameOutcome (run (onMarketUpdateOver w) m (c :: vs))
        (run onMarketUpdate (init tickerId) vs) := by
  have h := run_resumes (resumes_init tickerId) hus hrun
  have hover : ∀ w, SameOutcome (run (onMarketUpdateOver w) m (c :: vs))
      (run onMarketUpdate (init tickerId) vs) := by
    intro w
    obtain ⟨⟨hallowed, hfresh, hfew⟩, hrest⟩ := hvs
    rcases h.step (w := w) hallowed hfresh (.inr hfew) with ⟨-, m₁, hm₁, h₁⟩ | ⟨hz, -⟩
    · rw [run_cons_ok hm₁]
      apply run_same h₁ (resumes_init tickerId) _ _ hrest
      · simp only [Trail.next, apply, hc]
      · exact List.nil_subset _
    · have hadd := hz.1
      rw [hc] at hadd
      cases hadd
  refine ⟨?_, hover⟩
  have hkeep := hover .keep
  rwa [onMarketUpdateOver_keep] at hkeep

/-- A bid and an ask are cleared; the stream after it has two levels of bids,
a change and a removal. -/
theorem clear_resets_one_level_each : ∃ m,
    run onMarketUpdate (init 0) [⟨.add, 1, 0, .buy, 10, 5, 1⟩, ⟨.add, 2, 0, .sell, 12, 6, 1⟩] =
      .ok m ∧
    SameOutcome (run onMarketUpdate m [⟨.clear, orderIdInvalid, 0, .invalid, 0, 0, 0⟩,
        ⟨.add, 2, 0, .buy, 9, 7, 1⟩, ⟨.add, 1, 0, .buy, 11, 4, 1⟩, ⟨.modify, 2, 0, .buy, 9, 3, 1⟩,
        ⟨.cancel, 1, 0, .buy, 11, 4, 1⟩])
      (run onMarketUpdate (init 0) [⟨.add, 2, 0, .buy, 9, 7, 1⟩, ⟨.add, 1, 0, .buy, 11, 4, 1⟩,
        ⟨.modify, 2, 0, .buy, 9, 3, 1⟩, ⟨.cancel, 1, 0, .buy, 11, 4, 1⟩]) := by
  have hus : WellFormed [] [⟨.add, 1, 0, .buy, 10, 5, 1⟩, ⟨.add, 2, 0, .sell, 12, 6, 1⟩] := by
    simp [WellFormed, Along, Allowed, apply, meMaxOrderIds, meMaxPriceLevels]
  obtain ⟨m, hm⟩ := run_succeeds (m := init 0) tracks_init (by simp [NoZeroAsk])
    (Along.imp hus fun _ _ => Allowed.permitted) (by simp)
  refine ⟨m, hm, (clear_resets 0 _ _ _ m rfl ?_ hm ?_).1⟩
  · simp [Along, AllowedOrClear, FreshPrice, Allowed, Trail.next, apply, meMaxOrderIds,
      meMaxPriceLevels]
  · have hfew : ∀ d, (levelsOf [⟨1, .buy, 10, 5, 1⟩, ⟨2, .sell, 12, 6, 1⟩] d).length ≤ 1 := by
      decide
    simp [Along, AllowedOrClear, FreshPrice, FewLevels, Allowed, Trail.next, apply, meMaxOrderIds,
      meMaxPriceLevels, hfew]

/-- After a bid at 10 has been cleared, the next bid at 10 is on no side. -/
theorem cleared_price_is_lost : ∃ m,
    run onMarketUpdate (init 0) [⟨.add, 1, 0, .buy, 10, 5, 1⟩] = .ok m ∧
    Along Trail.next AllowedOrClear {} [⟨.add, 1, 0, .buy, 10, 5, 1⟩,
      ⟨.clear, orderIdInvalid, 0, .invalid, 0, 0, 0⟩, ⟨.add, 2, 0, .buy, 10, 6, 1⟩] ∧
    ¬SameOutcome (run onMarketUpdate m [⟨.clear, orderIdInvalid, 0, .invalid, 0, 0, 0⟩,
        ⟨.add, 2, 0, .buy, 10, 6, 1⟩])
      (run onMarketUpdate (init 0) [⟨.add, 2, 0, .buy, 10, 6, 1⟩]) := by
  have hus : WellFormed [] [⟨.add, 1, 0, .buy, 10, 5, 1⟩] := by
    simp [WellFormed, Along, Allowed, meMaxOrderIds, meMaxPriceLevels]
  have hp := Along.imp hus fun _ _ => Allowed.permitted
  obtain ⟨m, hm⟩ := run_succeeds (m := init 0) tracks_init (by simp [NoZeroAsk]) hp (by simp)
  obtain ⟨S, htracks⟩ := run_tracks (m := init 0) tracks_init hp hm
  have hentry : (run onMarketUpdate (init 0) [⟨.add, 1, 0, .buy, 10, 5, 1⟩]).map
      (fun m => m.book.getOrdersAtPrice 10) = .ok (some 0) := by
    decide
  have hfresh : (run onMarketUpdate (init 0) [⟨.add, 2, 0, .buy, 10, 6, 1⟩]).map
      (fun m => readSide m.book true) = .ok [(10, [⟨2, .buy, 10, 6, 1⟩])] := by
    decide
  rw [hm] at hentry
  refine ⟨m, hm, ?_, ?_⟩
  · simp [Along, AllowedOrClear, Allowed, Trail.next, apply, meMaxOrderIds, meMaxPriceLevels]
  · obtain ⟨b, hb, hblank, htable⟩ := clear_returns htracks
    rintro (⟨m₁, m₂, hm₁, hm₂, hsame⟩ | ⟨-, msg, hmsg⟩)
    · obtain ⟨m₃, hclear, hrest⟩ := run_cons_eq_ok.mp hm₁
      obtain ⟨m₄, hadd, hrest⟩ := run_cons_eq_ok.mp hrest
      cases hrest
      have hbook := book_of_onMarketUpdate hclear (by simp)
      simp only [applyUpdate, hb, Except.ok.injEq] at hbook
      have hfound : m₃.book.getOrdersAtPrice 10 = some 0 := by
        rw [← hbook, getOrdersAtPrice, htable]
        exact Except.ok.inj hentry
      have hbest := best_of_entry rfl hfound hadd true
      rw [← hbook, hblank.best true] at hbest
      have hread : readSide m₁.book true = [] := by simp [readSide, readLevels, hbest]
      rw [hm₂] at hfresh
      have hlevel : readSide m₂.book true = _ := Except.ok.inj hfresh
      rw [← hsame true, hread] at hlevel
      cases hlevel
    · rw [hmsg] at hfresh
      cases hfresh

end Runs

end MarketOrderBook

end HighPerformance
