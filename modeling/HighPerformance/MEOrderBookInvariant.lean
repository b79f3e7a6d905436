import HighPerformance.FallibleRun
import HighPerformance.MEOrderBookMatching
import Mathlib.Data.List.ProdSigma

/-!
# The invariant of the exchange's order book

`BookInvariant` is the representation invariant read off the book itself. It is
carried through a run by `Good`, the same fact about shapes together with what
the next call needs: sides, time priority and the identifications used so far.

One call breaks it. The first comparison of `addOrdersAtPrice` takes a sell
order below the best ask for one that belongs behind the best ask, so with two
or more ask levels the new level is linked in behind it. `KeepsAskOrder`
excludes that call.
-/

namespace HighPerformance.MEOrderBook
open LevelBook CircularList FallibleRun

/-- The calls of a run. -/
inductive Request where
  | add (clientId clientOrderId tickerId : ℕ) (side : Side) (price qty : ℕ)
  | cancel (clientId orderId tickerId : ℕ)

def handle (m : MEOrderBook) : Request → Except Fault (MEOrderBook × List Outgoing)
  | .add clientId clientOrderId tickerId side price qty =>
      m.add clientId clientOrderId tickerId side price qty
  | .cancel clientId orderId tickerId => m.cancel clientId orderId tickerId

def step (m : MEOrderBook) (r : Request) : Except Fault MEOrderBook := (m.handle r).map Prod.fst

/-- What the participants are trusted to send. -/
def Request.Valid : Request → Prop
  | .add clientId clientOrderId _ side price qty =>
      clientId < meMaxNumClients ∧ clientOrderId < meMaxOrderIds ∧
        (side = .buy ∨ side = .sell) ∧ price < meMaxPriceLevels ∧ 0 < qty
  | .cancel clientId orderId _ => clientId < meMaxNumClients ∧ orderId < meMaxOrderIds

instance : DecidablePred Request.Valid
  | .add clientId clientOrderId _ side price qty =>
      inferInstanceAs (Decidable (clientId < meMaxNumClients ∧ clientOrderId < meMaxOrderIds ∧
        (side = .buy ∨ side = .sell) ∧ price < meMaxPriceLevels ∧ 0 < qty))
  | .cancel clientId orderId _ =>
      inferInstanceAs (Decidable (clientId < meMaxNumClients ∧ orderId < meMaxOrderIds))

/-- The identification that an `add` uses up. -/
def Request.newKey : Request → Option ClientOrderKey
  | .add clientId clientOrderId _ _ _ _ => some (clientId, clientOrderId)
  | .cancel _ _ _ => none

/-- The quantity of the bids at `price` or better. -/
def bidVolume (b : LevelBook MEOrderIds ClientOrderKey) (price : ℕ) : ℕ :=
  (((b.readLevels true).filter fun l => decide (price ≤ (b.level l).price)).flatMap fun l =>
    (b.readOrders l).map fun p => (b.order p).qty).sum

/-- A sell order that rests does not rest below the best of several ask levels. -/
def KeepsAskOrder (m : MEOrderBook) : Request → Prop
  | .add _ _ _ .sell price qty => bidVolume m.book price < qty →
      ∀ l, m.book.asksByPrice = some l → (m.book.level l).nextEntry ≠ some l →
        (m.book.level l).price ≤ price
  | _ => True

/-- The levels and orders met from the best pointers are closed rings without
repetition, in the right order, and the pools and tables hold exactly these. -/
structure BookInvariant (b : LevelBook MEOrderIds ClientOrderKey) : Prop where
  best : ∀ d, b.best d = (b.readLevels d).head?
  levelRing : ∀ d, Ring b.nextEntry b.prevEntry (b.readLevels d)
  everyLevel : ∀ l, b.ordersAtPricePool.isFree l = false ↔ ∃ d, l ∈ b.readLevels d
  sorted : ∀ d, (b.readLevels d).Pairwise fun l l' => better d (b.level l).price (b.level l').price
  levelSide : ∀ d, ∀ l ∈ b.readLevels d, (b.level l).side = sideOf d
  entry : ∀ d, ∀ l ∈ b.readLevels d, (b.level l).firstOrder = (b.readOrders l).head?
  nonempty : ∀ d, ∀ l ∈ b.readLevels d, b.readOrders l ≠ []
  orderRing : ∀ d, ∀ l ∈ b.readLevels d, Ring b.nextOrder b.prevOrder (b.readOrders l)
  orderPlace : ∀ d, ∀ l ∈ b.readLevels d, ∀ p ∈ b.readOrders l,
    (b.order p).side = sideOf d ∧ (b.order p).price = (b.level l).price
  fifo : ∀ d, ∀ l ∈ b.readLevels d,
    (b.readOrders l).Pairwise fun p q => (b.order p).priority < (b.order q).priority
  priceTable : ∀ i l, b.priceOrdersAtPrices i = some l ↔
    (∃ d, l ∈ b.readLevels d) ∧ (b.level l).price = i
  everyOrder : ∀ p, b.orderPool.isFree p = false ↔
    ∃ d, ∃ l ∈ b.readLevels d, p ∈ b.readOrders l
  idTable : ∀ id p, b.idToOrder id = some p ↔
    (∃ d, ∃ l ∈ b.readLevels d, p ∈ b.readOrders l) ∧
      ((b.order p).ident.clientId, (b.order p).ident.clientOrderId) = id

/-- What a run keeps; `used` are the identifications of the orders added so far. -/
structure Good (m : MEOrderBook) (S : Shape MEOrderIds) (used : List ClientOrderKey) : Prop where
  rep : Rep m S
  sided : S.Sided
  fifo : ∀ d q, (S.contents d q).Pairwise fun x y => x.priority < y.priority
  bound : ∀ o ∈ S.orders, o.priority ≤ used.length
  mem_used : ∀ o ∈ S.orders, meBookKind.key o.ident ∈ used

section Reading
variable {m : MEOrderBook} {S : Shape MEOrderIds} {used : List ClientOrderKey}

theorem Good.exists_level (h : Good m S used) {d : Bool} {l : Ptr} (hl : l ∈ m.book.readLevels d) :
    ∃ L ∈ S d, l = L.addr := by
  rw [h.rep.shaped.readLevels_eq] at hl
  obtain ⟨L, hL, rfl⟩ := List.mem_map.mp hl
  exact ⟨L, hL, rfl⟩

theorem Good.mem_readLevels_iff (h : Good m S used) {l : Ptr} :
    (∃ d, l ∈ m.book.readLevels d) ↔ ∃ L ∈ S.levels, L.addr = l := by
  simp only [h.rep.shaped.readLevels_eq, List.mem_map, Shape.mem_levels]
  constructor
  · rintro ⟨d, L, hL, rfl⟩
    exact ⟨L, ⟨d, hL⟩, rfl⟩
  · rintro ⟨L, ⟨d, hL⟩, rfl⟩
    exact ⟨d, L, hL, rfl⟩

theorem Good.mem_readOrders_iff (h : Good m S used) {p : Ptr} :
    (∃ d, ∃ l ∈ m.book.readLevels d, p ∈ m.book.readOrders l) ↔ ∃ o ∈ S.orders, o.addr = p := by
  simp only [Shape.mem_orders]
  constructor
  · rintro ⟨d, l, hl, hp⟩
    obtain ⟨L, hL, rfl⟩ := h.exists_level hl
    rw [h.rep.shaped.readOrders_eq hL] at hp
    obtain ⟨o, ho, rfl⟩ := List.mem_map.mp hp
    exact ⟨o, ⟨d, L, hL, ho⟩, rfl⟩
  · rintro ⟨o, ⟨d, L, hL, ho⟩, rfl⟩
    refine ⟨d, L.addr, ?_, ?_⟩
    · rw [h.rep.shaped.readLevels_eq]
      exact List.mem_map_of_mem hL
    · rw [h.rep.shaped.readOrders_eq hL]
      exact List.mem_map_of_mem ho

theorem Good.bookInvariant (h : Good m S used) : BookInvariant m.book := by
  have hs := h.rep.shaped
  have hread := hs.readLevels_eq
  have hprice : ∀ d, ∀ L ∈ S d, (m.book.level L.addr).price = L.price :=
    fun d L hL => congrArg (fun x => x.2.1) (hs.level d L hL).data
  constructor
  case best =>
    intro d
    rw [hread]
    exact hs.levels.best d
  case levelRing =>
    intro d
    rw [hread]
    exact hs.levels.ring d
  case everyLevel =>
    intro l
    rw [hs.levels.pool.busy, h.mem_readLevels_iff, List.mem_map]
  case sorted =>
    intro d
    rw [hread, List.pairwise_map]
    have hsorted := hs.levels.sorted d
    rw [List.pairwise_map] at hsorted
    apply hsorted.imp_of_mem
    intro L M hL hM hb
    rwa [hprice d L hL, hprice d M hM]
  case levelSide =>
    intro d l hl
    obtain ⟨L, hL, rfl⟩ := h.exists_level hl
    rw [← hs.level_side h.sided hL]
    exact congrArg Prod.fst (hs.level d L hL).data
  case entry =>
    intro d l hl
    obtain ⟨L, hL, rfl⟩ := h.exists_level hl
    rw [hs.readOrders_eq hL]
    exact (hs.level d L hL).firstOrder
  case nonempty =>
    intro d l hl
    obtain ⟨L, hL, rfl⟩ := h.exists_level hl
    rw [hs.readOrders_eq hL, ne_eq, List.map_eq_nil_iff]
    exact (hs.level d L hL).nonempty
  case orderRing =>
    intro d l hl
    obtain ⟨L, hL, rfl⟩ := h.exists_level hl
    rw [hs.readOrders_eq hL]
    exact (hs.level d L hL).ring
  case orderPlace =>
    intro d l hl p hp
    obtain ⟨L, hL, rfl⟩ := h.exists_level hl
    rw [hs.readOrders_eq hL] at hp
    obtain ⟨o, ho, rfl⟩ := List.mem_map.mp hp
    obtain ⟨hside, hdata⟩ := (hs.level d L hL).orders o ho
    rw [hprice d L hL, ← hs.level_side h.sided hL, ← hside]
    exact ⟨congrArg (fun x => x.2.1) hdata, congrArg (fun x => x.2.2.1) hdata⟩
  case fifo =>
    intro d l hl
    obtain ⟨L, hL, rfl⟩ := h.exists_level hl
    have hfifo := h.fifo d L.price
    rw [hs.levels.contents_eq hL] at hfifo
    rw [hs.readOrders_eq hL, List.pairwise_map]
    apply hfifo.imp_of_mem
    intro x y hx hy hxy
    have hprio : ∀ z ∈ L.orders, (m.book.order z.addr).priority = z.priority :=
      fun z hz => congrArg (fun x => x.2.2.2.2) ((hs.level d L hL).orders z hz).2
    rwa [hprio x hx, hprio y hy]
  case priceTable =>
    intro i l
    rw [hs.levels.priceTable, h.mem_readLevels_iff]
    constructor
    · rintro ⟨L, hL, rfl, rfl⟩
      obtain ⟨d, hd⟩ := Shape.mem_levels.mp hL
      exact ⟨⟨L, hL, rfl⟩, hprice d L hd⟩
    · rintro ⟨⟨L, hL, rfl⟩, rfl⟩
      obtain ⟨d, hd⟩ := Shape.mem_levels.mp hL
      exact ⟨L, hL, rfl, (hprice d L hd).symm⟩
  case everyOrder =>
    intro p
    rw [hs.pool.busy, h.mem_readOrders_iff, List.nil_append, List.mem_map]
  case idTable =>
    intro id p
    rw [h.rep.indexed, h.mem_readOrders_iff]
    have hident : ∀ o ∈ S.orders, (m.book.order o.addr).ident = o.ident := by
      intro o ho
      obtain ⟨d, L, hL, hoL⟩ := Shape.mem_orders.mp ho
      exact congrArg Prod.fst ((hs.level d L hL).orders o hoL).2
    constructor
    · rintro ⟨o, ho, rfl, rfl⟩
      exact ⟨⟨o, ho, rfl⟩, by rw [hident o ho]; rfl⟩
    · rintro ⟨⟨o, ho, rfl⟩, rfl⟩
      exact ⟨o, ho, rfl, by rw [hident o ho]; rfl⟩

theorem bidVolume_eq (h : Rep m S) (price : ℕ) :
    bidVolume m.book price = volume (stopsFor false price) (Shape.queue (S true)) := by
  have hs := h.shaped
  have hside : ∀ ls : List (PriceLevel MEOrderIds), (∀ L ∈ ls, L ∈ S true) →
      (((ls.map (·.addr)).filter fun l => decide (price ≤ (m.book.level l).price)).flatMap
        fun l => (m.book.readOrders l).map fun p => (m.book.order p).qty).sum =
      volume (stopsFor false price) (Shape.queue ls) := by
    intro ls hls
    induction ls with
    | nil => rfl
    | cons L ls ih =>
      have hL := hls L (by simp)
      have ih := ih fun M hM => hls M (by simp [hM])
      have hprice : (m.book.level L.addr).price = L.price :=
        congrArg (fun x => x.2.1) (hs.level true L hL).data
      have hqty : (m.book.readOrders L.addr).map (fun p => (m.book.order p).qty) =
          L.orders.map fun o => o.qty := by
        rw [hs.readOrders_eq hL, List.map_map]
        apply List.map_congr_left
        intro o ho
        exact congrArg (fun x => x.2.2.2.1) ((hs.level true L hL).orders o ho).2
      have hvol : volume (stopsFor false price) (Shape.queue (L :: ls)) =
          (if price ≤ L.price then (L.orders.map fun o => o.qty).sum else 0) +
            volume (stopsFor false price) (Shape.queue ls) := by
        rw [volume, Shape.queue_cons, List.filter_append, List.map_append, List.sum_append,
          List.filter_map, List.map_map]
        by_cases hp : price ≤ L.price
        · have hlt : ¬L.price < price := Nat.not_lt.mpr hp
          simp [volume, stopsFor, hp, hlt, Function.comp_def]
        · have hlt : L.price < price := Nat.not_le.mp hp
          simp [volume, stopsFor, hp, hlt, Function.comp_def]
      rw [hvol, ← ih, List.map_cons, List.filter_cons, hprice]
      by_cases hp : price ≤ L.price
      · simp [hp, hqty]
      · simp [hp]
  rw [bidVolume, hs.readLevels_eq]
  exact hside _ fun L hL => hL

theorem searchStarts_of_keeps (h : Rep m S) {cid oid tid price qty : ℕ} {e : Bool}
    (hk : KeepsAskOrder m (.add cid oid tid (sideOf e) price qty))
    (hv : e = false → bidVolume m.book price < qty) :
    SearchStarts meBookKind (sideOf e) price (S e) := by
  intro M w hS
  cases e with
  | true =>
    left
    simp [meBookKind, behind, sideOf]
  | false =>
    have hbest := h.shaped.levels.best false
    have hring := h.shaped.levels.ring false
    rw [hS] at hbest hring
    have hasks : m.book.asksByPrice = some M.addr := hbest
    have hprice : (m.book.level M.addr).price = M.price :=
      congrArg (fun x => x.2.1) (h.shaped.level false M (by simp [hS])).data
    by_cases hMp : M.price ≤ price
    · left
      have hlt : ¬price < M.price := Nat.not_lt.mpr hMp
      simp [meBookKind, behind, sideOf, hlt]
    · right
      have hone : (m.book.level M.addr).nextEntry = some M.addr := by
        by_contra hne
        have hle := hk (hv rfl) M.addr hasks hne
        rw [hprice] at hle
        exact hMp hle
      constructor
      · cases w with
        | nil => rfl
        | cons N w => exact (hring.next_ne_self hone).elim
      · simp only [meBookKind, sideOf, Bool.or_eq_true, decide_eq_true_eq]
        right
        omega

end Reading

section Steps
variable {m : MEOrderBook} {S S' : Shape MEOrderIds} {used : List ClientOrderKey}

theorem good_init (tickerId : ℕ) : Good (init tickerId) (fun _ => []) [] := by
  constructor
  · exact ⟨shaped_init, indexed_init meBookKind, fun o ho => by simp at ho⟩
  · intro o ho
    simp at ho
  · intro d q
    exact List.Pairwise.nil
  · simp
  · simp

/-- Trading and removal keep what a run keeps. -/
theorem Good.reduce {m' : MEOrderBook} (h : Good m S used) (hrep : Rep m' S')
    (hred : Reduced S S') : Good m' S' used := by
  have hback : ∀ o' ∈ S'.orders, ∃ o ∈ S.orders,
      o.ident = o'.ident ∧ o.side = o'.side ∧ o.priority = o'.priority := by
    intro o' ho'
    obtain ⟨o, ho, hcore⟩ := hred.exists_of_mem ho'
    exact ⟨o, ho, congrArg (fun x => x.2.1) hcore, congrArg (fun x => x.2.2.1) hcore,
      congrArg (fun x => x.2.2.2) hcore⟩
  constructor
  · exact hrep
  · intro o' ho'
    obtain ⟨o, ho, -, hside, -⟩ := hback o' ho'
    rw [← hside]
    exact h.sided o ho
  · intro d q
    have hcore : ((S.contents d q).map core).Pairwise fun x y => x.2.2.2 < y.2.2.2 := by
      rw [List.pairwise_map]
      exact h.fifo d q
    have hsub := List.Pairwise.sublist (hred d q) hcore
    rw [List.pairwise_map] at hsub
    exact hsub
  · intro o' ho'
    obtain ⟨o, ho, -, -, hprio⟩ := hback o' ho'
    rw [← hprio]
    exact h.bound o ho
  · intro o' ho'
    obtain ⟨o, ho, hident, -, -⟩ := hback o' ho'
    rw [← hident]
    exact h.mem_used o ho

theorem OrderGone.reduced {d : Bool} {u w : List (PriceLevel MEOrderIds)}
    {L : PriceLevel MEOrderIds} {x y : List (Resting MEOrderIds)} {o : Resting MEOrderIds}
    (h : OrderGone S S' d u L w o (x ++ y)) (hcont : S.contents d L.price = x ++ o :: y) :
    Reduced S S' := by
  intro e q
  rw [h.contents]
  split
  · next hq =>
    obtain ⟨rfl, rfl⟩ := hq
    rw [hcont]
    exact ((List.sublist_cons_self o y).append_left x).map _
  · exact List.Sublist.refl _

/-- A new order comes last at its price, with a priority above all the others. -/
theorem Good.add {m' : MEOrderBook} {e : Bool} {price : ℕ} {o : Resting MEOrderIds}
    {key : ClientOrderKey} (h : Good m S used) (hrep : Rep m' S')
    (hadd : OrderAdded S S' e price o) (hside : o.side = sideOf e)
    (hkey : meBookKind.key o.ident = key) (hlen : used.length + 1 < 2 ^ 64)
    (hprio : o.priority = nextPriority (S.contents e price)) : Good m' S' (key :: used) := by
  have hin : ∀ z ∈ S.contents e price, z.priority ≤ used.length :=
    fun z hz => h.bound z (Shape.mem_orders_iff_contents.mpr ⟨e, price, hz⟩)
  have hlast : o.priority ≤ used.length + 1 ∧
      ∀ z ∈ S.contents e price, z.priority < o.priority := by
    rw [hprio]
    have hfifo := h.fifo e price
    unfold nextPriority
    cases hl : (S.contents e price).getLast? with
    | none =>
      rw [List.getLast?_eq_none_iff.mp hl]
      simp
    | some z =>
      obtain ⟨ys, hys⟩ := List.getLast?_eq_some_iff.mp hl
      have hz := hin z (List.mem_of_getLast? hl)
      have hmod : (z.priority + 1) % 2 ^ 64 = z.priority + 1 := Nat.mod_eq_of_lt (by omega)
      simp only [hmod]
      refine ⟨by omega, fun c hc => ?_⟩
      rw [hys, List.mem_append, List.mem_singleton] at hc
      rw [hys, List.pairwise_append] at hfifo
      rcases hc with hc | rfl
      · have hlt := hfifo.2.2 c hc z (by simp)
        omega
      · omega
  constructor
  · exact hrep
  · intro z hz
    rcases List.mem_cons.mp (hadd.perm.mem_iff.mp hz) with rfl | hz
    · rw [hside]
      cases e
      · exact .inr rfl
      · exact .inl rfl
    · exact h.sided z hz
  · intro d q
    rw [hadd.contents]
    by_cases hdq : d = e ∧ q = price
    · obtain ⟨rfl, rfl⟩ := hdq
      rw [if_pos ⟨rfl, rfl⟩, List.pairwise_append]
      refine ⟨h.fifo d q, List.pairwise_singleton _ _, ?_⟩
      intro x hx y hy
      rw [List.mem_singleton.mp hy]
      exact hlast.2 x hx
    · rw [if_neg hdq, List.append_nil]
      exact h.fifo d q
  · intro z hz
    rcases List.mem_cons.mp (hadd.perm.mem_iff.mp hz) with rfl | hz
    · exact hlast.1
    · have hb := h.bound z hz
      rw [List.length_cons]
      omega
  · intro z hz
    rcases List.mem_cons.mp (hadd.perm.mem_iff.mp hz) with rfl | hz
    · exact hkey ▸ List.mem_cons_self
    · exact List.mem_cons_of_mem _ (h.mem_used z hz)

end Steps

section Runs
variable {m : MEOrderBook} {S : Shape MEOrderIds} {used : List ClientOrderKey}

theorem checkClientOrderKey_ok {cid oid : ℕ} (hc : cid < meMaxNumClients)
    (ho : oid < meMaxOrderIds) : checkClientOrderKey (cid, oid) = .ok () := by
  simp only [checkClientOrderKey, at?_lt hc, at?_lt ho]
  rfl

theorem good_cancel {cid oid : ℕ} (tid : ℕ) (h : Good m S used) (hc : cid < meMaxNumClients)
    (ho : oid < meMaxOrderIds) :
    ∃ m' S', step m (.cancel cid oid tid) = .ok m' ∧ Good m' S' used := by
  rcases cancel_spec tid h.rep hc ho with
    ⟨hok, -⟩ | ⟨m', S', d, u, L, w, x, o, y, out, hok, hrep, -, -, -, hS, hxy, hgone, -⟩
  · refine ⟨m, S, ?_, h⟩
    simp only [step, handle, hok]
    rfl
  · refine ⟨m', S', ?_, ?_⟩
    · simp only [step, handle, hok]
      rfl
    · apply h.reduce hrep
      apply OrderGone.reduced hgone
      rw [h.rep.shaped.levels.contents_eq (by simp [hS]), hxy]

theorem good_add {cid oid price qty : ℕ} {side : Side} (tid : ℕ) (h : Good m S used)
    (hv : (Request.add cid oid tid side price qty).Valid) (hnew : (cid, oid) ∉ used)
    (hk : KeepsAskOrder m (.add cid oid tid side price qty)) (hlen : used.length + 1 < 2 ^ 64) :
    (∃ m' S', step m (.add cid oid tid side price qty) = .ok m' ∧ Good m' S' ((cid, oid) :: used)) ∨
      step m (.add cid oid tid side price qty) = .error MemPool.outOfSpace := by
  obtain ⟨hc, ho, hside, hp, -⟩ := hv
  obtain ⟨e, rfl⟩ : ∃ e, side = sideOf e := by
    rcases hside with rfl | rfl
    · exact ⟨true, rfl⟩
    · exact ⟨false, rfl⟩
  have hkeys : ∀ x ∈ S.orders, meBookKind.key x.ident ≠ (cid, oid) :=
    fun x hx he => hnew (he ▸ h.mem_used x hx)
  have hweak : ∀ {T : Shape MEOrderIds} {m' : MEOrderBook}, Good m' T used →
      Good m' T ((cid, oid) :: used) := by
    intro T m' hT
    refine ⟨hT.rep, hT.sided, hT.fifo, fun o ho => ?_, fun o ho => ?_⟩
    · exact (hT.bound o ho).trans (by simp)
    · exact List.mem_cons_of_mem _ (hT.mem_used o ho)
  set i : Incoming := ⟨cid, oid, tid, sideOf e, price, m.nextMarketOrderId % 2 ^ 32⟩ with hi
  set r := sweep i (stopsFor e price) qty (Shape.queue (S (!e))) with hr
  have hstart : r.1 ≠ 0 → (∀ M ∈ S e, M.price ≠ price) →
      SearchStarts meBookKind (sideOf e) price (S e) := by
    intro hne _
    apply searchStarts_of_keeps h.rep hk
    rintro rfl
    rw [hr, sweep_leaves (stopsFor_mono h.rep price)] at hne
    rw [bidVolume_eq h.rep]
    simp only [Bool.not_false] at hne
    omega
  obtain ⟨m₁, S₁, hm₁, hcases⟩ := add_spec tid h.rep h.sided hp
    (checkClientOrderKey_ok hc ho) hkeys i hi r hr hstart
  have hgood₁ : Good m₁ S₁ used := h.reduce hm₁.rep (MatchedTo.reduced (hr ▸ hm₁))
  rcases hcases with ⟨-, hok⟩ | ⟨-, m', S', p, hok, hrep, -, -, hadd⟩ | ⟨-, herr⟩
  · left
    refine ⟨m₁, S₁, ?_, hweak hgood₁⟩
    simp only [step, handle, hok]
    rfl
  · left
    refine ⟨m', S', ?_, hgood₁.add hrep hadd rfl rfl hlen rfl⟩
    simp only [step, handle, hok]
    rfl
  · right
    simp only [step, handle, herr]
    rfl

theorem length_used_lt (hnd : used.Nodup)
    (hb : ∀ k ∈ used, k.1 < meMaxNumClients ∧ k.2 < meMaxOrderIds) : used.length < 2 ^ 63 := by
  have hsub : used ⊆ List.range meMaxNumClients ×ˢ List.range meMaxOrderIds := by
    intro k hk
    rw [List.mem_product, List.mem_range, List.mem_range]
    exact hb k hk
  have hle := (hnd.subperm hsub).length_le
  rw [List.length_product, List.length_range, List.length_range] at hle
  have hsize : meMaxNumClients * meMaxOrderIds < 2 ^ 63 := by decide
  omega

/-- Every run of valid calls with fresh identifications in which no sell order
comes to rest below the best of several ask levels stays on good books. -/
theorem run_good (tickerId : ℕ) (rs : List Request) (hvalid : ∀ r ∈ rs, r.Valid)
    (hkeys : (rs.filterMap Request.newKey).Nodup)
    (hsafe : Meets step KeepsAskOrder (init tickerId) rs) :
    (∃ m, run step (init tickerId) rs = .ok m ∧
      ∃ S, Good m S (rs.filterMap Request.newKey).reverse) ∨
      run step (init tickerId) rs = .error MemPool.outOfSpace := by
  have hrun := run_progress_history (E := fun e => e = MemPool.outOfSpace)
    (Q := fun done m => ∃ S, Good m S (done.filterMap Request.newKey).reverse)
    ⟨_, good_init tickerId⟩ hsafe ?_
  · rcases hrun with hok | ⟨e, herr, rfl⟩
    · exact .inl hok
    · exact .inr herr
  · rintro done r m hpre ⟨S, hgood⟩ hkeep
    have hr : r.Valid := hvalid r (hpre.subset (by simp))
    have hpre' := hpre.filterMap Request.newKey
    rw [List.filterMap_append] at hpre' ⊢
    have hnd := hkeys.sublist hpre'.sublist
    cases r with
    | cancel cid oid tid =>
      left
      obtain ⟨m', S', hok, hgood'⟩ := good_cancel tid hgood hr.1 hr.2
      exact ⟨m', hok, S', by simpa [List.filterMap_cons, Request.newKey] using hgood'⟩
    | add cid oid tid side price qty =>
      have hused : (done.filterMap Request.newKey ++ [(cid, oid)]).Nodup := by
        simpa [Request.newKey] using hnd
      have hnew : (cid, oid) ∉ (done.filterMap Request.newKey).reverse := by
        rw [List.mem_reverse]
        intro hm
        exact (List.nodup_append.mp hused).2.2 _ hm _ (by simp) rfl
      have hbound : ∀ k ∈ done.filterMap Request.newKey,
          k.1 < meMaxNumClients ∧ k.2 < meMaxOrderIds := by
        intro k hk
        obtain ⟨r, hr, hrk⟩ := List.mem_filterMap.mp hk
        have hv := hvalid r (hpre.subset (List.mem_append_left _ hr))
        cases r with
        | cancel _ _ _ => simp [Request.newKey] at hrk
        | add c o _ _ _ _ =>
          simp only [Request.newKey, Option.some.injEq] at hrk
          subst hrk
          exact ⟨hv.1, hv.2.1⟩
      have hlen := length_used_lt (List.nodup_append.mp hused).1 hbound
      rcases good_add tid hgood hr hnew hkeep (by rw [List.length_reverse]; omega) with
        ⟨m', S', hok, hgood'⟩ | herr
      · exact .inl ⟨m', hok, S', by simpa [Request.newKey] using hgood'⟩
      · exact .inr ⟨_, herr, rfl⟩

/-- Every such run keeps the invariant. -/
theorem run_bookInvariant (tickerId : ℕ) (rs : List Request) (hvalid : ∀ r ∈ rs, r.Valid)
    (hkeys : (rs.filterMap Request.newKey).Nodup)
    (hsafe : Meets step KeepsAskOrder (init tickerId) rs) :
    (∃ m, run step (init tickerId) rs = .ok m ∧ BookInvariant m.book) ∨
      run step (init tickerId) rs = .error MemPool.outOfSpace := by
  rcases run_good tickerId rs hvalid hkeys hsafe with ⟨m, hok, S, hgood⟩ | herr
  · exact .inl ⟨m, hok, hgood.bookInvariant⟩
  · exact .inr herr

/-- A middle level and a trade: sells at 90, 110 and 100, then a buy at 95. -/
theorem run_bookInvariant_three_asks :
    (∃ m, run step (init 0) [.add 0 0 0 .sell 90 5, .add 0 1 0 .sell 110 5, .add 0 2 0 .sell 100 5,
        .add 1 0 0 .buy 95 7] = .ok m ∧ BookInvariant m.book) ∨
      run step (init 0) [.add 0 0 0 .sell 90 5, .add 0 1 0 .sell 110 5, .add 0 2 0 .sell 100 5,
        .add 1 0 0 .buy 95 7] = .error MemPool.outOfSpace := by
  apply run_bookInvariant
  · decide
  · decide
  · refine ⟨?_, fun t₁ h₁ => ⟨?_, fun t₂ h₂ => ⟨?_, fun t₃ _ => ⟨trivial, fun _ _ => trivial⟩⟩⟩⟩
    · intro _ l hl
      simp [init, LevelBook.init] at hl
    · intro _ l hl _
      have hbest : (run step (init 0) [.add 0 0 0 .sell 90 5]).map
          (fun m => m.book.asksByPrice.map fun l => (m.book.level l).price) = .ok (some 90) := by
        decide
      rw [run_cons_ok h₁, run_nil] at hbest
      simp only [Except.map, hl, Option.map_some, Except.ok.injEq, Option.some.injEq] at hbest
      omega
    · intro _ l hl _
      have hbest : (run step (init 0) [.add 0 0 0 .sell 90 5, .add 0 1 0 .sell 110 5]).map
          (fun m => m.book.asksByPrice.map fun l => (m.book.level l).price) = .ok (some 90) := by
        decide
      rw [run_cons_ok h₁, run_cons_ok h₂, run_nil] at hbest
      simp only [Except.map, hl, Option.map_some, Except.ok.injEq, Option.some.injEq] at hbest
      omega

/-- Sells at 100, 110 and 90: the level of 100 is no longer met from the best ask. -/
theorem sell_below_best_loses_level :
    (∀ r ∈ ([.add 0 0 0 .sell 100 1, .add 0 1 0 .sell 110 1, .add 0 2 0 .sell 90 1] :
        List Request), r.Valid) ∧
      (([.add 0 0 0 .sell 100 1, .add 0 1 0 .sell 110 1, .add 0 2 0 .sell 90 1] :
        List Request).filterMap Request.newKey).Nodup ∧
      ∃ m, run step (init 0)
        [.add 0 0 0 .sell 100 1, .add 0 1 0 .sell 110 1, .add 0 2 0 .sell 90 1] = .ok m ∧
        ¬BookInvariant m.book := by
  have hread : (run step (init 0)
      [.add 0 0 0 .sell 100 1, .add 0 1 0 .sell 110 1, .add 0 2 0 .sell 90 1]).map
      (fun m => (m.book.ordersAtPricePool.isFree 0, m.book.readLevels true,
        m.book.readLevels false)) = .ok (false, [], [2, 1]) := by
    decide
  refine ⟨by decide, by decide, ?_⟩
  obtain ⟨m, hrun, hpair⟩ := map_eq_ok hread
  simp only [Prod.mk.injEq] at hpair
  obtain ⟨hbusy, hbids, hasks⟩ := hpair
  refine ⟨m, hrun, fun hinv => ?_⟩
  -- the block of the first level is in use but on neither ring
  obtain ⟨d, hd⟩ := (hinv.everyLevel 0).mp hbusy
  cases d with
  | true => simp [hbids] at hd
  | false => simp [hasks] at hd

end Runs

end HighPerformance.MEOrderBook
