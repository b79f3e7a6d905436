import HighPerformance.MarketOrderBook
import HighPerformance.PriceLevelShape

/-!
# The walks of the client's book

`updateBBO` and the sanity check in `toString` walk over the rings that a shape
describes. Both walks end; the sanity check accepts a side exactly when each
price is worse than the one before it, starting from the least or the greatest
value of the type. `CLEAR` finds nothing to do in an empty book.
-/

namespace HighPerformance.LevelBook
open CircularList

section Walks
variable {b : LevelBook MarketOrderId ℕ} {S : Shape MarketOrderId} {pend : List Ptr} {d : Bool}
  {L : PriceLevel MarketOrderId}

theorem sumQty_spec {first : Ptr} {v : List Ptr} {fuel qty : ℕ}
    (hc : List.IsChain (Linked b.nextOrder b.prevOrder) (v ++ [first])) (hf : first ∉ v)
    (hlen : v.length < fuel) (order : Option Ptr) (ho : order = (v ++ [first]).head?) :
    sumQty b first fuel order qty =
      .ok (v.foldl (fun q p => (q + (b.order p).qty) % 2 ^ 32) qty) := by
  induction v generalizing order qty fuel with
  | nil =>
    obtain ⟨fuel, rfl⟩ := Nat.exists_eq_succ_of_ne_zero (Nat.ne_of_gt hlen)
    simp [sumQty, ho]
  | cons p v ih =>
    obtain ⟨fuel, rfl⟩ := Nat.exists_eq_succ_of_ne_zero (Nat.ne_of_gt (Nat.zero_lt_of_lt hlen))
    have hpf : p ≠ first := fun he => hf (by simp [he])
    obtain ⟨q, hq⟩ : ∃ q, (v ++ [first]).head? = some q := by cases v <;> simp
    have hnext : (b.order p).nextOrder = some q := (hc.rel_head? hq).1
    have hrest := @ih fuel ((qty + (b.order p).qty) % 2 ^ 32) hc.tail
      (fun hm => hf (List.mem_cons_of_mem _ hm)) (by simpa using hlen) (some q) hq.symm
    subst ho
    simp only [List.cons_append, List.head?_cons, sumQty, Option.some.injEq, hpf, if_false,
      deref_some, bind, Except.bind, hnext, hrest, List.foldl_cons]

/-- Price and quantity of the front of a side. -/
def quoteOf (ls : List (PriceLevel MarketOrderId)) : ℕ × ℕ :=
  match ls with
  | [] => (priceInvalid, qtyInvalid)
  | L :: _ => (L.price, match L.orders with
    | [] => 0
    | o :: y => y.foldl (fun q z => (q + z.qty) % 2 ^ 32) o.qty)

theorem bestQuote_spec (h : Shaped b S pend) (d : Bool) :
    bestQuote b (b.best d) = .ok (quoteOf (S d)) := by
  have hbest := h.levels.best d
  unfold bestQuote
  cases hS : S d with
  | nil =>
    rw [hS] at hbest
    rw [hbest]
    rfl
  | cons L w =>
    have hL : L ∈ S d := by simp [hS]
    have hrep := h.level d L hL
    rw [hS] at hbest
    rw [hbest]
    cases ho : L.orders with
    | nil => exact (hrep.nonempty ho).elim
    | cons o y =>
      have hfirst : (b.level L.addr).firstOrder = some o.addr := by
        rw [hrep.firstOrder, ho]
        rfl
      have hring := hrep.ring
      rw [ho, List.map_cons] at hring
      have hlen := h.length_level_le hL
      rw [ho, List.length_cons] at hlen
      obtain ⟨q, hq⟩ : ∃ q, (y.map (·.addr) ++ [o.addr]).head? = some q := by cases y <;> simp
      have hnext : (b.order o.addr).nextOrder = (y.map (·.addr) ++ [o.addr]).head? := by
        rw [hq]
        exact (hring.chain.rel_head? hq).1
      have hqty : ∀ z ∈ L.orders, (b.order z.addr).qty = z.qty :=
        fun z hz => congrArg (fun x => x.2.2.2.1) (hrep.orders z hz).2
      have hfold : ∀ (zs : List (Resting MarketOrderId)) (q : ℕ), (∀ z ∈ zs, z ∈ L.orders) →
          (zs.map (·.addr)).foldl (fun q p => (q + (b.order p).qty) % 2 ^ 32) q =
            zs.foldl (fun q z => (q + z.qty) % 2 ^ 32) q := by
        intro zs
        induction zs with
        | nil => exact fun _ _ => rfl
        | cons z zs ih =>
          intro q hzs
          rw [List.map_cons, List.foldl_cons, List.foldl_cons, hqty z (hzs z (by simp))]
          exact ih _ fun z' hz' => hzs z' (List.mem_cons_of_mem _ hz')
      have hfuel : (y.map (·.addr)).length < b.orderPool.size + 1 := by
        rw [List.length_map]
        omega
      have hsum := @sumQty_spec b o.addr (y.map (·.addr)) (b.orderPool.size + 1)
        (b.order o.addr).qty hring.chain.tail (List.nodup_cons.mp hring.nodup).1 hfuel _ hnext
      rw [hfold y _ fun z hz => by simp [ho, hz], hqty o (by simp [ho])] at hsum
      simp only [List.map_cons, List.head?_cons, hfirst, deref_some, bind, Except.bind, hqty o
        (by simp [ho]), hsum, hrep.price, quoteOf, ho]
      rfl

theorem printOrders_spec {f p : Ptr} {v : List Ptr} {fuel : ℕ}
    (hc : List.IsChain (Linked b.nextOrder b.prevOrder) (p :: v ++ [f])) (hf : f ∉ v)
    (hlen : v.length < fuel) : printOrders b (some f) fuel (some p) = .ok () := by
  induction v generalizing p fuel with
  | nil =>
    obtain ⟨fuel, rfl⟩ := Nat.exists_eq_succ_of_ne_zero (Nat.ne_of_gt hlen)
    have hnext : (b.order p).nextOrder = some f := (List.isChain_cons_cons.mp hc).1.1
    simp [printOrders, hnext, bind, Except.bind]
  | cons q v ih =>
    obtain ⟨fuel, rfl⟩ := Nat.exists_eq_succ_of_ne_zero (Nat.ne_of_gt (Nat.zero_lt_of_lt hlen))
    rw [List.cons_append, List.cons_append, List.isChain_cons_cons] at hc
    have hnext : (b.order p).nextOrder = some q := hc.1.1
    have hqf : q ≠ f := fun he => hf (by simp [he])
    have hrest := @ih q fuel hc.2 (fun hm => hf (List.mem_cons_of_mem _ hm)) (by simpa using hlen)
    simp [printOrders, hnext, hqf, hrest, bind, Except.bind]

theorem printLevel_spec (h : Shaped b S pend) (hL : L ∈ S d) (last : ℕ) :
    (better d last L.price → printLevel b L.addr (sideOf d) last = .ok L.price) ∧
      (¬better d last L.price →
        printLevel b L.addr (sideOf d) last = .error (.fatal
          ("Bids/Asks not sorted by ascending/descending prices last:" ++ priceToString last ++
            " itr:" ++ levelText b L.addr))) := by
  have hrep := h.level d L hL
  have hring := hrep.ring
  have hlen := h.length_level_le hL
  cases ho : L.orders with
  | nil => exact (hrep.nonempty ho).elim
  | cons o y =>
    rw [ho, List.map_cons] at hring
    rw [ho, List.length_cons] at hlen
    have hfirst : (b.level L.addr).firstOrder = some o.addr := by
      rw [hrep.firstOrder, ho]
      rfl
    have hfuel : (y.map (·.addr)).length < b.orderPool.size + 1 := by
      rw [List.length_map]
      omega
    have horders := printOrders_spec hring.chain (List.nodup_cons.mp hring.nodup).1 hfuel
    have hmem : L.addr ∈ (S d).map (·.addr) := List.mem_map_of_mem hL
    obtain ⟨p, -, hp⟩ := (h.levels.ring d).prev_mem hmem
    obtain ⟨n, -, hn⟩ := (h.levels.ring d).next_mem hmem
    have hprev : (b.level L.addr).prevEntry = some p := hp
    have hnext : (b.level L.addr).nextEntry = some n := hn
    have hcheck : ((sideOf d = .sell ∧ last ≥ L.price) ∨ (sideOf d = .buy ∧ last ≤ L.price)) ↔
        ¬better d last L.price := by
      cases d <;> simp [sideOf, better]
    constructor
    · intro hb
      simp [printLevel, hfirst, horders, hprev, hnext, hrep.price, hcheck, hb, bind, Except.bind]
    · intro hb
      simp [printLevel, hfirst, horders, hprev, hnext, hrep.price, hcheck, hb, bind, Except.bind]

/-- Induction on the levels still ahead, which are followed by `best`. -/
theorem printSide_spec (h : Shaped b S pend) {best : Ptr} {ls : List (PriceLevel MarketOrderId)}
    {fuel last : ℕ} (hls : ∀ M ∈ L :: ls, M ∈ S d)
    (hc : List.IsChain (Linked b.nextEntry b.prevEntry)
      (L.addr :: ls.map (·.addr) ++ [best])) (hb : best ∉ ls.map (·.addr))
    (hlen : ls.length + 1 < fuel)
    (hsorted : List.IsChain (better d) (last :: L.price :: ls.map (·.price))) :
    printSide b (sideOf d) (some best) fuel (some L.addr) last = .ok () := by
  induction ls generalizing L fuel last with
  | nil =>
    obtain ⟨fuel, rfl⟩ : ∃ n, fuel = n + 2 := ⟨fuel - 2, by omega⟩
    have hnext : (b.level L.addr).nextEntry = some best := (List.isChain_cons_cons.mp hc).1.1
    have hlevel := (printLevel_spec h (hls L (by simp)) last).1
      (List.isChain_cons_cons.mp hsorted).1
    simp [printSide, hnext, hlevel, bind, Except.bind]
  | cons M ls ih =>
    obtain ⟨fuel, rfl⟩ : ∃ n, fuel = n + 1 := ⟨fuel - 1, by omega⟩
    rw [List.map_cons, List.cons_append, List.cons_append, List.isChain_cons_cons] at hc
    rw [List.isChain_cons_cons] at hsorted
    have hnext : (b.level L.addr).nextEntry = some M.addr := hc.1.1
    have hMb : M.addr ≠ best := fun he => hb (by simp [he])
    have hlevel := (printLevel_spec h (hls L (by simp)) last).1 hsorted.1
    have hrest := @ih M fuel L.price (fun N hN => hls N (List.mem_cons_of_mem _ hN)) hc.2
      (fun hm => hb (List.mem_cons_of_mem _ hm)) (by simpa using hlen) hsorted.2
    simp [printSide, hnext, hMb, hlevel, hrest, bind, Except.bind]

theorem printSide_ok (h : Shaped b S pend) (d : Bool) (last : ℕ)
    (hlast : ∀ M ∈ S d, better d last M.price) :
    printSide b (sideOf d) (b.best d) (b.ordersAtPricePool.size + 1) (b.best d) last = .ok () := by
  have hbest := h.levels.best d
  have hring := h.levels.ring d
  have hsorted := h.levels.sorted d
  have hlen := h.length_levels_le d
  cases hS : S d with
  | nil =>
    rw [hS] at hbest
    rw [hbest]
    rfl
  | cons L ls =>
    rw [hS] at hbest hring hsorted hlen hlast
    rw [hbest]
    apply printSide_spec h
    · intro M hM
      rw [hS]
      exact hM
    · exact hring.chain
    · exact (List.nodup_cons.mp hring.nodup).1
    · rw [List.length_cons] at hlen
      omega
    · rw [List.isChain_cons_cons]
      exact ⟨hlast L (by simp), hsorted.isChain⟩

theorem sanityCheck_ok (h : Shaped b S pend) (hasks : ∀ M ∈ S false, M.price ≠ 0) :
    sanityCheck b = .ok () := by
  have hsell := printSide_ok h false 0 fun M hM => Nat.pos_of_ne_zero (hasks M hM)
  have hbuy := printSide_ok h true priceInvalid fun M hM => by
    have hlt := h.levels.priceLt true M hM
    simp only [better, if_true]
    exact lt_trans hlt (by decide)
  have hs : printSide b .sell b.asksByPrice (b.ordersAtPricePool.size + 1) b.asksByPrice 0 =
    .ok () := hsell
  have hb : printSide b .buy b.bidsByPrice (b.ordersAtPricePool.size + 1) b.bidsByPrice
    priceInvalid = .ok () := hbuy
  simp only [sanityCheck, hs, hb, bind, Except.bind]

/-- An ask level of price zero looks like one out of order. -/
theorem sanityCheck_zero (h : Shaped b S pend) (hask : ∃ M ∈ S false, M.price = 0) :
    ∃ msg, sanityCheck b = .error (.fatal msg) := by
  obtain ⟨M, hM, hzero⟩ := hask
  have hsorted := h.levels.sorted false
  have hbest := h.levels.best false
  cases hS : S false with
  | nil => simp [hS] at hM
  | cons L ls =>
    rw [hS] at hM hsorted hbest
    have hL : L.price = 0 := by
      rcases List.mem_cons.mp hM with rfl | hM
      · exact hzero
      · rw [List.map_cons, List.pairwise_cons] at hsorted
        have hlt := hsorted.1 M.price (List.mem_map_of_mem hM)
        simp only [better, Bool.false_eq_true, if_false] at hlt
        omega
    obtain ⟨msg, hsell⟩ : ∃ msg, printLevel b L.addr .sell 0 = .error (.fatal msg) := by
      refine ⟨_, (printLevel_spec h (show L ∈ S false by simp [hS]) 0).2 ?_⟩
      rw [hL]
      exact better_irrefl false 0
    have hasks : b.asksByPrice = some L.addr := hbest
    refine ⟨msg, ?_⟩
    simp only [sanityCheck, hasks, printSide, hsell, bind, Except.bind]

end Walks

section Clear
variable {b : LevelBook MarketOrderId ℕ}

theorem clear_eq (b : LevelBook MarketOrderId ℕ) : b.clear =
    (clearOrders b meMaxOrderIds).bind fun orders =>
      (clearLevels b.bidsByPrice b.ordersAtPricePool).bind fun levels =>
        (clearLevels b.asksByPrice levels).bind fun levels => .ok { b with
          idToOrder := fun id => if id < meMaxOrderIds then none else b.idToOrder id
          orderPool := orders, ordersAtPricePool := levels, bidsByPrice := none
          asksByPrice := none } := rfl

theorem clearOrders_empty (h : ∀ id, b.idToOrder id = none) (n : ℕ) :
    clearOrders b n = .ok b.orderPool := by
  induction n with
  | zero => rfl
  | succ n ih => simp [clearOrders, ih, h, bind, Except.bind, pure, Except.pure]

theorem clear_empty (hids : ∀ id, b.idToOrder id = none) (hbids : b.bidsByPrice = none)
    (hasks : b.asksByPrice = none) : b.clear = .ok b := by
  have hsame : (fun id => if id < meMaxOrderIds then none else b.idToOrder id) = b.idToOrder := by
    funext id
    rw [hids, ite_self]
  rw [clear_eq, clearOrders_empty hids, hsame, hbids, hasks]
  obtain ⟨ids, levels, bids, asks, table, orders⟩ := b
  subst hbids hasks
  rfl

end Clear

end HighPerformance.LevelBook
