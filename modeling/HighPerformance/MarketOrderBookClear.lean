import HighPerformance.MarketOrderBookRefinement

/-!
# What `CLEAR` does to a book in order

All order blocks and all blocks of levels are given back, and both sides are
empty afterwards. The objects stay in the blocks, and the table of the levels
keeps its entries.
-/

namespace HighPerformance.MarketOrderBook
open LevelBook CircularList FallibleRun LiveOrder

/-- Nothing is in use. The table of the levels may still have entries. -/
structure Blank (b : LevelBook MarketOrderId ℕ) : Prop where
  ids : ∀ id, b.idToOrder id = none
  best : ∀ d, b.best d = none
  orderPool : b.orderPool.Holds []
  orderSize : b.orderPool.size = meMaxOrderIds
  levelPool : b.ordersAtPricePool.Holds []
  levelSize : b.ordersAtPricePool.size = meMaxPriceLevels

theorem mem_iff_of_notMem {a j : Ptr} {l : List Ptr} (ha : a ∉ l) : j ∈ l ↔ j ∈ a :: l ∧ j ≠ a := by
  constructor
  · intro hj
    exact ⟨List.mem_cons_of_mem _ hj, ne_of_mem_of_not_mem hj ha⟩
  · rintro ⟨hj, hne⟩
    exact (List.mem_cons.mp hj).resolve_left hne

section Clear
variable {b : LevelBook MarketOrderId ℕ} {S : Shape MarketOrderId} {live : List LiveOrder}

/-- Induction on the number of entries that have been visited. The blocks still
in use are those of the entries ahead. -/
theorem clearOrders_spec (h : Tracks b S live) (n : ℕ) :
    ∃ pool, clearOrders b n = .ok pool ∧ pool.size = b.orderPool.size ∧
      pool.Holds ((S.orders.filter fun o => n ≤ o.ident.orderId).map (·.addr)) := by
  induction n with
  | zero =>
    refine ⟨b.orderPool, rfl, rfl, ?_⟩
    have hpool := h.shaped.pool
    simpa using hpool
  | succ n ih =>
    obtain ⟨pool, hok, hsize, hholds⟩ := ih
    have hmem : ∀ k p, p ∈ (S.orders.filter fun o => k ≤ o.ident.orderId).map (·.addr) ↔
        ∃ o ∈ S.orders, k ≤ o.ident.orderId ∧ o.addr = p := by
      intro k p
      simp only [List.mem_map, List.mem_filter, decide_eq_true_eq, and_assoc]
    cases hid : b.idToOrder n with
    | none =>
      have hnone : ∀ o ∈ S.orders, o.ident.orderId ≠ n := by
        intro o ho he
        have hsome := (h.indexed n o.addr).mpr ⟨o, ho, rfl, he⟩
        rw [hid] at hsome
        cases hsome
      refine ⟨pool, ?_, hsize, hholds.congr fun p => ?_⟩
      · simp only [clearOrders, hok, hid, bind, Except.bind]
        rfl
      · rw [hmem, hmem]
        constructor
        · rintro ⟨o, ho, hle, he⟩
          exact ⟨o, ho, by omega, he⟩
        · rintro ⟨o, ho, hle, he⟩
          have hne := hnone o ho
          exact ⟨o, ho, by omega, he⟩
    | some p =>
      obtain ⟨o, ho, rfl, hkey⟩ := (h.indexed n p).mp hid
      have hkey : o.ident.orderId = n := hkey
      have hin : o.addr ∈ (S.orders.filter fun o => n ≤ o.ident.orderId).map (·.addr) :=
        (hmem n o.addr).mpr ⟨o, ho, by omega, rfl⟩
      have hgone : ∀ p, p ∈ (S.orders.filter fun o => n + 1 ≤ o.ident.orderId).map (·.addr) ↔
          p ∈ (S.orders.filter fun o => n ≤ o.ident.orderId).map (·.addr) ∧ p ≠ o.addr := by
        intro p
        rw [hmem, hmem]
        constructor
        · rintro ⟨z, hz, hle, rfl⟩
          refine ⟨⟨z, hz, by omega, rfl⟩, fun he => ?_⟩
          rw [h.shaped.orders_addr_inj hz ho he] at hle
          omega
        · rintro ⟨⟨z, hz, hle, rfl⟩, hne⟩
          refine ⟨z, hz, ?_, rfl⟩
          have hzn : z.ident.orderId ≠ n := by
            intro he
            rw [h.ident_inj hz ho (he.trans hkey.symm)] at hne
            exact hne rfl
          omega
      obtain ⟨q, hq, hqh, hqs, -⟩ := hholds.deallocate_spec hin hgone
      refine ⟨q, ?_, hqs.trans hsize, hqh⟩
      simp only [clearOrders, hok, hid, bind, Except.bind]
      exact hq

/-- Induction on the levels ahead. The blocks given back so far are still read. -/
theorem clearBehind_spec {best : Ptr} {v rest : List Ptr} {fuel : ℕ} {pool : MemPool OrdersAtPrice}
    (hc : List.IsChain (Linked b.nextEntry b.prevEntry) (v ++ [best])) (hbest : best ∉ v)
    (hnodup : (v ++ rest).Nodup) (hlen : v.length < fuel) (hholds : pool.Holds (v ++ rest))
    (hget : ∀ l, pool.get l = b.level l) (l : Option Ptr) (hl : l = (v ++ [best]).head?) :
    ∃ pool', clearBehind best fuel l pool = .ok pool' ∧ pool'.size = pool.size ∧
      pool'.Holds rest ∧ ∀ l, pool'.get l = b.level l := by
  induction v generalizing fuel pool l with
  | nil =>
    obtain ⟨fuel, rfl⟩ := Nat.exists_eq_succ_of_ne_zero (Nat.ne_of_gt hlen)
    refine ⟨pool, ?_, rfl, hholds, hget⟩
    simp [clearBehind, hl]
  | cons a v ih =>
    obtain ⟨fuel, rfl⟩ := Nat.exists_eq_succ_of_ne_zero (Nat.ne_of_gt (Nat.zero_lt_of_lt hlen))
    have hne : a ≠ best := fun he => hbest (by simp [he])
    rw [List.cons_append, List.nodup_cons] at hnodup
    rw [List.cons_append] at hholds
    obtain ⟨q, hq, hqh, hqs, hqget⟩ :=
      hholds.deallocate_spec List.mem_cons_self fun _ => mem_iff_of_notMem hnodup.1
    obtain ⟨c, hcq⟩ : ∃ c, (v ++ [best]).head? = some c := by cases v <;> simp
    have hnext : (q.get a).nextEntry = (v ++ [best]).head? := by
      rw [hqget, hget, hcq]
      exact (hc.rel_head? hcq).1
    obtain ⟨pool', hok, hsize, hrest⟩ := ih hc.tail (fun hm => hbest (List.mem_cons_of_mem _ hm))
      hnodup.2 (by simpa using hlen) hqh (fun l => (hqget l).trans (hget l)) _ hnext
    refine ⟨pool', ?_, hsize.trans hqs, hrest⟩
    subst hl
    simp only [List.cons_append, List.head?_cons, clearBehind, Option.some.injEq, hne, if_false,
      deref_some, bind, Except.bind, hq]
    exact hok

theorem clearLevels_spec {vs rest : List Ptr} {pool : MemPool OrdersAtPrice}
    (hring : Ring b.nextEntry b.prevEntry vs) (hnodup : (vs ++ rest).Nodup)
    (hlen : vs.length ≤ pool.size) (hholds : pool.Holds (vs ++ rest))
    (hget : ∀ l, pool.get l = b.level l) :
    ∃ pool', clearLevels vs.head? pool = .ok pool' ∧ pool'.size = pool.size ∧
      pool'.Holds rest ∧ ∀ l, pool'.get l = b.level l := by
  cases vs with
  | nil => exact ⟨pool, rfl, rfl, hholds, hget⟩
  | cons a v =>
    have hperm : (v ++ a :: rest).Perm (a :: v ++ rest) := List.perm_middle
    obtain ⟨c, hcq⟩ : ∃ c, (v ++ [a]).head? = some c := by cases v <;> simp
    have hnext : (pool.get a).nextEntry = (v ++ [a]).head? := by
      rw [hget, hcq]
      exact (hring.chain.rel_head? hcq).1
    have hfuel : v.length < pool.size + 1 := by
      rw [List.length_cons] at hlen
      omega
    obtain ⟨p, hp, hps, hph, hpget⟩ := clearBehind_spec hring.chain.tail
      (List.nodup_cons.mp hring.nodup).1 (hperm.nodup_iff.mpr hnodup) hfuel
      (hholds.congr fun i => hperm.mem_iff) hget _ hnext
    have hrest : a ∉ rest := by
      rw [List.cons_append, List.nodup_cons] at hnodup
      exact fun hm => hnodup.1 (List.mem_append_right _ hm)
    obtain ⟨q, hq, hqh, hqs, hqget⟩ :=
      hph.deallocate_spec List.mem_cons_self fun _ => mem_iff_of_notMem hrest
    refine ⟨q, ?_, hqs.trans hps, hqh, fun l => (hqget l).trans (hpget l)⟩
    simp only [List.head?_cons, clearLevels, hp, bind, Except.bind]
    exact hq

theorem Tracks.orderId_lt (h : Tracks b S live) {o : Resting MarketOrderId} (ho : o ∈ S.orders) :
    o.ident.orderId < meMaxOrderIds := by
  obtain ⟨d, r, ho⟩ := Shape.mem_orders_iff_contents.mp ho
  exact h.ids _ (h.mem_live ho).1

theorem Tracks.blank (h : Tracks b S live) {orders : MemPool MarketOrder}
    {levels : MemPool OrdersAtPrice} (hos : orders.size = b.orderPool.size)
    (hoh : orders.Holds ((S.orders.filter fun o => meMaxOrderIds ≤ o.ident.orderId).map (·.addr)))
    (hls : levels.size = b.ordersAtPricePool.size) (hlh : levels.Holds []) :
    Blank { b with
      idToOrder := fun id => if id < meMaxOrderIds then none else b.idToOrder id
      orderPool := orders, ordersAtPricePool := levels, bidsByPrice := none
      asksByPrice := none } := by
  constructor
  · intro id
    by_cases hid : id < meMaxOrderIds
    · exact if_pos hid
    · cases hsome : b.idToOrder id with
      | none => simp [hsome]
      | some p =>
        obtain ⟨o, ho, -, hkey⟩ := (h.indexed id p).mp hsome
        exact (hid (hkey ▸ h.orderId_lt ho)).elim
  · intro d
    cases d <;> rfl
  · apply hoh.congr
    intro p
    simp only [List.not_mem_nil, List.mem_map, List.mem_filter, decide_eq_true_eq, false_iff]
    rintro ⟨o, ⟨ho, hle⟩, -⟩
    have hlt := h.orderId_lt ho
    omega
  · exact hos.trans h.shaped.poolSize
  · exact hlh
  · exact hls.trans h.shaped.levels.poolSize

theorem Tracks.levels_split (h : Tracks b S live) {v w : List Ptr} (hv : v = (S true).map (·.addr))
    (hw : w = (S false).map (·.addr)) :
    (v ++ (w ++ [])).Nodup ∧ b.ordersAtPricePool.Holds (v ++ (w ++ [])) := by
  subst hv hw
  have hsplit : S.levels.map (·.addr) = (S true).map (·.addr) ++ ((S false).map (·.addr) ++ []) := by
    rw [Shape.levels, List.map_append, List.append_nil]
  rw [← hsplit]
  exact ⟨h.shaped.levels.nodup, h.shaped.levels.pool⟩

theorem clear_returns (h : Tracks b S live) : ∃ b', b.clear = .ok b' ∧ Blank b' ∧
    b'.priceOrdersAtPrices = b.priceOrdersAtPrices := by
  obtain ⟨hnodup, hholds⟩ := h.levels_split rfl rfl
  have hlen : ∀ d, ((S d).map (·.addr)).length ≤ b.ordersAtPricePool.size := by
    intro d
    rw [List.length_map]
    exact h.shaped.length_levels_le d
  obtain ⟨orders, ho, hos, hoh⟩ := clearOrders_spec h meMaxOrderIds
  obtain ⟨p, hp, hps, hph, hpget⟩ := clearLevels_spec (h.shaped.levels.ring true) hnodup (hlen true)
    hholds fun _ => rfl
  obtain ⟨q, hq, hqs, hqh, -⟩ := clearLevels_spec (h.shaped.levels.ring false)
    (List.nodup_append.mp hnodup).2.1 (hps ▸ hlen false) hph hpget
  have hbids : b.bidsByPrice = ((S true).map (·.addr)).head? := h.shaped.levels.best true
  have hasks : b.asksByPrice = ((S false).map (·.addr)).head? := h.shaped.levels.best false
  have hok := clear_eq b
  rw [ho, hbids, hasks, hp] at hok
  simp only [Except.bind, hq] at hok
  exact ⟨_, hok, h.blank hos hoh (hqs.trans hps) hqh, rfl⟩

theorem Blank.clear_eq (h : Blank b) : b.clear = .ok b :=
  clear_empty h.ids (h.best true) (h.best false)

/-- Without entries in the table of the levels the book is as constructed, up
to what its blocks contain. -/
theorem Blank.tracks (h : Blank b) (ht : ∀ i, b.priceOrdersAtPrices i = none) :
    Tracks b (fun _ => []) [] := by
  have hshaped : Shaped b (fun _ => []) [] := by
    constructor
    · constructor
      · exact h.best
      · exact fun _ => trivial
      · exact fun _ => List.Pairwise.nil
      · intro d L hL
        simp at hL
      · rw [Shape.levels_nil]
        exact List.nodup_nil
      · intro i l
        simp [ht]
      · exact h.levelPool
      · exact h.levelSize
    · intro d L hL
      simp at hL
    · rw [Shape.orders_nil]
      exact List.nodup_nil
    · exact h.orderPool
    · exact h.orderSize
  constructor
  · exact hshaped
  · intro id p
    rw [Shape.orders_nil]
    simp [h.ids]
  · exact fun _ _ => rfl
  · intro o ho
    simp at ho
  · intro o ho
    simp at ho

end Clear

end HighPerformance.MarketOrderBook
