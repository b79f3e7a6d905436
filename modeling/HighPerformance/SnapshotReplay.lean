import HighPerformance.MarketOrderBookRefinement
import HighPerformance.SnapshotSynthesizer

/-!
# A snapshot replays the history

The same stream of updates reaches the synthesizer, which keeps a table by order
id, and the client's books, which keep rings by price. Both are compared with
the list of live orders of a ticker in order of arrival. For ids that increase,
the table lists the orders in that order, so the books that a snapshot builds
are those that the stream has built.

`CLEAR` empties a book and is ignored by the synthesizer, and an order to sell
for nothing ends the client. `KeepsBooks` excludes both.
-/

namespace HighPerformance
open FallibleRun

/-- `TradeEngine::run`: an update goes to the book of its ticker. -/
def applyToBooks (books : ℕ → MarketOrderBook) (u : MEMarketUpdate) :
    Except Fault (ℕ → MarketOrderBook) := do
  assert (decide (u.tickerId < meMaxTickers)) ("Unknown ticker-id on update:" ++ u.toString)
  let m ← (books u.tickerId).onMarketUpdate u
  return Function.update books u.tickerId m

def freshBooks : ℕ → MarketOrderBook := MarketOrderBook.init

/-- The messages of a snapshot without its frame. -/
def contentOf (ms : List MDPMarketUpdate) : List MEMarketUpdate :=
  (ms.map (·.meMarketUpdate)).filter fun u => u.type ≠ .snapshotStart ∧ u.type ≠ .snapshotEnd

section Books
variable {books : ℕ → MarketOrderBook} {us : List MEMarketUpdate}

theorem run_applyToBooks (hus : ∀ u ∈ us, u.tickerId < meMaxTickers)
    (hrun : ∀ t, ∃ m, run MarketOrderBook.onMarketUpdate (books t)
      (us.filter fun u => u.tickerId = t) = .ok m) :
    ∃ books', run applyToBooks books us = .ok books' ∧
      ∀ t, run MarketOrderBook.onMarketUpdate (books t) (us.filter fun u => u.tickerId = t) =
        .ok (books' t) := by
  induction us generalizing books with
  | nil => exact ⟨books, rfl, fun _ => rfl⟩
  | cons u us ih =>
    obtain ⟨m, hm⟩ := hrun u.tickerId
    rw [List.filter_cons_of_pos (by simp)] at hm
    obtain ⟨m₁, hok, hrest⟩ := run_cons_eq_ok.mp hm
    have hstep : applyToBooks books u = .ok (Function.update books u.tickerId m₁) := by
      simp [applyToBooks, hus u (by simp), hok, bind, Except.bind, pure, Except.pure]
    have hnext : ∀ t m', run MarketOrderBook.onMarketUpdate (books t)
        ((u :: us).filter fun u => u.tickerId = t) = .ok m' ↔
      run MarketOrderBook.onMarketUpdate (Function.update books u.tickerId m₁ t)
        (us.filter fun u => u.tickerId = t) = .ok m' := by
      intro t m'
      by_cases ht : u.tickerId = t
      · subst ht
        rw [List.filter_cons_of_pos (by simp), run_cons_ok hok, Function.update_self]
      · rw [List.filter_cons_of_neg (by simpa using ht), Function.update_of_ne (Ne.symm ht)]
    obtain ⟨books', hbooks, hall⟩ := @ih (Function.update books u.tickerId m₁)
      (fun v hv => hus v (List.mem_cons_of_mem _ hv)) fun t => by
        obtain ⟨m', hm'⟩ := hrun t
        exact ⟨m', (hnext t m').mp hm'⟩
    refine ⟨books', (run_cons_ok hstep).trans hbooks, fun t => ?_⟩
    rw [hnext]
    exact hall t

end Books

namespace LiveOrder

/-- The live order that an `ADD` makes. -/
def liveOf (u : MEMarketUpdate) : LiveOrder := ⟨u.orderId, u.side, u.price, u.qty, u.priority⟩

/-- What a book of live orders satisfies between updates. -/
structure Sound (live : List LiveOrder) : Prop where
  sides : ∀ o ∈ live, o.side = .buy ∨ o.side = .sell
  prices : ∀ o ∈ live, o.price < meMaxPriceLevels
  apart : ∀ o ∈ live, ∀ z ∈ live, o.price = z.price → o.side = z.side
  ids : ∀ o ∈ live, o.orderId < meMaxOrderIds
  length : live.length < meMaxOrderIds
  levels : (live.map (·.price)).dedup.length < meMaxPriceLevels

section Sound
variable {live live' : List LiveOrder} {u : MEMarketUpdate}

theorem dedup_length_le {xs ys : List ℕ} (h : xs ⊆ ys) : xs.dedup.length ≤ ys.dedup.length := by
  apply List.Subperm.length_le
  apply (List.nodup_dedup xs).subperm
  intro x hx
  rw [List.mem_dedup] at hx ⊢
  exact h hx

theorem sound_nil : Sound [] := by
  constructor
  all_goals simp [meMaxOrderIds, meMaxPriceLevels]

theorem Sound.of_same (h : Sound live) (hlen : live'.length ≤ live.length)
    (hsame : ∀ o' ∈ live', ∃ o ∈ live,
      o'.side = o.side ∧ o'.price = o.price ∧ o'.orderId = o.orderId) : Sound live' := by
  constructor
  · intro o' ho'
    obtain ⟨o, ho, hs, -, -⟩ := hsame o' ho'
    rw [hs]
    exact h.sides o ho
  · intro o' ho'
    obtain ⟨o, ho, -, hp, -⟩ := hsame o' ho'
    rw [hp]
    exact h.prices o ho
  · intro o' ho' z' hz' he
    obtain ⟨o, ho, hos, hop, -⟩ := hsame o' ho'
    obtain ⟨z, hz, hzs, hzp, -⟩ := hsame z' hz'
    rw [hos, hzs]
    apply h.apart o ho z hz
    rw [← hop, ← hzp, he]
  · intro o' ho'
    obtain ⟨o, ho, -, -, hid⟩ := hsame o' ho'
    rw [hid]
    exact h.ids o ho
  · exact lt_of_le_of_lt hlen h.length
  · refine lt_of_le_of_lt (dedup_length_le ?_) h.levels
    intro p hp
    obtain ⟨o', ho', rfl⟩ := List.mem_map.mp hp
    obtain ⟨o, ho, -, hop, -⟩ := hsame o' ho'
    rw [hop]
    exact List.mem_map_of_mem ho

theorem Sound.next (h : Sound live) (hu : Permitted live u) : Sound (apply live u) := by
  unfold LiveOrder.apply
  split
  · next ht =>
    simp only [Permitted, ht] at hu
    obtain ⟨hid, -, hside, hp, hother, hlen, hlevels⟩ := hu
    have hmem : ∀ o ∈ live ++ [⟨u.orderId, u.side, u.price, u.qty, u.priority⟩],
        o ∈ live ∨ o.side = u.side ∧ o.price = u.price ∧ o.orderId = u.orderId := by
      intro o ho
      rcases List.mem_append.mp ho with ho | ho
      · exact .inl ho
      · rw [List.mem_singleton.mp ho]
        exact .inr ⟨rfl, rfl, rfl⟩
    constructor
    · intro o ho
      rcases hmem o ho with ho | ⟨hs, -, -⟩
      · exact h.sides o ho
      · rw [hs]
        exact hside
    · intro o ho
      rcases hmem o ho with ho | ⟨-, hop, -⟩
      · exact h.prices o ho
      · rw [hop]
        exact hp
    · intro o ho z hz hoz
      rcases hmem o ho with ho | ⟨hos, hop, -⟩
      · rcases hmem z hz with hz | ⟨hzs, hzp, -⟩
        · exact h.apart o ho z hz hoz
        · rw [hzs]
          exact hother o ho (hoz.trans hzp)
      · rcases hmem z hz with hz | ⟨hzs, -, -⟩
        · rw [hos]
          exact (hother z hz (hoz.symm.trans hop)).symm
        · rw [hos, hzs]
    · intro o ho
      rcases hmem o ho with ho | ⟨-, -, hoid⟩
      · exact h.ids o ho
      · rw [hoid]
        exact hid
    · rw [List.length_append]
      exact hlen
    · refine lt_of_le_of_lt (dedup_length_le ?_) hlevels
      rw [List.map_append]
      intro p hp
      rcases List.mem_append.mp hp with hp | hp
      · exact List.mem_cons_of_mem _ hp
      · rw [List.mem_singleton.mp hp]
        exact List.mem_cons_self
  · apply h.of_same (List.length_map _).le
    intro o' ho'
    obtain ⟨o, ho, rfl⟩ := List.mem_map.mp ho'
    refine ⟨o, ho, ?_⟩
    split <;> exact ⟨rfl, rfl, rfl⟩
  · apply h.of_same (List.length_filter_le _ _)
    intro o ho
    exact ⟨o, List.mem_of_mem_filter ho, rfl, rfl, rfl⟩
  · exact sound_nil
  · exact h

/-- The orders of a sound book can be added one by one in a fresh one. -/
theorem Sound.along_adds (h : Sound live) (hinc : live.Pairwise fun o z => o.orderId < z.orderId)
    {us : List MEMarketUpdate} (hadd : ∀ u ∈ us, u.type = .add) (hus : us.map liveOf = live) :
    Along apply Permitted [] us ∧ us.foldl apply [] = live := by
  suffices hgen : ∀ done rest, done ++ rest = us →
      Along apply Permitted (done.map liveOf) rest ∧ rest.foldl apply (done.map liveOf) = live from
    hgen [] us rfl
  intro done rest
  induction rest generalizing done with
  | nil =>
    intro hd
    rw [List.append_nil] at hd
    rw [hd]
    exact ⟨trivial, hus⟩
  | cons u rest ih =>
    intro hd
    have hlive : done.map liveOf ++ liveOf u :: rest.map liveOf = live := by
      rw [← hus, ← hd, List.map_append, List.map_cons]
    have hu : liveOf u ∈ live := by
      rw [← hlive]
      simp
    have hdone : ∀ o ∈ done.map liveOf, o ∈ live := by
      intro o ho
      rw [← hlive]
      exact List.mem_append_left _ ho
    have ht : u.type = .add := hadd u (by simp [← hd])
    have hnext : LiveOrder.apply (done.map liveOf) u = (done ++ [u]).map liveOf := by
      simp only [LiveOrder.apply, ht, List.map_append, List.map_cons, List.map_nil, liveOf]
    have hrest := ih (done ++ [u]) (by simpa using hd)
    rw [← hnext] at hrest
    refine ⟨⟨?_, hrest.1⟩, hrest.2⟩
    simp only [Permitted, ht]
    refine ⟨h.ids _ hu, ?_, h.sides _ hu, h.prices _ hu, ?_, ?_, ?_⟩
    · intro o ho
      rw [← hlive, List.pairwise_append] at hinc
      exact (hinc.2.2 o ho (liveOf u) List.mem_cons_self).ne
    · intro o ho he
      exact h.apart o (hdone o ho) _ hu he
    · have hlen := h.length
      rw [← hlive, List.length_append, List.length_cons] at hlen
      omega
    · refine lt_of_le_of_lt (dedup_length_le ?_) h.levels
      intro p hp
      rcases List.mem_cons.mp hp with rfl | hp
      · exact List.mem_map_of_mem hu
      · obtain ⟨o, ho, rfl⟩ := List.mem_map.mp hp
        exact List.mem_map_of_mem (hdone o ho)

end Sound

end LiveOrder

namespace SnapshotSynthesizer
open LiveOrder

/-- The orders of one ticker in order of arrival. -/
def ofTicker (t : ℕ) (held : List MEMarketUpdate) : List LiveOrder :=
  (held.filter fun o => o.tickerId = t).map liveOf

/-- What a stream for the clients observes, besides what the synthesizer checks. -/
def InDomain (held : List MEMarketUpdate) (u : MEMarketUpdate) : Prop :=
  match u.type with
  | .add => (u.side = .buy ∨ u.side = .sell) ∧ u.price < meMaxPriceLevels ∧
      (∀ o ∈ ofTicker u.tickerId held, o.price = u.price → o.side = u.side) ∧
      (ofTicker u.tickerId held).length + 1 < meMaxOrderIds ∧
      (u.price :: (ofTicker u.tickerId held).map (·.price)).dedup.length < meMaxPriceLevels
  | .modify => ∀ o ∈ held, Names u o → o.price = u.price
  | _ => True

/-- No order to sell for nothing, and no `CLEAR` of a ticker with live orders. -/
def KeepsBooks (held : List MEMarketUpdate) (u : MEMarketUpdate) : Prop :=
  match u.type with
  | .add => u.side = .sell → u.price ≠ 0
  | .clear => ofTicker u.tickerId held = []
  | _ => True

section Tickers
variable {held us : List MEMarketUpdate} {u : MEMarketUpdate} {t : ℕ}

theorem mem_ofTicker {o : LiveOrder} :
    o ∈ ofTicker t held ↔ ∃ v ∈ held, v.tickerId = t ∧ liveOf v = o := by
  simp only [ofTicker, List.mem_map, List.mem_filter, decide_eq_true_eq, and_assoc]

theorem ofTicker_keep_ne (h : u.tickerId ≠ t) : ofTicker t (keep held u) = ofTicker t held := by
  unfold keep
  split
  · simp [ofTicker, List.filter_append, h]
  · unfold ofTicker
    rw [List.filter_map, List.map_map]
    have hpred : ((fun o : MEMarketUpdate => decide (o.tickerId = t)) ∘ fun o =>
        if Names u o then { o with qty := u.qty, price := u.price } else o) =
        fun o => decide (o.tickerId = t) := by
      funext o
      simp only [Function.comp_apply]
      split <;> rfl
    rw [hpred]
    apply List.map_congr_left
    intro o ho
    have hot : o.tickerId = t := of_decide_eq_true (List.mem_filter.mp ho).2
    have hno : ¬Names u o := fun hn => h (hn.1.symm.trans hot)
    simp [hno]
  · unfold ofTicker
    rw [List.filter_filter]
    congr 1
    apply List.filter_congr
    intro o _
    by_cases hot : o.tickerId = t
    · have hno : ¬Names u o := fun hn => h (hn.1.symm.trans hot)
      simp [hot, hno]
    · simp [hot]
  · rfl

/-- For its own ticker an update of the table is an update of the live orders. -/
theorem ofTicker_keep_self (hd : InDomain held u) (hk : KeepsBooks held u) :
    ofTicker u.tickerId (keep held u) = apply (ofTicker u.tickerId held) u := by
  cases ht : u.type with
  | add =>
    simp only [keep, apply, ht, ofTicker, List.filter_append, List.map_append]
    simp [liveOf]
  | modify =>
    simp only [InDomain, ht] at hd
    simp only [keep, apply, ht, ofTicker]
    rw [List.filter_map, List.map_map, List.map_map]
    have hpred : ((fun o : MEMarketUpdate => decide (o.tickerId = u.tickerId)) ∘ fun o =>
        if Names u o then { o with qty := u.qty, price := u.price } else o) =
        fun o => decide (o.tickerId = u.tickerId) := by
      funext o
      simp only [Function.comp_apply]
      split <;> rfl
    rw [hpred]
    apply List.map_congr_left
    intro o ho
    obtain ⟨hoh, hot⟩ := List.mem_filter.mp ho
    have hot : o.tickerId = u.tickerId := of_decide_eq_true hot
    by_cases hid : o.orderId = u.orderId
    · have hprice := hd o hoh ⟨hot, hid⟩
      simp [Names, hot, hid, liveOf, hprice]
    · simp [Names, hid, liveOf]
  | cancel =>
    simp only [keep, apply, ht, ofTicker]
    rw [List.filter_filter, List.filter_map, List.filter_filter]
    congr 1
    apply List.filter_congr
    intro o _
    by_cases hot : o.tickerId = u.tickerId
    · by_cases hid : o.orderId = u.orderId
      · simp [Names, hot, liveOf, hid]
      · simp [Names, hot, liveOf, hid]
    · simp [hot]
  | clear =>
    simp only [KeepsBooks, ht] at hk
    simp only [keep, apply, ht, hk]
  | invalid | trade | snapshotStart | snapshotEnd | unnamed _ =>
    simp only [keep, apply, ht]

theorem permitted_of_accepts (ha : Accepts held u) (hd : InDomain held u) (hk : KeepsBooks held u) :
    Permitted (ofTicker u.tickerId held) u := by
  obtain ⟨-, ha⟩ := ha
  cases ht : u.type with
  | add =>
    simp only [ht] at ha
    simp only [InDomain, ht] at hd
    simp only [Permitted, ht]
    refine ⟨ha.1, ?_, hd⟩
    intro o ho hid
    obtain ⟨v, hv, hvt, rfl⟩ := mem_ofTicker.mp ho
    exact ha.2 v hv ⟨hvt, hid⟩
  | modify =>
    simp only [ht] at ha
    obtain ⟨o, ho, hn, -⟩ := ha
    simp only [Permitted, ht]
    exact ⟨liveOf o, mem_ofTicker.mpr ⟨o, ho, hn.1, rfl⟩, hn.2⟩
  | cancel =>
    simp only [ht] at ha
    obtain ⟨o, ho, hn, -⟩ := ha
    simp only [Permitted, ht]
    exact ⟨liveOf o, mem_ofTicker.mpr ⟨o, ho, hn.1, rfl⟩, hn.2⟩
  | clear =>
    simp only [KeepsBooks, ht] at hk
    simp only [Permitted, ht]
    exact hk
  | invalid | trade | snapshotStart | snapshotEnd | unnamed _ => simp only [Permitted, ht]

theorem along_ofTicker
    (h : Along keep (fun held u => Accepts held u ∧ InDomain held u ∧ KeepsBooks held u) held us) :
    Along apply Permitted (ofTicker t held) (us.filter fun u => u.tickerId = t) ∧
      ofTicker t (us.foldl keep held) =
        (us.filter fun u => u.tickerId = t).foldl apply (ofTicker t held) := by
  induction us generalizing held with
  | nil => exact ⟨trivial, rfl⟩
  | cons u us ih =>
    obtain ⟨⟨ha, hd, hk⟩, hrest⟩ := h
    have ih := ih hrest
    by_cases ht : u.tickerId = t
    · subst ht
      rw [ofTicker_keep_self hd hk] at ih
      rw [List.filter_cons_of_pos (by simp)]
      exact ⟨⟨permitted_of_accepts ha hd hk, ih.1⟩, ih.2⟩
    · rw [ofTicker_keep_ne ht] at ih
      rw [List.filter_cons_of_neg (by simpa using ht)]
      exact ih

theorem keep_sublist (held us : List MEMarketUpdate) :
    ((us.foldl keep held).map fun o => (o.tickerId, o.orderId)).Sublist
      ((held ++ us.filter fun u => u.type = .add).map fun o => (o.tickerId, o.orderId)) := by
  induction us generalizing held with
  | nil => simp
  | cons u us ih =>
    refine (ih (keep held u)).trans ?_
    cases ht : u.type with
    | add =>
      simp only [keep, ht, List.filter_cons, decide_true, if_true, List.append_assoc]
      exact List.Sublist.refl _
    | modify =>
      have hsame : (held.map fun o =>
          if Names u o then { o with qty := u.qty, price := u.price } else o).map
            (fun o => (o.tickerId, o.orderId)) = held.map fun o => (o.tickerId, o.orderId) := by
        rw [List.map_map]
        apply List.map_congr_left
        intro o _
        simp only [Function.comp_apply]
        split <;> rfl
      simp only [keep, ht, List.filter_cons, reduceCtorEq, decide_false, Bool.false_eq_true,
        if_false, List.map_append, hsame]
      exact List.Sublist.refl _
    | cancel =>
      simp only [keep, ht, List.filter_cons, reduceCtorEq, decide_false, Bool.false_eq_true,
        if_false]
      exact (List.filter_sublist.append_right _).map _
    | invalid | clear | trade | snapshotStart | snapshotEnd | unnamed _ =>
      simp only [keep, ht, List.filter_cons, reduceCtorEq, decide_false, Bool.false_eq_true,
        if_false]
      exact List.Sublist.refl _

theorem ofTicker_increasing (h : (us.filter fun u => u.type = .add).Pairwise fun u v =>
      u.tickerId = v.tickerId → u.orderId < v.orderId) (t : ℕ) :
    ((us.foldl keep []).filter fun o => o.tickerId = t).Pairwise fun u v =>
      u.orderId < v.orderId := by
  have hpairs : ((us.filter fun u => u.type = .add).map fun o =>
      (o.tickerId, o.orderId)).Pairwise fun x y => x.1 = y.1 → x.2 < y.2 := by
    rw [List.pairwise_map]
    exact h
  have hheld := List.Pairwise.sublist (keep_sublist [] us) hpairs
  rw [List.pairwise_map] at hheld
  apply (hheld.filter _).imp_of_mem
  intro u v hu hv huv
  have hut : u.tickerId = t := of_decide_eq_true (List.mem_filter.mp hu).2
  have hvt : v.tickerId = t := of_decide_eq_true (List.mem_filter.mp hv).2
  exact huv (hut.trans hvt.symm)

end Tickers

section Publishing
variable {s : SnapshotSynthesizer} {held : List (Ptr × MEMarketUpdate)} {t : ℕ}

theorem Stores.mem_snapshotOrders (h : Stores s held) {u : MEMarketUpdate} :
    u ∈ s.snapshotOrders t ↔ u ∈ held.map Prod.snd ∧ u.tickerId = t := by
  simp only [snapshotOrders, List.mem_filterMap, List.mem_range, Option.map_eq_some_iff]
  constructor
  · rintro ⟨id, -, p, hp, rfl⟩
    obtain ⟨x, hx, rfl, hxt, -⟩ := (h.table t id p).mp hp
    rw [h.data x hx]
    exact ⟨List.mem_map_of_mem hx, hxt⟩
  · rintro ⟨hu, hut⟩
    obtain ⟨x, hx, rfl⟩ := List.mem_map.mp hu
    exact ⟨x.2.orderId, h.ids x hx, x.1, (h.table _ _ _).mpr ⟨x, hx, rfl, hut, rfl⟩, h.data x hx⟩

theorem Stores.snapshotOrders_increasing (h : Stores s held) (t : ℕ) :
    (s.snapshotOrders t).Pairwise fun u v => u.orderId < v.orderId := by
  have hid : ∀ id u, (s.tickerOrders t id).map s.orderPool.get = some u → u.orderId = id := by
    intro id u hu
    obtain ⟨p, hp, rfl⟩ := Option.map_eq_some_iff.mp hu
    obtain ⟨x, hx, rfl, -, hxid⟩ := (h.table t id p).mp hp
    rw [h.data x hx]
    exact hxid
  rw [snapshotOrders, List.pairwise_filterMap]
  apply List.pairwise_lt_range.imp
  intro i j hij u hu v hv
  rw [hid i u hu, hid j v hv]
  exact hij

/-- Orders that arrive with increasing ids are listed in order of arrival. -/
theorem Stores.snapshotOrders_eq (h : Stores s held)
    (hinc : ((held.map Prod.snd).filter fun o => o.tickerId = t).Pairwise fun u v =>
      u.orderId < v.orderId) :
    s.snapshotOrders t = (held.map Prod.snd).filter fun o => o.tickerId = t := by
  have hlt := h.snapshotOrders_increasing t
  have hnodup : ∀ {l : List MEMarketUpdate}, (l.Pairwise fun u v => u.orderId < v.orderId) →
      l.Nodup := fun hl => hl.imp fun huv he => by
    rw [he] at huv
    exact lt_irrefl _ huv
  have hperm : (s.snapshotOrders t).Perm ((held.map Prod.snd).filter fun o => o.tickerId = t) := by
    rw [List.perm_ext_iff_of_nodup (hnodup hlt) (hnodup hinc)]
    intro u
    rw [h.mem_snapshotOrders, List.mem_filter, decide_eq_true_eq]
  apply hperm.eq_of_pairwise _ hlt hinc
  intro u v _ _ huv hvu
  exact (lt_asymm huv hvu).elim

theorem seqNum_numberFrom (n : ℕ) (us : List MEMarketUpdate) (h : n + us.length ≤ 2 ^ 64) :
    (numberFrom n us).map (·.seqNum) = List.range' n us.length := by
  induction us generalizing n with
  | nil => rfl
  | cons u us ih =>
    rw [List.length_cons] at h ⊢
    rw [numberFrom, List.map_cons, List.range'_succ]
    congr 1
    rcases us with _ | ⟨v, us⟩
    · rfl
    · rw [List.length_cons] at h
      rw [Nat.mod_eq_of_lt (by omega)]
      exact ih (n + 1) (by rw [List.length_cons]; omega)

theorem length_snapshotOrders (s : SnapshotSynthesizer) (t : ℕ) :
    (s.snapshotOrders t).length ≤ meMaxOrderIds := by
  apply (List.length_filterMap_le _ _).trans
  rw [List.length_range]

theorem length_flatMap_range {α : Type} (f : ℕ → List α) {k : ℕ} (h : ∀ t, (f t).length ≤ k)
    (n : ℕ) : ((List.range n).flatMap f).length ≤ n * k := by
  induction n with
  | zero => simp
  | succ n ih =>
    have hn := h n
    rw [List.range_succ, List.flatMap_append, List.length_append, List.flatMap_singleton,
      Nat.add_one_mul]
    omega

theorem length_snapshotBody (s : SnapshotSynthesizer) : s.snapshotBody.length ≤ 2 ^ 63 := by
  apply (length_flatMap_range _ (k := meMaxOrderIds + 1) ?_ meMaxTickers).trans (by decide)
  intro t
  rw [List.length_cons]
  exact Nat.add_le_add_right (length_snapshotOrders s t) 1

theorem length_publishSnapshot (s : SnapshotSynthesizer) :
    s.publishSnapshot.length = s.snapshotBody.length + 2 := by
  rw [publishSnapshot, length_numberFrom, List.length_append, List.length_cons,
    List.length_singleton]

theorem range_numberFrom {us : List MEMarketUpdate} (h : us.length ≤ 2 ^ 64) :
    (numberFrom 0 us).map (·.seqNum) = List.range (numberFrom 0 us).length := by
  rw [length_numberFrom, seqNum_numberFrom 0 us (by rwa [Nat.zero_add]), List.range_eq_range']

/-- The messages of a snapshot are numbered from zero, the numbers do not wrap. -/
theorem seqNum_publishSnapshot (s : SnapshotSynthesizer) :
    s.publishSnapshot.map (·.seqNum) = List.range s.publishSnapshot.length := by
  apply range_numberFrom
  have hbody := length_snapshotBody s
  have hlen := length_publishSnapshot s
  rw [publishSnapshot, length_numberFrom] at hlen
  omega

/-- The part of a snapshot for one ticker. -/
theorem filter_snapshotBody (h : Stores s held) (ht : t < meMaxTickers) :
    (s.snapshotBody.filter fun u => u.tickerId = t) =
      { type := .clear, tickerId := t } :: s.snapshotOrders t := by
  have hpart : ∀ t', (({ type := .clear, tickerId := t' } : MEMarketUpdate) ::
      s.snapshotOrders t').filter (fun u => u.tickerId = t) =
      if t' = t then { type := .clear, tickerId := t } :: s.snapshotOrders t else [] := by
    intro t'
    split
    · next he =>
      subst he
      rw [List.filter_eq_self]
      intro u hu
      rcases List.mem_cons.mp hu with rfl | hu
      · simp
      · simpa using (h.mem_snapshotOrders.mp hu).2
    · next hne =>
      rw [List.filter_eq_nil_iff]
      intro u hu
      rcases List.mem_cons.mp hu with rfl | hu
      · simpa using hne
      · rw [(h.mem_snapshotOrders.mp hu).2]
        simpa using hne
  have hrange : ∀ n, (((List.range n).flatMap fun t' =>
      ({ type := .clear, tickerId := t' } : MEMarketUpdate) :: s.snapshotOrders t').filter
        fun u => u.tickerId = t) =
      if t < n then { type := .clear, tickerId := t } :: s.snapshotOrders t else [] := by
    intro n
    induction n with
    | zero => simp
    | succ n ih =>
      rw [List.range_succ, List.flatMap_append, List.filter_append, ih, List.flatMap_singleton,
        hpart]
      rcases Nat.lt_trichotomy t n with hlt | rfl | hgt
      · simp [hlt, Nat.ne_of_gt hlt, Nat.lt_succ_of_lt hlt]
      · simp
      · simp [Nat.lt_asymm hgt, Nat.ne_of_lt hgt, Nat.not_lt.mpr (Nat.succ_le_of_lt hgt)]
  rw [snapshotBody, hrange, if_pos ht]

theorem contentOf_publishSnapshot (h : Stores s held) :
    contentOf s.publishSnapshot = s.snapshotBody := by
  have hbody : ∀ u ∈ s.snapshotBody, u.type ≠ .snapshotStart ∧ u.type ≠ .snapshotEnd := by
    intro u hu
    obtain ⟨t, -, hu⟩ := List.mem_flatMap.mp hu
    rcases List.mem_cons.mp hu with rfl | hu
    · simp
    · obtain ⟨x, hx, rfl⟩ := List.mem_map.mp (h.mem_snapshotOrders.mp hu).1
      simp [h.added x hx]
  rw [contentOf, publishSnapshot, map_numberFrom, List.cons_append, List.filter_cons_of_neg (by simp),
    List.filter_append, List.filter_cons_of_neg (by simp), List.filter_nil, List.append_nil,
    List.filter_eq_self]
  intro u hu
  simpa using hbody u hu

end Publishing

section Replay
variable {ms : List MDPMarketUpdate} {syn : SnapshotSynthesizer}
open MarketOrderBook

/-- What a fresh book makes of updates without an order to sell for nothing. -/
theorem readSide_of_run {live : List LiveOrder} {us : List MEMarketUpdate} (t : ℕ)
    (h : Along apply Permitted [] us)
    (hasks : ∀ u ∈ us, u.type = .add → u.side = .sell → u.price ≠ 0)
    (hlive : us.foldl apply [] = live) :
    ∃ m, run onMarketUpdate (freshBooks t) us = .ok m ∧
      ∀ d, readSide m.book d = levelsOf live d := by
  have hinit : Tracks (freshBooks t).book (fun _ => []) [] := tracks_init
  obtain ⟨m, hrun⟩ := run_succeeds hinit (by simp [NoZeroAsk]) h hasks
  obtain ⟨S, htracks⟩ := run_tracks hinit h hrun
  rw [hlive] at htracks
  exact ⟨m, hrun, htracks.readSide_eq⟩

/-- The number of the last message, or zero. -/
def lastSeqNum (ms : List MDPMarketUpdate) : ℕ := (ms.getLast?.map (·.seqNum)).getD 0

theorem lastSeqNum_publish (us : List MEMarketUpdate) :
    lastSeqNum (publish us) = us.length % 2 ^ 64 := by
  induction us using List.reverseRecOn with
  | nil => rfl
  | append_singleton us u _ => simp [lastSeqNum, publish_append, numberFrom]

/-- One ticker: the live orders after the stream are those after the snapshot. -/
theorem replay_ticker {us : List MEMarketUpdate} {held : List (Ptr × MEMarketUpdate)} {t : ℕ}
    (hs : Stores syn held) (hheld : held.map Prod.snd = us.foldl keep [])
    (hids : (us.filter fun u => u.type = .add).Pairwise fun u v =>
      u.tickerId = v.tickerId → u.orderId < v.orderId)
    (halong : Along keep (fun held u => Accepts held u ∧ InDomain held u ∧ KeepsBooks held u) [] us)
    (hasks : ∀ u ∈ us, u.type = .add → u.side = .sell → u.price ≠ 0) (ht : t < meMaxTickers) :
    ∃ live,
      (∃ m, run onMarketUpdate (freshBooks t) (us.filter fun u => u.tickerId = t) = .ok m ∧
        ∀ d, readSide m.book d = levelsOf live d) ∧
      ∃ m, run onMarketUpdate (freshBooks t) (syn.snapshotBody.filter fun u => u.tickerId = t) =
          .ok m ∧ ∀ d, readSide m.book d = levelsOf live d := by
  obtain ⟨hperm, hlive⟩ := along_ofTicker (t := t) halong
  have hinc := ofTicker_increasing hids t
  have hasks' : ∀ u ∈ us.filter (fun u => u.tickerId = t),
      u.type = .add → u.side = .sell → u.price ≠ 0 :=
    fun u hu => hasks u (List.mem_of_mem_filter hu)
  have hsound : Sound (ofTicker t (us.foldl keep [])) := by
    rw [hlive]
    exact hperm.invariant sound_nil fun _ _ h hu => h.next hu
  have hzero : NoZeroAsk (ofTicker t (us.foldl keep [])) := by
    rw [hlive]
    exact noZeroAsk_foldl (by simp [NoZeroAsk, ofTicker]) hasks'
  have hsnap : syn.snapshotOrders t = (us.foldl keep []).filter fun o => o.tickerId = t := by
    rw [← hheld] at hinc ⊢
    exact hs.snapshotOrders_eq hinc
  have hadds : ∀ u ∈ (us.foldl keep []).filter (fun o => o.tickerId = t), u.type = .add := by
    intro u hu
    rw [← hheld] at hu
    obtain ⟨x, hx, rfl⟩ := List.mem_map.mp (List.mem_of_mem_filter hu)
    exact hs.added x hx
  have hincLive : (ofTicker t (us.foldl keep [])).Pairwise fun o z => o.orderId < z.orderId := by
    rw [ofTicker, List.pairwise_map]
    exact hinc
  obtain ⟨halongAdds, hadded⟩ := hsound.along_adds hincLive hadds rfl
  refine ⟨ofTicker t (us.foldl keep []), readSide_of_run t hperm hasks' hlive.symm, ?_⟩
  rw [filter_snapshotBody hs ht, hsnap]
  apply readSide_of_run t
  · exact ⟨rfl, halongAdds⟩
  · intro u hu hadd hsell
    rcases List.mem_cons.mp hu with rfl | hu
    · cases hadd
    · exact hzero (liveOf u) (List.mem_map_of_mem hu) hsell
  · exact hadded

/-- A snapshot, applied to fresh books, gives the books that the stream gives. -/
theorem snapshot_replays (hrun : run addToSnapshot SnapshotSynthesizer.init ms = .ok syn)
    (hids : ((ms.map (·.meMarketUpdate)).filter fun u => u.type = .add).Pairwise fun u v =>
      u.tickerId = v.tickerId → u.orderId < v.orderId)
    (hdomain : Along keep InDomain [] (ms.map (·.meMarketUpdate)))
    (hkeeps : Along keep KeepsBooks [] (ms.map (·.meMarketUpdate))) :
    (∃ books replayed, run applyToBooks freshBooks (ms.map (·.meMarketUpdate)) = .ok books ∧
      run applyToBooks freshBooks (contentOf syn.publishSnapshot) = .ok replayed ∧
      ∀ t d, readSide (books t).book d = readSide (replayed t).book d) ∧
    syn.publishSnapshot.map (·.seqNum) = List.range syn.publishSnapshot.length ∧
    syn.publishSnapshot.head? =
      some ⟨0, { type := .snapshotStart, orderId := lastSeqNum ms }⟩ ∧
    syn.publishSnapshot.getLast?.map (·.meMarketUpdate) =
      some { type := .snapshotEnd, orderId := lastSeqNum ms } := by
  obtain ⟨hnum, hacc, s, held, hrun', hs, hheld, hlast⟩ := fed_of_run hrun
  rw [← hnum, hrun] at hrun'
  obtain rfl : syn = s := Except.ok.inj hrun'
  have hnumber : syn.lastIncSeqNum = lastSeqNum ms := by
    rw [hlast, hnum, lastSeqNum_publish, publish, map_numberFrom]
  have hasks := hkeeps.forall_mem (Q := fun u => u.type = .add → u.side = .sell → u.price ≠ 0)
    fun held u hk ht => by simpa only [KeepsBooks, ht] using hk
  have htickers := hacc.forall_mem (Q := fun u => u.tickerId < meMaxTickers) fun _ _ ha => ha.1
  have hbody : ∀ u ∈ syn.snapshotBody, u.tickerId < meMaxTickers := by
    intro u hu
    obtain ⟨t, ht, hu⟩ := List.mem_flatMap.mp hu
    rcases List.mem_cons.mp hu with rfl | hu
    · exact List.mem_range.mp ht
    · rw [(hs.mem_snapshotOrders.mp hu).2]
      exact List.mem_range.mp ht
  have hone := fun t ht => replay_ticker (t := t) hs hheld hids (hacc.and (hdomain.and hkeeps))
    hasks ht
  have hoff : ∀ t, ¬t < meMaxTickers → ∀ vs : List MEMarketUpdate,
      (∀ u ∈ vs, u.tickerId < meMaxTickers) → (vs.filter fun u => u.tickerId = t) = [] := by
    intro t ht vs hvs
    rw [List.filter_eq_nil_iff]
    intro u hu
    simpa using fun he : u.tickerId = t => ht (he ▸ hvs u hu)
  have htotal : ∀ vs : List MEMarketUpdate, (∀ u ∈ vs, u.tickerId < meMaxTickers) →
      (∀ t, t < meMaxTickers → ∃ m, run onMarketUpdate (freshBooks t)
        (vs.filter fun u => u.tickerId = t) = .ok m) →
      ∃ books, run applyToBooks freshBooks vs = .ok books ∧ ∀ t,
        run onMarketUpdate (freshBooks t) (vs.filter fun u => u.tickerId = t) = .ok (books t) := by
    intro vs hvs hall
    apply run_applyToBooks hvs
    intro t
    by_cases ht : t < meMaxTickers
    · exact hall t ht
    · rw [hoff t ht vs hvs]
      exact ⟨_, rfl⟩
  obtain ⟨books, hbooks, hall⟩ := htotal (ms.map (·.meMarketUpdate)) htickers fun t ht => by
    obtain ⟨live, ⟨m, hm, -⟩, -⟩ := hone t ht
    exact ⟨m, hm⟩
  obtain ⟨replayed, hreplayed, hall'⟩ := htotal syn.snapshotBody hbody fun t ht => by
    obtain ⟨live, -, m, hm, -⟩ := hone t ht
    exact ⟨m, hm⟩
  refine ⟨⟨books, replayed, hbooks, ?_, ?_⟩, ?_, ?_, ?_⟩
  · rw [contentOf_publishSnapshot hs]
    exact hreplayed
  · intro t d
    by_cases ht : t < meMaxTickers
    · obtain ⟨live, ⟨m, hm, hread⟩, m', hm', hread'⟩ := hone t ht
      rw [hall t] at hm
      rw [hall' t] at hm'
      cases hm
      cases hm'
      rw [hread, hread']
    · have hb := hall t
      have hb' := hall' t
      rw [hoff t ht _ htickers] at hb
      rw [hoff t ht _ hbody] at hb'
      rw [run_nil, Except.ok.injEq] at hb hb'
      rw [← hb, ← hb']
  · exact seqNum_publishSnapshot syn
  · rw [← hnumber, publishSnapshot, List.cons_append, numberFrom, List.head?_cons]
  · rw [← hnumber, ← List.getLast?_map, publishSnapshot, map_numberFrom, List.getLast?_append,
      List.getLast?_singleton, Option.some_or]

/-- Two tickers, a partial fill and a removal. -/
theorem snapshot_replays_two_tickers :
    ∃ syn, run addToSnapshot SnapshotSynthesizer.init (publish
        [⟨.add, 1, 0, .buy, 10, 5, 1⟩, ⟨.add, 1, 3, .sell, 12, 4, 1⟩, ⟨.add, 2, 0, .buy, 10, 6, 2⟩,
          ⟨.trade, 0, 0, .sell, 10, 2, 0⟩, ⟨.modify, 1, 0, .buy, 10, 3, 1⟩,
          ⟨.cancel, 1, 3, .sell, 12, 4, 1⟩]) = .ok syn ∧
      ∃ books replayed, run applyToBooks freshBooks
          [⟨.add, 1, 0, .buy, 10, 5, 1⟩, ⟨.add, 1, 3, .sell, 12, 4, 1⟩,
            ⟨.add, 2, 0, .buy, 10, 6, 2⟩, ⟨.trade, 0, 0, .sell, 10, 2, 0⟩,
            ⟨.modify, 1, 0, .buy, 10, 3, 1⟩, ⟨.cancel, 1, 3, .sell, 12, 4, 1⟩] = .ok books ∧
        run applyToBooks freshBooks (contentOf syn.publishSnapshot) = .ok replayed ∧
        ∀ t d, readSide (books t).book d = readSide (replayed t).book d := by
  have haccepted : (run addToSnapshot SnapshotSynthesizer.init (publish
      [⟨.add, 1, 0, .buy, 10, 5, 1⟩, ⟨.add, 1, 3, .sell, 12, 4, 1⟩, ⟨.add, 2, 0, .buy, 10, 6, 2⟩,
        ⟨.trade, 0, 0, .sell, 10, 2, 0⟩, ⟨.modify, 1, 0, .buy, 10, 3, 1⟩,
        ⟨.cancel, 1, 3, .sell, 12, 4, 1⟩])).toOption.isSome = true := by
    decide
  cases hrun : run addToSnapshot SnapshotSynthesizer.init (publish
      [⟨.add, 1, 0, .buy, 10, 5, 1⟩, ⟨.add, 1, 3, .sell, 12, 4, 1⟩, ⟨.add, 2, 0, .buy, 10, 6, 2⟩,
        ⟨.trade, 0, 0, .sell, 10, 2, 0⟩, ⟨.modify, 1, 0, .buy, 10, 3, 1⟩,
        ⟨.cancel, 1, 3, .sell, 12, 4, 1⟩]) with
  | error f =>
    rw [hrun] at haccepted
    cases haccepted
  | ok syn =>
    refine ⟨syn, rfl, ?_⟩
    refine (snapshot_replays hrun ?_ ?_ ?_).1
    · decide
    · simp [publish, numberFrom, Along, InDomain, keep, ofTicker, liveOf, Names, meMaxPriceLevels,
        meMaxOrderIds]
    · simp [publish, numberFrom, Along, KeepsBooks]

/-- The synthesizer takes an order to sell for nothing, the client does not survive it. -/
theorem sell_at_zero_ends_replay :
    (∃ syn, run addToSnapshot SnapshotSynthesizer.init
        (publish [⟨.add, 1, 0, .sell, 0, 5, 1⟩]) = .ok syn) ∧
      Along keep InDomain [] [⟨.add, 1, 0, .sell, 0, 5, 1⟩] ∧
      ∀ books, run applyToBooks freshBooks [⟨.add, 1, 0, .sell, 0, 5, 1⟩] ≠ .ok books := by
  have haccepted : (run addToSnapshot SnapshotSynthesizer.init
      (publish [⟨.add, 1, 0, .sell, 0, 5, 1⟩])).toOption.isSome = true := by
    decide
  have hfails : (run applyToBooks freshBooks
      [⟨.add, 1, 0, .sell, 0, 5, 1⟩]).toOption.isNone = true := by
    decide
  constructor
  · cases hrun : run addToSnapshot SnapshotSynthesizer.init
        (publish [⟨.add, 1, 0, .sell, 0, 5, 1⟩]) with
    | error f =>
      rw [hrun] at haccepted
      cases haccepted
    | ok syn => exact ⟨syn, rfl⟩
  constructor
  · simp [Along, InDomain, ofTicker, meMaxPriceLevels, meMaxOrderIds]
  · intro books hok
    rw [hok] at hfails
    cases hfails

end Replay

end SnapshotSynthesizer

end HighPerformance
