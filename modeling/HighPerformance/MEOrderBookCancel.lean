import HighPerformance.MEOrderBookInvariant
import HighPerformance.PriceLevelSides

/-!
# Cancelling an order

`WellFormed m S` is the exchange's book with the levels `S`, at prices of any
size; that their indices differ is part of `Stored`. `cancel` either takes the
order of a client out of it and says so, or leaves the book as it is.
-/

namespace HighPerformance.MEOrderBook
open LevelBook CircularList FallibleRun

structure WellFormed (m : MEOrderBook) (S : Shape MEOrderIds) : Prop where
  stored : Stored m.book S.levels []
  complete : Complete m.book S.levels []
  sides : ∀ d, SideRing m.book d (S d)
  pools : InPools m.book S.levels []
  indexed : Indexed meBookKind m.book S
  keys : ∀ o ∈ S.orders, checkClientOrderKey (meBookKind.key o.ident) = .ok ()

section Bridge
variable {m : MEOrderBook} {S : Shape MEOrderIds}

theorem Rep.wellFormed (h : Rep m S) : WellFormed m S := by
  have hs := h.shaped
  have hin : ∀ L ∈ S.levels, ∃ d, L ∈ S d := fun L hL => Shape.mem_levels.mp hL
  constructor
  · constructor
    · intro L hL
      obtain ⟨d, hd⟩ := hin L hL
      have hrep := hs.level d L hd
      rw [hrep.side]
      exact hrep
    · exact hs.levels.nodup
    · intro L hL
      obtain ⟨d, hd⟩ := hin L hL
      exact (getOrdersAtPrice_eq_some hs.levels (hs.levels.priceLt d L hd)).mpr ⟨L, hL, rfl, rfl⟩
    · intro L hL
      exact (hs.levels.pool.busy _).mpr (List.mem_map_of_mem hL)
    · exact hs.nodup
    · exact fun p hp => (hs.pool.busy p).mpr hp
  · constructor
    · intro l hl
      exact List.mem_map.mp ((hs.levels.pool.busy l).mp hl)
    · exact fun p hp => (hs.pool.busy p).mp hp
    · intro i l hl
      obtain ⟨L, hL, he, hp⟩ := (hs.levels.priceTable i l).mp hl
      obtain ⟨d, hd⟩ := hin L hL
      refine ⟨L, hL, he, ?_⟩
      rw [priceToIndex, hp]
      exact Nat.mod_eq_of_lt (hp ▸ hs.levels.priceLt d L hd)
  · intro d
    exact ⟨hs.levels.best d, hs.levels.ring d, hs.levels.sorted d,
      fun L hL => (hs.level d L hL).side⟩
  · constructor
    · intro L hL
      exact hs.levels.pool.lt _ (List.mem_map_of_mem hL)
    · exact fun p hp => hs.pool.lt p hp
  · exact h.indexed
  · exact h.keys

end Bridge

section Cancel
variable {m : MEOrderBook} {S : Shape MEOrderIds} {d : Bool} {u w : List (PriceLevel MEOrderIds)}
  {L : PriceLevel MEOrderIds} {x y : List (Resting MEOrderIds)} {o : Resting MEOrderIds}
  {cid oid : ℕ}

theorem split_perm (hS : S d = u ++ L :: w) : S.levels.Perm (u ++ L :: w ++ S (!d)) :=
  hS ▸ S.levels_perm d

theorem orders_set_perm (hS : S d = u ++ L :: w) (hxy : L.orders = x ++ o :: y) :
    S.orders.Perm (o :: (S.set d (u ++ Shape.refill L (x ++ y) ++ w)).orders) := by
  have hrefill : (Shape.refill L (x ++ y)).flatMap (·.orders) = x ++ y := by
    rw [Shape.refill]
    split
    · next hnil => rw [hnil, List.flatMap_nil]
    · simp
  have hnew : (S.set d (u ++ Shape.refill L (x ++ y) ++ w)).orders.Perm
      (x ++ y ++ (u ++ w ++ S (!d)).flatMap (·.orders)) := by
    have hset : (S.set d (u ++ Shape.refill L (x ++ y) ++ w)).levels.Perm
        (u ++ Shape.refill L (x ++ y) ++ w ++ S (!d)) := Shape.levels_set_perm
    have hperm := hset.trans (refill_middle_perm u (x ++ y) w (S (!d)))
    refine (hperm.flatMap_right _).trans ?_
    rw [List.flatMap_append, hrefill]
  refine (orders_split hS).trans ?_
  rw [hxy, List.append_assoc, List.cons_append]
  refine List.perm_middle.trans (.cons o ?_)
  rw [← List.append_assoc]
  exact hnew.symm

theorem WellFormed.removeOrder (h : WellFormed m S) (hS : S d = u ++ L :: w)
    (hxy : L.orders = x ++ o :: y) :
    ∃ b', m.removeOrder o.addr = .ok { m with book := b' } ∧
      WellFormed { m with book := b' } (S.set d (u ++ Shape.refill L (x ++ y) ++ w)) := by
  have hom : o ∈ S.orders := Shape.mem_orders.mpr ⟨d, L, by simp [hS], by simp [hxy]⟩
  have hperm := split_perm hS
  have hside : SideRing m.book d (u ++ L :: w) := hS ▸ h.sides d
  obtain ⟨b', hok, hgone⟩ := removeOrder_returns (k := meBookKind) (h.stored.perm hperm.symm) hside
    (h.pools.perm hperm.symm) hxy (h.keys o hom)
  have hset : (S.set d (u ++ Shape.refill L (x ++ y) ++ w)).levels.Perm
      (u ++ Shape.refill L (x ++ y) ++ w ++ S (!d)) := Shape.levels_set_perm
  have horders := orders_set_perm hS hxy
  refine ⟨b', ?_, ?_⟩
  · simp only [MEOrderBook.removeOrder, hok, bind, Except.bind, pure, Except.pure]
  · constructor
    · exact hgone.stored.perm hset
    · exact (hgone.complete (h.complete.perm hperm.symm)).perm hset
    · refine Shape.forall_side d ?_ ?_
      · rw [Shape.set_same]
        exact hgone.side
      · rw [Shape.set_not]
        apply (h.sides (!d)).frame hgone.frame
        intro M hM hm
        have hnd := (h.stored.perm hperm.symm).nodup
        rw [List.map_append, List.nodup_append] at hnd
        exact hnd.2.2 _ hm _ (List.mem_map_of_mem hM) rfl
    · exact hgone.pools.perm hset
    · intro id p
      change b'.idToOrder id = some p ↔ _
      rw [hgone.idToOrder, Function.update_apply]
      have hown := (h.indexed (meBookKind.key o.ident) o.addr).mpr ⟨o, hom, rfl, rfl⟩
      have hnd : ((o :: (S.set d (u ++ Shape.refill L (x ++ y) ++ w)).orders).map (·.addr)).Nodup :=
        (horders.map _).nodup_iff.mp (List.nodup_append.mp h.stored.orderNodup).2.1
      rw [List.map_cons, List.nodup_cons] at hnd
      split
      · next hid =>
        subst hid
        simp only [reduceCtorEq, false_iff]
        rintro ⟨z, hz, -, hkey⟩
        have hentry := (h.indexed (meBookKind.key o.ident) z.addr).mpr
          ⟨z, horders.mem_iff.mpr (List.mem_cons_of_mem _ hz), rfl, hkey⟩
        rw [hown, Option.some.injEq] at hentry
        exact hnd.1 (hentry ▸ List.mem_map_of_mem hz)
      · next hid =>
        rw [h.indexed]
        constructor
        · rintro ⟨z, hz, hzp, hkey⟩
          rcases List.mem_cons.mp (horders.mem_iff.mp hz) with rfl | hz
          · exact (hid hkey.symm).elim
          · exact ⟨z, hz, hzp, hkey⟩
        · rintro ⟨z, hz, hzp, hkey⟩
          exact ⟨z, horders.mem_iff.mpr (List.mem_cons_of_mem _ hz), hzp, hkey⟩
    · intro z hz
      exact h.keys z (horders.mem_iff.mpr (List.mem_cons_of_mem _ hz))

/-- The best level changes when the only order of that level goes. -/
theorem best_set_iff (hnd : ((u ++ L :: w).map (·.addr)).Nodup) (rest : List (Resting MEOrderIds)) :
    ((u ++ Shape.refill L rest ++ w).map (·.addr)).head? = ((u ++ L :: w).map (·.addr)).head? ↔
      ¬(u = [] ∧ rest = []) := by
  cases u with
  | cons M u => simp
  | nil =>
    by_cases hrest : rest = []
    · simp only [Shape.refill, hrest, if_true, List.nil_append, true_and, not_true, iff_false]
      cases w with
      | nil => simp
      | cons M w =>
        intro he
        simp only [List.map_cons, List.head?_cons, Option.some.injEq] at he
        rw [List.nil_append, List.map_cons, List.nodup_cons] at hnd
        exact hnd.1 (by simp [he])
    · simp [Shape.refill, hrest]

/-- `cancel` takes out the order that the client has under the id, wherever it
is, and otherwise rejects the request and changes nothing. -/
theorem cancel_removes_one (h : WellFormed m S) (cid oid tid : ℕ) (ho : oid < meMaxOrderIds) :
    (∀ d u L w x o y, S d = u ++ L :: w → L.orders = x ++ o :: y →
      (o.ident.clientId, o.ident.clientOrderId) = (cid, oid) →
      ∃ m', m.cancel cid oid tid = .ok (m',
          [.update ⟨.cancel, o.ident.marketOrderId, tid, o.side, L.price, 0, o.priority⟩,
            .response ⟨.canceled, cid, tid, oid, o.ident.marketOrderId, o.side, L.price, qtyInvalid,
              o.qty⟩]) ∧
        WellFormed m' (S.set d (u ++ Shape.refill L (x ++ y) ++ w)) ∧
        m'.tickerId = m.tickerId ∧ m'.nextMarketOrderId = m.nextMarketOrderId ∧
        ∀ e, m'.book.best e = m.book.best e ↔ ¬(e = d ∧ u = [] ∧ x ++ y = [])) ∧
    ((∀ o ∈ S.orders, (o.ident.clientId, o.ident.clientOrderId) ≠ (cid, oid)) →
      m.cancel cid oid tid = .ok (m, [.response ⟨.cancelRejected, cid, tid, oid, orderIdInvalid,
        .invalid, priceInvalid, qtyInvalid, qtyInvalid⟩])) := by
  have hat : at? "cid_oid_to_order_" meMaxOrderIds oid = .ok () := at?_lt ho
  constructor
  · intro d u L w x o y hS hxy hkey
    have hLm : L ∈ S.levels := Shape.mem_levels.mpr ⟨d, by simp [hS]⟩
    have hom : o ∈ S.orders := Shape.mem_orders.mpr ⟨d, L, by simp [hS], by simp [hxy]⟩
    have hfits := h.keys o hom
    obtain ⟨_, hclient, -⟩ := bind_eq_ok.mp hfits
    have hc : cid < meMaxNumClients := by
      have hlt := at?_eq_ok.mp hclient
      simp only [meBookKind, hkey] at hlt
      exact hlt
    have hid : m.book.idToOrder (cid, oid) = some o.addr :=
      (h.indexed (cid, oid) o.addr).mpr ⟨o, hom, rfl, hkey⟩
    have hrep := h.stored.level L hLm
    obtain ⟨hside, hdata⟩ := hrep.orders o (by simp [hxy])
    simp only [orderData, Prod.mk.injEq] at hdata
    obtain ⟨b', hok, hwf⟩ := h.removeOrder hS hxy
    refine ⟨{ m with book := b' }, ?_, hwf, rfl, rfl, ?_⟩
    · simp only [cancel, hc, if_true, hat, hid, bind, Except.bind, pure, Except.pure, hok, hdata]
    · intro e
      rw [(hwf.sides e).best, (h.sides e).best]
      by_cases hed : e = d
      · subst hed
        have hnd := (h.sides e).ring.nodup
        rw [hS] at hnd ⊢
        rw [Shape.set_same, best_set_iff hnd]
        simp
      · rw [Shape.set_ne hed]
        simp [hed]
  · intro hnone
    by_cases hc : cid < meMaxNumClients
    · have hid : m.book.idToOrder (cid, oid) = none := by
        cases hid : m.book.idToOrder (cid, oid) with
        | none => rfl
        | some p =>
          obtain ⟨z, hz, -, hkey⟩ := (h.indexed (cid, oid) p).mp hid
          exact (hnone z hz hkey).elim
      simp only [cancel, hc, if_true, hat, hid, bind, Except.bind, pure, Except.pure]
    · simp only [cancel, hc, if_false, bind, Except.bind, pure, Except.pure]

/-- The middle one of three orders at a price is canceled. -/
theorem cancel_removes_one_of_three :
    ∃ m, run step (init 0) [.add 0 0 0 .buy 10 5, .add 0 1 0 .buy 10 6, .add 0 2 0 .buy 10 7] =
        .ok m ∧ ∃ m' out S, m.cancel 0 1 0 = .ok (m', out) ∧ WellFormed m' S := by
  have hread : (run step (init 0)
      [.add 0 0 0 .buy 10 5, .add 0 1 0 .buy 10 6, .add 0 2 0 .buy 10 7]).map
      (fun m => m.book.idToOrder (0, 1)) = .ok (some 1) := by
    decide
  rcases run_good 0 [.add 0 0 0 .buy 10 5, .add 0 1 0 .buy 10 6, .add 0 2 0 .buy 10 7] (by decide)
      (by decide) ⟨trivial, fun _ _ => ⟨trivial, fun _ _ => ⟨trivial, fun _ _ => trivial⟩⟩⟩ with
    ⟨m, hrun, S, hgood⟩ | herr
  · rw [hrun] at hread
    simp only [Except.map, Except.ok.injEq] at hread
    obtain ⟨o, hom, -, hkey⟩ := (hgood.rep.indexed (0, 1) 1).mp hread
    obtain ⟨d, L, hL, hoL⟩ := Shape.mem_orders.mp hom
    obtain ⟨u, w, hS⟩ := List.append_of_mem hL
    obtain ⟨x, y, hxy⟩ := List.append_of_mem hoL
    obtain ⟨m', hok, hwf, -⟩ := (cancel_removes_one hgood.rep.wellFormed 0 1 0 (by decide)).1
      d u L w x o y hS hxy hkey
    exact ⟨m, hrun, m', _, _, hok, hwf⟩
  · rw [herr] at hread
    cases hread

end Cancel

end HighPerformance.MEOrderBook
