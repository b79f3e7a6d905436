import HighPerformance.MEOrderBookLedger

/-!
# The prices of a run

Which prices the book rests at and trades at, over whole runs: no bid rests at or above an ask, and
no order is executed at a price worse than its own limit.
-/

namespace HighPerformance.MEOrderBook
open LevelBook FallibleRun

/-- Every price at which a bid rests is below every price at which an ask rests. -/
def Uncrossed (S : Shape MEOrderIds) : Prop :=
  ∀ p q, S.contents true p ≠ [] → S.contents false q ≠ [] → p < q

/-- The execution is of an order that was requested, on its side and within its limit. -/
def WithinLimit (rs : List Request) (r : MEClientResponse) : Prop :=
  ∃ tickerId limit qty, Request.add r.clientId r.clientOrderId tickerId r.side limit qty ∈ rs ∧
    (r.side = .buy → r.price ≤ limit) ∧ (r.side = .sell → limit ≤ r.price)

/-- What rests was requested at the price where it rests, and what was executed was within its
limit. -/
structure Traceable (rs : List Request) (S : Shape MEOrderIds) (out : List Outgoing) : Prop where
  resting : ∀ d price, ∀ o ∈ S.contents d price, ∃ tickerId qty,
    Request.add o.ident.clientId o.ident.clientOrderId tickerId (sideOf d) price qty ∈ rs
  executions : ∀ r, .response r ∈ out → r.type = .filled → WithinLimit rs r

section Crossing
variable {S S' S₁ : Shape MEOrderIds} {m : MEOrderBook} {r : Request} {out : List Outgoing}
  {i : Incoming} {price leaves : ℕ} {e : Bool} {used : List ClientOrderKey}

theorem uncrossed_of_contents (h : Uncrossed S)
    (hsub : ∀ d p, S'.contents d p ≠ [] → S.contents d p ≠ []) : Uncrossed S' :=
  fun p q hp hq => h p q (hsub true p hp) (hsub false q hq)

theorem ident_swept {stops : ℕ → Bool}
    (hqueue : Shape.queue (S₁ (!e)) = (sweep i stops leaves (Shape.queue (S (!e)))).2.1)
    (hown : S₁ e = S e) (d : Bool) (p : ℕ) : ∀ o' ∈ S₁.contents d p, ∃ o ∈ S.contents d p,
      o.ident = o'.ident := by
  intro o' ho'
  have hmem : core o' ∈ (S.contents d p).map core := by
    by_cases hd : d = e
    · subst hd
      rw [Shape.contents, hown] at ho'
      exact List.mem_map_of_mem ho'
    · have hd' : d = !e := by cases d <;> cases e <;> simp_all
      subst hd'
      have hsuffix : ((Shape.queue (S₁ (!e))).map fun x => (x.1, core x.2)) <:+
          (Shape.queue (S (!e))).map fun x => (x.1, core x.2) := hqueue ▸ sweep_suffix
      have hsub := (hsuffix.sublist.filter fun x => x.1 = p).map Prod.snd
      rw [← contents_core, ← contents_core] at hsub
      exact hsub.subset (List.mem_map_of_mem ho')
  obtain ⟨o, ho, hcore⟩ := List.mem_map.mp hmem
  exact ⟨o, ho, congrArg (fun x => x.2.1) hcore⟩

theorem contents_swept {stops : ℕ → Bool}
    (hqueue : Shape.queue (S₁ (!e)) = (sweep i stops leaves (Shape.queue (S (!e)))).2.1)
    (hown : S₁ e = S e) (d : Bool) (p : ℕ) (h : S₁.contents d p ≠ []) : S.contents d p ≠ [] := by
  obtain ⟨o', ho'⟩ := List.exists_mem_of_ne_nil _ h
  obtain ⟨o, ho, -⟩ := ident_swept hqueue hown d p o' ho'
  exact List.ne_nil_of_mem ho

/-- When the incoming order comes to rest, the other side is out of its reach. -/
theorem other_side_beyond (h : Rep m S) {r : ℕ × List (ℕ × Resting MEOrderIds) × List Outgoing}
    (hr : r = sweep i (stopsFor e price) leaves (Shape.queue (S (!e)))) (hleft : r.1 ≠ 0)
    (hqueue : Shape.queue (S₁ (!e)) = r.2.1) {p : ℕ} (hp : S₁.contents (!e) p ≠ []) :
    stopsFor e price p = true := by
  obtain ⟨o, ho⟩ := List.exists_mem_of_ne_nil _ hp
  rw [Shape.contents, Shape.ordersAt_eq_queue] at ho
  obtain ⟨x, hx, -⟩ := List.mem_map.mp ho
  obtain ⟨hmem, hxp⟩ := List.mem_filter.mp hx
  rw [hr] at hleft
  rw [hqueue, hr] at hmem
  have hstop := sweep_stops (stopsFor_mono h price) hleft x hmem
  rwa [of_decide_eq_true hxp] at hstop

theorem Effect.uncrossed (h : Effect S S' r out) (hgood : Good m S used) (hun : Uncrossed S) :
    Uncrossed S' := by
  cases h with
  | rejects cid oid tid same => exact same ▸ hun
  | cancels cid oid tid d u w L x y o hkey level orders gone =>
    apply uncrossed_of_contents hun
    intro d' p hp
    rw [gone.contents] at hp
    split_ifs at hp with hat
    · obtain ⟨rfl, rfl⟩ := hat
      rw [hgood.rep.shaped.levels.contents_eq level, orders]
      exact List.append_ne_nil_of_right_ne_nil _ (List.cons_ne_nil o y)
    · exact hp
  | fills cid oid tid mid e price qty i r incoming swept left queue own =>
    exact uncrossed_of_contents hun (contents_swept (swept ▸ queue) own)
  | rests cid oid tid mid e price qty i r S₁ p priority incoming swept left queue own added =>
    have hun₁ : Uncrossed S₁ := uncrossed_of_contents hun (contents_swept (swept ▸ queue) own)
    have hbeyond : ∀ {q}, S₁.contents (!e) q ≠ [] → stopsFor e price q = true :=
      fun hq => other_side_beyond hgood.rep swept left queue hq
    -- a price of the new book is one of the old book, or that of the new order
    have hnew : ∀ d q, S'.contents d q ≠ [] → S₁.contents d q ≠ [] ∨ (d = e ∧ q = price) := by
      intro d q hq
      by_cases hat : d = e ∧ q = price
      · exact .inr hat
      · rw [added.contents, if_neg hat, List.append_nil] at hq
        exact .inl hq
    intro p q hp hq
    cases e with
    | true =>
      have hq₁ : S₁.contents false q ≠ [] := (hnew false q hq).resolve_right (by simp)
      rcases hnew true p hp with hp₁ | ⟨-, rfl⟩
      · exact hun₁ p q hp₁ hq₁
      · simpa [stopsFor] using hbeyond hq₁
    | false =>
      have hp₁ : S₁.contents true p ≠ [] := (hnew true p hp).resolve_right (by simp)
      rcases hnew false q hq with hq₁ | ⟨-, rfl⟩
      · exact hun₁ p q hp₁ hq₁
      · simpa [stopsFor] using hbeyond hp₁

end Crossing

/-- In every book that such a run reaches each bid is below each ask. -/
theorem run_uncrossed (tickerId : ℕ) (rs : List Request) (hvalid : ∀ r ∈ rs, r.Valid)
    (hkeys : (rs.filterMap Request.newKey).Nodup)
    (hsafe : Meets step KeepsAskOrder (init tickerId) rs) {m : MEOrderBook} {out : List Outgoing}
    (hok : run stepSending (init tickerId, []) rs = .ok (m, out)) :
    ∀ bid ∈ m.book.readLevels true, ∀ ask ∈ m.book.readLevels false,
      (m.book.level bid).price < (m.book.level ask).price := by
  have hempty : Uncrossed (fun _ => []) := fun p q hp => absurd rfl hp
  obtain ⟨S, hgood, hun⟩ := run_effects (I := fun _ S _ => Uncrossed S) tickerId hempty
    (fun _ _ _ _ _ _ _ _ hgood hun _ heffect => heffect.uncrossed hgood hun) hvalid hkeys hsafe hok
  have hs := hgood.rep.shaped
  have hread : ∀ d, ∀ l ∈ m.book.readLevels d, S.contents d (m.book.level l).price ≠ [] := by
    intro d l hl
    rw [hs.readLevels_eq] at hl
    obtain ⟨L, hL, rfl⟩ := List.mem_map.mp hl
    have hrep := hs.level d L hL
    have hdata := hrep.data
    simp only [LevelBook.levelData, Prod.mk.injEq] at hdata
    rw [hdata.2.1, hs.levels.contents_eq hL]
    exact hrep.nonempty
  intro bid hbid ask hask
  exact hun _ _ (hread true bid hbid) (hread false ask hask)

theorem run_uncrossed_five : ∃ m out, run stepSending (init 0, []) fiveRequests = .ok (m, out) ∧
    ∃ bid ∈ m.book.readLevels true, ∃ ask ∈ m.book.readLevels false,
      (m.book.level bid).price < (m.book.level ask).price := by
  have hok : (run stepSending (init 0, []) fiveRequests).map (fun x =>
      (x.1.book.readLevels true, x.1.book.readLevels false)) = .ok ([3], [2]) := by
    decide +kernel
  obtain ⟨⟨m, out⟩, hrun, hread⟩ := map_eq_ok hok
  obtain ⟨hbids, hasks⟩ := Prod.mk.inj hread
  have hbid : 3 ∈ m.book.readLevels true := hbids ▸ List.mem_singleton_self 3
  have hask : 2 ∈ m.book.readLevels false := hasks ▸ List.mem_singleton_self 2
  exact ⟨m, out, hrun, 3, hbid, 2, hask, run_uncrossed 0 fiveRequests (by decide) (by decide)
    (by decide +kernel) hrun 3 hbid 2 hask⟩

/-! ## Limits -/

section Limits
variable {S S' S₁ : Shape MEOrderIds} {m : MEOrderBook} {r : Request} {out : List Outgoing}
  {rs rs' : List Request} {i : Incoming} {price leaves : ℕ} {e : Bool}
  {used : List ClientOrderKey} {x : MEClientResponse} {o : Resting MEOrderIds}

theorem WithinLimit.mono (h : WithinLimit rs x) (hsub : rs ⊆ rs') : WithinLimit rs' x := by
  obtain ⟨tid, limit, qty, hmem, hlimit⟩ := h
  exact ⟨tid, limit, qty, hsub hmem, hlimit⟩

theorem filled_trade (hx : .response x ∈ tradeMessages i leaves price o) :
    (x.clientId, x.clientOrderId, x.side, x.price) =
        (i.clientId, i.clientOrderId, i.side, price) ∨
      (x.clientId, x.clientOrderId, x.side, x.price) =
        (o.ident.clientId, o.ident.clientOrderId, o.side, price) := by
  unfold tradeMessages at hx
  by_cases hfills : o.qty ≤ leaves
  · simp only [if_pos hfills, List.mem_cons, Outgoing.response.injEq, reduceCtorEq,
      List.not_mem_nil, or_false] at hx
    rcases hx with rfl | rfl
    · exact .inl rfl
    · exact .inr rfl
  · simp only [if_neg hfills, List.mem_cons, Outgoing.response.injEq, reduceCtorEq,
      List.not_mem_nil, or_false] at hx
    rcases hx with rfl | rfl
    · exact .inl rfl
    · exact .inr rfl

/-- The executions of a sweep are within the limits of both orders of each trade. -/
theorem sweep_withinLimit {cid oid tid mid qty : ℕ} (hgood : Good m S used)
    (htrace : Traceable rs S out) (hi : i = ⟨cid, oid, tid, sideOf e, price, mid⟩)
    (hmem : Request.add cid oid tid (sideOf e) price qty ∈ rs)
    (hx : .response x ∈ (sweep i (stopsFor e price) leaves (Shape.queue (S (!e)))).2.2) :
    WithinLimit rs x := by
  obtain ⟨y, hy, l, hstop, hx⟩ := mem_sweep hx
  obtain ⟨hside, hcontents⟩ := hgood.queue_side y hy
  rcases filled_trade hx with htrade | htrade
  · simp only [hi, Prod.mk.injEq] at htrade
    obtain ⟨hc, ho, hs, hp⟩ := htrade
    refine ⟨tid, price, qty, ?_, ?_⟩
    · rw [hc, ho, hs]
      exact hmem
    · rw [hs, hp]
      cases e
      · simpa [stopsFor, sideOf] using hstop
      · simpa [stopsFor, sideOf] using hstop
  · simp only [Prod.mk.injEq] at htrade
    obtain ⟨hc, ho, hs, hp⟩ := htrade
    obtain ⟨tid', qty', hrest⟩ := htrace.resting (!e) y.1 y.2 hcontents
    refine ⟨tid', y.1, qty', ?_, ?_⟩
    · rw [hc, ho, hs, hside]
      exact hrest
    · rw [hp]
      exact ⟨fun _ => le_rfl, fun _ => le_rfl⟩

theorem not_filled_acceptance {cid oid tid mid qty : ℕ} {side : Side}
    (hx : .response x = acceptance cid oid tid mid side price qty) : x.type ≠ .filled := by
  cases hx
  exact fun h => by cases h

theorem Traceable.resting_of_core (h : Traceable rs S out)
    (hcore : ∀ d p, ∀ o' ∈ S'.contents d p, ∃ o ∈ S.contents d p, o.ident = o'.ident) :
    ∀ d p, ∀ o ∈ S'.contents d p, ∃ tid qty,
      Request.add o.ident.clientId o.ident.clientOrderId tid (sideOf d) p qty ∈ rs := by
  intro d p o' ho'
  obtain ⟨o, ho, hident⟩ := hcore d p o' ho'
  exact hident ▸ h.resting d p o ho

theorem Effect.traceable {sent : List Outgoing} (h : Effect S S' r sent) (hgood : Good m S used)
    (htrace : Traceable rs S out) : Traceable (rs ++ [r]) S' (out ++ sent) := by
  have hold : ∀ {d p}, ∀ o ∈ S.contents d p, ∃ tid qty, Request.add o.ident.clientId
      o.ident.clientOrderId tid (sideOf d) p qty ∈ rs ++ [r] := by
    intro d p o ho
    obtain ⟨tid, qty, hmem⟩ := htrace.resting d p o ho
    exact ⟨tid, qty, List.mem_append_left _ hmem⟩
  have hwider : Traceable (rs ++ [r]) S out :=
    ⟨fun d p o ho => hold o ho, fun x hx hf =>
      (htrace.executions x hx hf).mono (List.subset_append_left _ _)⟩
  have hself : r ∈ rs ++ [r] := by simp
  suffices hnew : (∀ d p, ∀ o ∈ S'.contents d p, ∃ tid qty, Request.add o.ident.clientId
      o.ident.clientOrderId tid (sideOf d) p qty ∈ rs ++ [r]) ∧
      ∀ x, .response x ∈ sent → x.type = .filled → WithinLimit (rs ++ [r]) x by
    refine ⟨hnew.1, fun x hx hf => ?_⟩
    rcases List.mem_append.mp hx with hx | hx
    · exact hwider.executions x hx hf
    · exact hnew.2 x hx hf
  cases h with
  | rejects cid oid tid same =>
    refine ⟨same ▸ hwider.resting, fun x hx hf => ?_⟩
    cases List.mem_singleton.mp hx
    cases hf
  | cancels cid oid tid d u w L x y o hkey level orders gone =>
    constructor
    · apply hwider.resting_of_core
      intro d' p o' ho'
      rw [gone.contents] at ho'
      split_ifs at ho' with hat
      · obtain ⟨rfl, rfl⟩ := hat
        refine ⟨o', ?_, rfl⟩
        rw [hgood.rep.shaped.levels.contents_eq level, orders]
        simp only [List.mem_append, List.mem_cons] at ho' ⊢
        tauto
      · exact ⟨o', ho', rfl⟩
    · intro z hz hf
      simp only [List.mem_cons, Outgoing.response.injEq, reduceCtorEq, List.not_mem_nil,
        or_false, false_or] at hz
      rw [hz] at hf
      cases hf
  | fills cid oid tid mid e price qty i r incoming swept left queue own =>
    constructor
    · exact hwider.resting_of_core (ident_swept (swept ▸ queue) own)
    · intro z hz hf
      rcases List.mem_cons.mp hz with hz | hz
      · exact absurd hf (not_filled_acceptance hz)
      · exact sweep_withinLimit hgood hwider incoming hself (swept ▸ hz)
  | rests cid oid tid mid e price qty i r S₁ p priority incoming swept left queue own added =>
    constructor
    · intro d q o ho
      rw [added.contents] at ho
      rcases List.mem_append.mp ho with hstays | hnew
      · exact hwider.resting_of_core (ident_swept (swept ▸ queue) own) d q o hstays
      · split_ifs at hnew with hat
        · cases List.mem_singleton.mp hnew
          rw [hat.1, hat.2]
          exact ⟨tid, qty, hself⟩
        · cases hnew
    · intro z hz hf
      simp only [List.cons_append, List.mem_cons, List.mem_append, reduceCtorEq, List.not_mem_nil,
        or_false] at hz
      rcases hz with hz | hz
      · exact absurd hf (not_filled_acceptance hz)
      · exact sweep_withinLimit hgood hwider incoming hself (swept ▸ hz)

end Limits

/-- In every such run no order is executed at a price worse than its own limit. -/
theorem run_withinLimit (tickerId : ℕ) (rs : List Request) (hvalid : ∀ r ∈ rs, r.Valid)
    (hkeys : (rs.filterMap Request.newKey).Nodup)
    (hsafe : Meets step KeepsAskOrder (init tickerId) rs) {m : MEOrderBook} {out : List Outgoing}
    (hok : run stepSending (init tickerId, []) rs = .ok (m, out)) :
    ∀ r, .response r ∈ out → r.type = .filled → WithinLimit rs r := by
  have hempty : Traceable [] (fun _ => []) [] := by
    constructor
    · intro d price o ho
      cases ho
    · intro r hr
      cases hr
  obtain ⟨S, -, htrace⟩ := run_effects (I := Traceable) tickerId hempty
    (fun _ _ _ _ _ _ _ _ hgood htrace _ heffect => heffect.traceable hgood htrace) hvalid hkeys
    hsafe hok
  exact htrace.executions

theorem run_withinLimit_five : ∃ m out,
    run stepSending (init 0, []) fiveRequests = .ok (m, out) ∧
      ∃ r, .response r ∈ out ∧ r.type = .filled ∧ WithinLimit fiveRequests r := by
  have hok : (run stepSending (init 0, []) fiveRequests).map (fun x => x.2[7]?) =
      .ok (some (.response ⟨.filled, 1, 0, 0, 1, .buy, 90, 5, 2⟩)) := by
    decide +kernel
  obtain ⟨⟨m, out⟩, hrun, hread⟩ := map_eq_ok hok
  have hmem := List.mem_of_getElem? hread
  exact ⟨m, out, hrun, _, hmem, rfl, run_withinLimit 0 fiveRequests (by decide) (by decide)
    (by decide +kernel) hrun _ hmem rfl⟩

end HighPerformance.MEOrderBook
