import HighPerformance.MEOrderBookGreedy

/-!
# The ledger of the order book

The messages of a whole run beside the book that the run leaves: what was executed and what was
cancelled of an order, what rests of it, and what the two sides of all trades amount to. `Effect`
says once what a request does to the levels and which messages it sends; the entries of the ledger
are read off it.
-/

namespace HighPerformance.MEOrderBook
open LevelBook FallibleRun

/-! ## Messages and runs -/

/-- The quantity that the responses say was executed of one order. -/
def execQtyOf (key : ClientOrderKey) : Outgoing → ℕ
  | .response r => if r.type = .filled ∧ (r.clientId, r.clientOrderId) = key then r.execQty else 0
  | .update _ => 0

/-- The quantity that the responses say was left of an order when it was cancelled. -/
def canceledQtyOf (key : ClientOrderKey) : Outgoing → ℕ
  | .response r =>
      if r.type = .canceled ∧ (r.clientId, r.clientOrderId) = key then r.leavesQty else 0
  | .update _ => 0

/-- The quantity that the responses say was bought, or sold. -/
def sideQtyOf (side : Side) : Outgoing → ℕ
  | .response r => if r.type = .filled ∧ r.side = side then r.execQty else 0
  | .update _ => 0

/-- The quantity that the market data says was traded. -/
def tradedQtyOf : Outgoing → ℕ
  | .response _ => 0
  | .update u => if u.type = .trade then u.qty else 0

def sumOut (f : Outgoing → ℕ) (out : List Outgoing) : ℕ := (out.map f).sum

def Request.qtyOf (key : ClientOrderKey) : Request → ℕ
  | .add clientId clientOrderId _ _ _ qty => if (clientId, clientOrderId) = key then qty else 0
  | .cancel _ _ _ => 0

def orderedQty (key : ClientOrderKey) (rs : List Request) : ℕ := (rs.map (Request.qtyOf key)).sum

/-- What the book holds of the order that its table has under `key`. -/
def restingQty (m : MEOrderBook) (key : ClientOrderKey) : ℕ :=
  match m.book.idToOrder key with
  | none => 0
  | some p => (m.book.order p).qty

/-- A request, with its messages behind those of the requests before it. -/
def stepSending (x : MEOrderBook × List Outgoing) (r : Request) :
    Except Fault (MEOrderBook × List Outgoing) :=
  (x.1.handle r).map fun y => (y.1, x.2 ++ y.2)

/-- What a request that returns does to the levels and sends. -/
inductive Effect (S S' : Shape MEOrderIds) : Request → List Outgoing → Prop where
  | rejects (cid oid tid : ℕ) (same : S' = S) :
      Effect S S' (.cancel cid oid tid) [rejection cid oid tid]
  | cancels (cid oid tid : ℕ) (d : Bool) (u w : List (PriceLevel MEOrderIds))
      (L : PriceLevel MEOrderIds) (x y : List (Resting MEOrderIds)) (o : Resting MEOrderIds)
      (key : meBookKind.key o.ident = (cid, oid)) (level : L ∈ S d) (orders : L.orders = x ++ o :: y)
      (gone : OrderGone S S' d u L w o (x ++ y)) :
      Effect S S' (.cancel cid oid tid)
        [.update ⟨.cancel, o.ident.marketOrderId, tid, o.side, L.price, 0, o.priority⟩,
          .response ⟨.canceled, cid, tid, oid, o.ident.marketOrderId, o.side, L.price, qtyInvalid,
            o.qty⟩]
  | fills (cid oid tid mid : ℕ) (e : Bool) (price qty : ℕ) (i : Incoming)
      (r : ℕ × List (ℕ × Resting MEOrderIds) × List Outgoing)
      (incoming : i = ⟨cid, oid, tid, sideOf e, price, mid % 2 ^ 32⟩)
      (swept : r = sweep i (stopsFor e price) qty (Shape.queue (S (!e))))
      (left : r.1 = 0) (queue : Shape.queue (S' (!e)) = r.2.1) (own : S' e = S e) :
      Effect S S' (.add cid oid tid (sideOf e) price qty)
        (acceptance cid oid tid mid (sideOf e) price qty :: r.2.2)
  | rests (cid oid tid mid : ℕ) (e : Bool) (price qty : ℕ) (i : Incoming)
      (r : ℕ × List (ℕ × Resting MEOrderIds) × List Outgoing) (S₁ : Shape MEOrderIds) (p : Ptr)
      (priority : ℕ) (incoming : i = ⟨cid, oid, tid, sideOf e, price, mid % 2 ^ 32⟩)
      (swept : r = sweep i (stopsFor e price) qty (Shape.queue (S (!e))))
      (left : r.1 ≠ 0) (queue : Shape.queue (S₁ (!e)) = r.2.1) (own : S₁ e = S e)
      (added : OrderAdded S₁ S' e price ⟨p, ⟨tid, cid, oid, mid⟩, sideOf e, r.1, priority⟩) :
      Effect S S' (.add cid oid tid (sideOf e) price qty)
        (acceptance cid oid tid mid (sideOf e) price qty :: r.2.2 ++
          [.update ⟨.add, mid, tid, sideOf e, price, r.1, priority⟩])

instance (m : MEOrderBook) : DecidablePred m.KeepsAskOrder
  | .add _ _ _ .sell price qty =>
      match h : m.book.asksByPrice with
      | none => isTrue (by simp [KeepsAskOrder, h])
      | some l => decidable_of_iff (bidVolume m.book price < qty →
          (m.book.level l).nextEntry ≠ some l → (m.book.level l).price ≤ price)
          (by simp [KeepsAskOrder, h])
  | .add _ _ _ .invalid _ _ | .add _ _ _ .buy _ _ | .add _ _ _ .max _ _
  | .add _ _ _ (.unnamed _) _ _ | .cancel _ _ _ => isTrue trivial

section Sums
variable {f : Outgoing → ℕ} {key : ClientOrderKey} {side : Side}

@[simp] theorem sumOut_nil : sumOut f [] = 0 := rfl

@[simp] theorem sumOut_cons {x : Outgoing} {out : List Outgoing} :
    sumOut f (x :: out) = f x + sumOut f out := by
  simp only [sumOut, List.map_cons, List.sum_cons]

@[simp] theorem sumOut_append {out out' : List Outgoing} :
    sumOut f (out ++ out') = sumOut f out + sumOut f out' := by
  simp only [sumOut, List.map_append, List.sum_append]

@[simp] theorem execQtyOf_update {u : MEMarketUpdate} : execQtyOf key (.update u) = 0 := rfl

@[simp] theorem canceledQtyOf_update {u : MEMarketUpdate} : canceledQtyOf key (.update u) = 0 := rfl

@[simp] theorem orderedQty_append {rs rs' : List Request} :
    orderedQty key (rs ++ rs') = orderedQty key rs + orderedQty key rs' := by
  simp only [orderedQty, List.map_append, List.sum_append]

@[simp] theorem orderedQty_singleton {r : Request} : orderedQty key [r] = r.qtyOf key := by
  simp [orderedQty]

end Sums

/-! ## One request -/

section Requests
variable {m : MEOrderBook} {S S' : Shape MEOrderIds} {used : List ClientOrderKey}

theorem Good.weaken {key : ClientOrderKey} (h : Good m S used) : Good m S (key :: used) where
  rep := h.rep
  sided := h.sided
  fifo := h.fifo
  bound o ho := (h.bound o ho).trans (by simp)
  mem_used o ho := List.mem_cons_of_mem _ (h.mem_used o ho)

theorem effect_cancel {cid oid : ℕ} (tid : ℕ) (h : Good m S used) (hc : cid < meMaxNumClients)
    (ho : oid < meMaxOrderIds) :
    ∃ m' S' out, m.handle (.cancel cid oid tid) = .ok (m', out) ∧ Good m' S' used ∧
      Effect S S' (.cancel cid oid tid) out := by
  rcases cancel_spec tid h.rep hc ho with
    ⟨hok, -⟩ | ⟨m', S', d, u, L, w, x, o, y, out, hok, hrep, -, -, hkey, hS, hxy, hgone, rfl⟩
  · exact ⟨m, S, _, hok, h, .rejects cid oid tid rfl⟩
  · have hL : L ∈ S d := by simp [hS]
    have hcontents : S.contents d L.price = x ++ o :: y := by
      rw [h.rep.shaped.levels.contents_eq hL, hxy]
    refine ⟨m', S', _, hok, h.reduce hrep (OrderGone.reduced hgone hcontents), ?_⟩
    exact .cancels cid oid tid d u w L x y o hkey hL hxy hgone

theorem effect_add {cid oid price qty : ℕ} {side : Side} (tid : ℕ) (h : Good m S used)
    (hv : (Request.add cid oid tid side price qty).Valid) (hnew : (cid, oid) ∉ used)
    (hk : KeepsAskOrder m (.add cid oid tid side price qty)) (hlen : used.length + 1 < 2 ^ 64) :
    (∃ m' S' out, m.handle (.add cid oid tid side price qty) = .ok (m', out) ∧
      Good m' S' ((cid, oid) :: used) ∧ Effect S S' (.add cid oid tid side price qty) out) ∨
    m.handle (.add cid oid tid side price qty) = .error MemPool.outOfSpace := by
  obtain ⟨hc, ho, hside, hp, -⟩ := hv
  obtain ⟨e, rfl⟩ : ∃ e, side = sideOf e := by
    rcases hside with rfl | rfl
    · exact ⟨true, rfl⟩
    · exact ⟨false, rfl⟩
  have hkeys : ∀ x ∈ S.orders, meBookKind.key x.ident ≠ (cid, oid) :=
    fun x hx he => hnew (he ▸ h.mem_used x hx)
  set i : Incoming := ⟨cid, oid, tid, sideOf e, price, m.nextMarketOrderId % 2 ^ 32⟩ with hi
  set r := sweep i (stopsFor e price) qty (Shape.queue (S (!e))) with hr
  have hstart : r.1 ≠ 0 → (∀ M ∈ S e, M.price ≠ price) →
      SearchStarts meBookKind (sideOf e) price (S e) := by
    intro hne _
    apply searchStarts_of_keeps h.rep hk
    rintro rfl
    rw [hr, sweep_leaves (stopsFor_mono h.rep price)] at hne
    rw [bidVolume_eq h.rep]
    simp only [Bool.not_false] at hne
    omega
  obtain ⟨m₁, S₁, hm₁, hcases⟩ := add_spec tid h.rep h.sided hp
    (checkClientOrderKey_ok hc ho) hkeys i hi r hr hstart
  have hgood₁ : Good m₁ S₁ used := h.reduce hm₁.rep (MatchedTo.reduced (hr ▸ hm₁))
  have hown : S₁ e = S e := by
    have hother := hm₁.other
    rwa [Bool.not_not] at hother
  rcases hcases with ⟨h0, hok⟩ | ⟨hne, m', S', p, hok, hrep, -, -, hadd⟩ | ⟨-, herr⟩
  · left
    refine ⟨m₁, S₁, _, hok, hgood₁.weaken, ?_⟩
    exact .fills cid oid tid _ e price qty i r hi hr h0 hm₁.queue hown
  · left
    refine ⟨m', S', _, hok, hgood₁.add hrep hadd rfl rfl hlen rfl, ?_⟩
    exact .rests cid oid tid _ e price qty i r S₁ p _ hi hr hne hm₁.queue hown hadd
  · exact .inr herr

end Requests

/-! ## Runs -/

section Runs
variable {m : MEOrderBook} {out : List Outgoing} {rs : List Request}

theorem meets_sending {G : MEOrderBook → Request → Prop} (h : Meets step G m rs) :
    Meets stepSending (fun x r => G x.1 r) (m, out) rs := by
  induction rs generalizing m out with
  | nil => trivial
  | cons r rs ih =>
    refine ⟨h.1, fun x hx => ?_⟩
    obtain ⟨y, hy, rfl⟩ := map_eq_ok hx
    apply ih (h.2 y.1 _)
    rw [step, hy]
    rfl

theorem length_newKeys_lt (hvalid : ∀ r ∈ rs, r.Valid)
    (hkeys : (rs.filterMap Request.newKey).Nodup) :
    (rs.filterMap Request.newKey).length < 2 ^ 63 := by
  apply length_used_lt hkeys
  intro k hk
  obtain ⟨r, hr, hrk⟩ := List.mem_filterMap.mp hk
  have hv := hvalid r hr
  cases r with
  | cancel _ _ _ => simp [Request.newKey] at hrk
  | add c o _ _ _ _ =>
    simp only [Request.newKey, Option.some.injEq] at hrk
    subst hrk
    exact ⟨hv.1, hv.2.1⟩

/-- Invariant rule for the runs of valid requests with fresh identifications: what every effect
keeps holds of the requests, the levels and the messages of the run. -/
theorem run_effects {I : List Request → Shape MEOrderIds → List Outgoing → Prop} (tickerId : ℕ)
    (h₀ : I [] (fun _ => []) [])
    (hstep : ∀ done r b S S' used out sent, Good b S used → I done S out → r.Valid →
      Effect S S' r sent → I (done ++ [r]) S' (out ++ sent))
    (hvalid : ∀ r ∈ rs, r.Valid) (hkeys : (rs.filterMap Request.newKey).Nodup)
    (hsafe : Meets step KeepsAskOrder (init tickerId) rs)
    (hok : run stepSending (init tickerId, []) rs = .ok (m, out)) :
    ∃ S, Good m S (rs.filterMap Request.newKey).reverse ∧ I rs S out := by
  have hrun := run_progress_history (E := fun e => e = MemPool.outOfSpace)
    (Q := fun done x => ∃ S, Good x.1 S (done.filterMap Request.newKey).reverse ∧ I done S x.2)
    (s := (init tickerId, [])) ⟨_, good_init tickerId, h₀⟩ (meets_sending hsafe) ?_
  · rcases hrun with ⟨x, hx, hQ⟩ | ⟨e, herr, -⟩
    · rw [hok] at hx
      cases hx
      exact hQ
    · rw [hok] at herr
      cases herr
  · rintro done r ⟨b, sent⟩ hpre ⟨S, hgood, hI⟩ hkeep
    have hr : r.Valid := hvalid r (hpre.subset (by simp))
    have hnd := hkeys.sublist (hpre.filterMap Request.newKey).sublist
    rw [List.filterMap_append] at hnd ⊢
    have hdone : ∀ r ∈ done, r.Valid := fun r hr => hvalid r (hpre.subset (by simp [hr]))
    have hlen := length_newKeys_lt hdone (List.nodup_append.mp hnd).1
    cases r with
    | cancel cid oid tid =>
      obtain ⟨b', S', more, hcall, hgood', heffect⟩ := effect_cancel tid hgood hr.1 hr.2
      refine .inl ⟨(b', sent ++ more), ?_, S', ?_, ?_⟩
      · simp only [stepSending, hcall]
        rfl
      · simpa [List.filterMap_cons, Request.newKey] using hgood'
      · exact hstep _ _ _ _ _ _ _ _ hgood hI hr heffect
    | add cid oid tid side price qty =>
      have hnew : (cid, oid) ∉ (done.filterMap Request.newKey).reverse := by
        rw [List.mem_reverse]
        intro hm
        exact (List.nodup_append.mp hnd).2.2 _ hm _ (by simp [Request.newKey]) rfl
      rcases effect_add tid hgood hr hnew hkeep (by rw [List.length_reverse]; omega) with
        ⟨b', S', more, hcall, hgood', heffect⟩ | herr
      · refine .inl ⟨(b', sent ++ more), ?_, S', ?_, ?_⟩
        · simp only [stepSending, hcall]
          rfl
        · simpa [Request.newKey] using hgood'
        · exact hstep _ _ _ _ _ _ _ _ hgood hI hr heffect
      · refine .inr ⟨_, ?_, rfl⟩
        simp only [stepSending, herr]
        rfl

end Runs

/-! ## Quantities -/

def heldQty (key : ClientOrderKey) (o : Resting MEOrderIds) : ℕ :=
  if meBookKind.key o.ident = key then o.qty else 0

/-- What the levels hold of an order. -/
def openQty (S : Shape MEOrderIds) (key : ClientOrderKey) : ℕ := (S.orders.map (heldQty key)).sum

def queueQty (key : ClientOrderKey) (q : List (ℕ × Resting MEOrderIds)) : ℕ :=
  (q.map fun x => heldQty key x.2).sum

def Incoming.key (i : Incoming) : ClientOrderKey := (i.clientId, i.clientOrderId)

section Quantities
variable {S S' : Shape MEOrderIds} {m : MEOrderBook} {r : Request} {out : List Outgoing}
  {i : Incoming} {stops : ℕ → Bool} {leaves price : ℕ} {q : List (ℕ × Resting MEOrderIds)}
  {o : Resting MEOrderIds} {key : ClientOrderKey}

theorem openQty_eq (d : Bool) : openQty S key =
    queueQty key (Shape.queue (S d)) + queueQty key (Shape.queue (S (!d))) := by
  have hqueue : ∀ ls : List (PriceLevel MEOrderIds),
      queueQty key (Shape.queue ls) = ((ls.flatMap (·.orders)).map (heldQty key)).sum := by
    intro ls
    rw [← Shape.queue_orders, List.map_map]
    rfl
  rw [openQty, ((S.orders_perm d).map _).sum_nat, List.map_append, List.sum_append, hqueue, hqueue]

theorem openQty_added {d : Bool} (h : OrderAdded S S' d price o) :
    openQty S' key = openQty S key + heldQty key o := by
  rw [openQty, (h.perm.map _).sum_nat, List.map_cons, List.sum_cons, add_comm]
  rfl

theorem execQty_trade : sumOut (execQtyOf key) (tradeMessages i leaves price o) =
    (if i.key = key then min leaves o.qty else 0) +
      if meBookKind.key o.ident = key then min leaves o.qty else 0 := by
  unfold tradeMessages
  by_cases hfills : o.qty ≤ leaves
  · simp [hfills, execQtyOf, Incoming.key, meBookKind]
  · simp [hfills, execQtyOf, Incoming.key, meBookKind]
    rfl

theorem canceledQty_trade : sumOut (canceledQtyOf key) (tradeMessages i leaves price o) = 0 := by
  unfold tradeMessages
  by_cases hfills : o.qty ≤ leaves
  · simp [hfills, canceledQtyOf]
  · simp [hfills, canceledQtyOf]

theorem canceledQty_sweep : sumOut (canceledQtyOf key) (sweep i stops leaves q).2.2 = 0 := by
  induction q generalizing leaves with
  | nil => rfl
  | cons x q ih =>
    unfold sweep
    split_ifs with hend hfills
    · rfl
    · rw [sumOut_append, canceledQty_trade, ih]
    · exact canceledQty_trade

/-- What the sweep executes of an order is what it takes from the queue of it, and what it takes
from the incoming quantity if it is the incoming order. -/
theorem execQty_sweep (i : Incoming) (stops : ℕ → Bool) (leaves : ℕ)
    (q : List (ℕ × Resting MEOrderIds)) (key : ClientOrderKey) :
    sumOut (execQtyOf key) (sweep i stops leaves q).2.2 +
    queueQty key (sweep i stops leaves q).2.1 +
      (if i.key = key then (sweep i stops leaves q).1 else 0) =
    queueQty key q + if i.key = key then leaves else 0 := by
  induction q generalizing leaves with
  | nil => simp [sweep, queueQty]
  | cons x q ih =>
    obtain ⟨price, o⟩ := x
    have hcons : ∀ o', queueQty key ((price, o') :: q) = heldQty key o' + queueQty key q := by
      intro o'
      rw [queueQty, List.map_cons, List.sum_cons]
      rfl
    rw [sweep]
    by_cases hend : leaves = 0 ∨ stops price = true
    · simp only [if_pos hend, sumOut_nil, Nat.zero_add]
    by_cases hfills : o.qty ≤ leaves
    · have hrest := ih (leaves - o.qty)
      simp only [if_neg hend, if_pos hfills, sumOut_append, execQty_trade, hcons, heldQty,
        Nat.min_eq_right hfills]
      by_cases hkey : i.key = key
      · simp only [if_pos hkey] at hrest ⊢
        omega
      · simp only [if_neg hkey] at hrest ⊢
        omega
    · have hmin : min leaves o.qty = leaves := Nat.min_eq_left (by omega)
      simp only [if_neg hend, if_neg hfills, execQty_trade, hcons, heldQty, hmin]
      split_ifs <;> omega

theorem execQty_swept (key : ClientOrderKey) {S₁ : Shape MEOrderIds} {e : Bool} {qty : ℕ}
    {r : ℕ × List (ℕ × Resting MEOrderIds) × List Outgoing}
    (hr : r = sweep i (stopsFor e price) qty (Shape.queue (S (!e))))
    (hqueue : Shape.queue (S₁ (!e)) = r.2.1) (hown : S₁ e = S e) :
    sumOut (execQtyOf key) r.2.2 + openQty S₁ key + (if i.key = key then r.1 else 0) =
      openQty S key + if i.key = key then qty else 0 := by
  have hsweep := execQty_sweep i (stopsFor e price) qty (Shape.queue (S (!e))) key
  rw [← hr, ← hqueue] at hsweep
  rw [openQty_eq e, openQty_eq (S := S) e, hown]
  omega

theorem heldQty_new {p : Ptr} {cid oid tid mid qty priority : ℕ} {side : Side} :
    heldQty key ⟨p, ⟨tid, cid, oid, mid⟩, side, qty, priority⟩ =
      if (cid, oid) = key then qty else 0 := by
  by_cases hkey : (cid, oid) = key
  · rw [if_pos hkey]
    exact if_pos hkey
  · rw [if_neg hkey]
    exact if_neg hkey

/-- The acceptance and the update of a new order are no entries of the ledger. -/
theorem acceptance_entries {cid oid tid mid qty : ℕ} {side : Side} :
    execQtyOf key (acceptance cid oid tid mid side price qty) = 0 ∧
      canceledQtyOf key (acceptance cid oid tid mid side price qty) = 0 := by
  simp [acceptance, execQtyOf, canceledQtyOf]

/-- The entries of the ledger after one request. -/
theorem Effect.ledger (h : Effect S S' r out) (key : ClientOrderKey) : sumOut (execQtyOf key) out +
    sumOut (canceledQtyOf key) out + openQty S' key = openQty S key + r.qtyOf key := by
  cases h with
  | rejects cid oid tid same =>
    subst same
    simp [rejection, execQtyOf, canceledQtyOf, Request.qtyOf]
  | cancels cid oid tid d u w L x y o hkey level orders gone =>
    have hopen : openQty S key = heldQty key o + openQty S' key := by
      rw [openQty, (gone.perm.map _).sum_nat, List.map_cons, List.sum_cons]
      rfl
    rw [hopen, heldQty, hkey]
    simp [execQtyOf, canceledQtyOf, Request.qtyOf]
  | fills cid oid tid mid e price qty i r incoming swept left queue own =>
    have hexec := execQty_swept key swept queue own
    have hcancel : sumOut (canceledQtyOf key) r.2.2 = 0 := swept ▸ canceledQty_sweep
    have hkey : i.key = (cid, oid) := by rw [incoming, Incoming.key]
    rw [left, ite_self, hkey] at hexec
    rw [sumOut_cons, sumOut_cons, acceptance_entries.1, acceptance_entries.2, hcancel,
      Request.qtyOf]
    omega
  | rests cid oid tid mid e price qty i r S₁ p priority incoming swept left queue own added =>
    have hexec := execQty_swept key swept queue own
    have hcancel : sumOut (canceledQtyOf key) r.2.2 = 0 := swept ▸ canceledQty_sweep
    have hkey : i.key = (cid, oid) := by rw [incoming, Incoming.key]
    rw [hkey] at hexec
    rw [openQty_added added, heldQty_new]
    simp only [sumOut_append, sumOut_cons, sumOut_nil, acceptance_entries.1, acceptance_entries.2,
      hcancel, execQtyOf_update, canceledQtyOf_update, Request.qtyOf]
    omega

theorem restingQty_eq (h : Rep m S) : m.restingQty key = openQty S key := by
  have hnone : ∀ os : List (Resting MEOrderIds), (∀ o ∈ os, meBookKind.key o.ident ≠ key) →
      (os.map (heldQty key)).sum = 0 := by
    intro os hos
    rw [List.sum_eq_zero_iff_forall_eq_nat]
    intro n hn
    obtain ⟨o, ho, rfl⟩ := List.mem_map.mp hn
    exact if_neg (hos o ho)
  unfold restingQty
  cases hid : m.book.idToOrder key with
  | none =>
    refine (hnone _ fun o ho hkey => ?_).symm
    have hsome := (h.indexed key o.addr).mpr ⟨o, ho, rfl, hkey⟩
    rw [hid] at hsome
    cases hsome
  | some p =>
    obtain ⟨o, ho, rfl, hkey⟩ := (h.indexed key p).mp hid
    obtain ⟨x, y, hxy⟩ := List.append_of_mem ho
    have hnd : (S.orders.map (·.addr)).Nodup := h.shaped.nodup
    have hrest : ∀ z ∈ x ++ y, meBookKind.key z.ident ≠ key := by
      intro z hz hkz
      have hzS : z ∈ S.orders := by
        rw [hxy]
        simp only [List.mem_append, List.mem_cons] at hz ⊢
        tauto
      have hsome := (h.indexed key z.addr).mpr ⟨z, hzS, rfl, hkz⟩
      rw [hid, Option.some.injEq] at hsome
      rw [hxy, (List.perm_middle.map _).nodup_iff, List.map_cons, List.nodup_cons] at hnd
      exact hnd.1 (hsome ▸ List.mem_map_of_mem hz)
    obtain ⟨d, L, hL, hoL⟩ := Shape.mem_orders.mp ho
    have hdata := ((h.shaped.level d L hL).orders o hoL).2
    simp only [LevelBook.orderData, Prod.mk.injEq] at hdata
    have hperm : S.orders.Perm (o :: (x ++ y)) := hxy ▸ List.perm_middle
    rw [openQty, (hperm.map _).sum_nat, List.map_cons, List.sum_cons, hnone _ hrest, heldQty,
      if_pos hkey]
    exact hdata.2.2.2.1

end Quantities

theorem orderedQty_of_mem {rs : List Request} {cid oid tid price qty : ℕ} {side : Side}
    (hkeys : (rs.filterMap Request.newKey).Nodup)
    (hmem : Request.add cid oid tid side price qty ∈ rs) : orderedQty (cid, oid) rs = qty := by
  have hnone : ∀ rs : List Request, (cid, oid) ∉ rs.filterMap Request.newKey →
      orderedQty (cid, oid) rs = 0 := by
    intro rs hrs
    rw [orderedQty, List.sum_eq_zero_iff_forall_eq_nat]
    intro n hn
    obtain ⟨r, hr, rfl⟩ := List.mem_map.mp hn
    cases r with
    | cancel _ _ _ => rfl
    | add c o _ _ _ _ =>
      refine if_neg fun hkey => hrs (List.mem_filterMap.mpr ⟨_, hr, ?_⟩)
      rw [Request.newKey, hkey]
  obtain ⟨before, after, rfl⟩ := List.append_of_mem hmem
  have hnew : (Request.add cid oid tid side price qty).newKey = some (cid, oid) := rfl
  rw [List.filterMap_append, List.filterMap_cons_some hnew, List.nodup_append,
    List.nodup_cons] at hkeys
  have hbefore : (cid, oid) ∉ before.filterMap Request.newKey :=
    fun hm => hkeys.2.2 _ hm _ List.mem_cons_self rfl
  rw [orderedQty_append, hnone before hbefore, orderedQty, List.map_cons, List.sum_cons]
  have hafter := hnone after hkeys.2.1.1
  rw [orderedQty] at hafter
  rw [hafter, Request.qtyOf, if_pos rfl]
  omega

theorem run_entries (tickerId : ℕ) {rs : List Request} (hvalid : ∀ r ∈ rs, r.Valid)
    (hkeys : (rs.filterMap Request.newKey).Nodup)
    (hsafe : Meets step KeepsAskOrder (init tickerId) rs) {m : MEOrderBook} {out : List Outgoing}
    (hok : run stepSending (init tickerId, []) rs = .ok (m, out)) (key : ClientOrderKey) :
    sumOut (execQtyOf key) out + sumOut (canceledQtyOf key) out + m.restingQty key =
      orderedQty key rs := by
  have hstep : ∀ done r b S S' used sent more, Good b S used →
      sumOut (execQtyOf key) sent + sumOut (canceledQtyOf key) sent + openQty S key =
        orderedQty key done → r.Valid → Effect S S' r more →
      sumOut (execQtyOf key) (sent ++ more) + sumOut (canceledQtyOf key) (sent ++ more) +
        openQty S' key = orderedQty key (done ++ [r]) := by
    intro done r b S S' used sent more _ hdone _ heffect
    have hmore := heffect.ledger key
    rw [sumOut_append, sumOut_append, orderedQty_append, orderedQty_singleton]
    omega
  obtain ⟨S, hgood, hledger⟩ := run_effects (I := fun done S sent =>
    sumOut (execQtyOf key) sent + sumOut (canceledQtyOf key) sent + openQty S key =
      orderedQty key done) tickerId rfl hstep hvalid hkeys hsafe hok
  rw [restingQty_eq hgood.rep]
  exact hledger

/-- In every run of valid requests with fresh identifications in which no sell order comes to rest
below the best of several ask levels, the quantity of every order is what was executed of it, what
was cancelled of it and what rests of it. -/
theorem run_ledger (tickerId : ℕ) (rs : List Request) (hvalid : ∀ r ∈ rs, r.Valid)
    (hkeys : (rs.filterMap Request.newKey).Nodup)
    (hsafe : Meets step KeepsAskOrder (init tickerId) rs) {m : MEOrderBook} {out : List Outgoing}
    (hok : run stepSending (init tickerId, []) rs = .ok (m, out)) {cid oid tid price qty : ℕ}
    {side : Side} (hmem : Request.add cid oid tid side price qty ∈ rs) :
    sumOut (execQtyOf (cid, oid)) out + sumOut (canceledQtyOf (cid, oid)) out +
      m.restingQty (cid, oid) = qty := by
  rw [run_entries tickerId hvalid hkeys hsafe hok, orderedQty_of_mem hkeys hmem]

/-- Sells at 90, 110 and 100, a buy at 95 that trades with the first, and a cancellation. -/
def fiveRequests : List Request :=
  [.add 0 0 0 .sell 90 5, .add 0 1 0 .sell 110 5, .add 0 2 0 .sell 100 5, .add 1 0 0 .buy 95 7,
    .cancel 0 1 0]

theorem fiveRequests_return :
    ∃ m out, run stepSending (init 0, []) fiveRequests = .ok (m, out) := by
  have hok : (run stepSending (init 0, []) fiveRequests).map (fun _ => ()) = .ok () := by
    decide +kernel
  obtain ⟨⟨m, out⟩, hrun, -⟩ := map_eq_ok hok
  exact ⟨m, out, hrun⟩

theorem run_ledger_five : ∃ m out, run stepSending (init 0, []) fiveRequests = .ok (m, out) ∧
    sumOut (execQtyOf (1, 0)) out + sumOut (canceledQtyOf (1, 0)) out + m.restingQty (1, 0) =
      7 := by
  obtain ⟨m, out, hrun⟩ := fiveRequests_return
  have hbuy : Request.add 1 0 0 .buy 95 7 ∈ fiveRequests := by simp [fiveRequests]
  exact ⟨m, out, hrun, run_ledger 0 fiveRequests (by decide) (by decide) (by decide +kernel) hrun
    hbuy⟩

/-! ## Both sides of a trade -/

section Trades
variable {S S' : Shape MEOrderIds} {m : MEOrderBook} {r : Request} {out : List Outgoing}
  {i : Incoming} {stops : ℕ → Bool} {leaves price : ℕ} {q : List (ℕ × Resting MEOrderIds)}
  {o : Resting MEOrderIds} {d e : Bool} {used : List ClientOrderKey}

theorem Good.queue_side (h : Good m S used) : ∀ x ∈ Shape.queue (S d),
    x.2.side = sideOf d ∧ x.2 ∈ S.contents d x.1 := by
  intro x hx
  obtain ⟨L, hL, hx⟩ := List.mem_flatMap.mp hx
  obtain ⟨o, ho, rfl⟩ := List.mem_map.mp hx
  have hside := ((h.rep.shaped.level d L hL).orders o ho).1
  rw [h.rep.shaped.level_side h.sided hL] at hside
  exact ⟨hside, Shape.mem_contents.mpr ⟨L, hL, rfl, ho⟩⟩

/-- Every message of a sweep is one of a trade at an accepted price of the queue. -/
theorem mem_sweep {msg : Outgoing} (h : msg ∈ (sweep i stops leaves q).2.2) :
    ∃ x ∈ q, ∃ l, stops x.1 = false ∧ msg ∈ tradeMessages i l x.1 x.2 := by
  rw [sweep_messages] at h
  obtain ⟨f, hf, hmsg⟩ := List.mem_flatMap.mp h
  induction q generalizing leaves with
  | nil => cases hf
  | cons x q ih =>
    obtain ⟨price, o⟩ := x
    rw [greedy] at hf
    by_cases hend : leaves = 0 ∨ stops price = true
    · rw [if_pos hend] at hf
      cases hf
    · rw [if_neg hend] at hf
      rcases List.mem_cons.mp hf with rfl | hf
      · exact ⟨(price, o), by simp, leaves, by simpa using (not_or.mp hend).2, hmsg⟩
      · obtain ⟨y, hy, l, hstop, hmem⟩ :=
          ih (sweep_messages ▸ List.mem_flatMap.mpr ⟨f, hf, hmsg⟩) hf
        exact ⟨y, List.mem_cons_of_mem _ hy, l, hstop, hmem⟩

theorem sideQty_trade (hi : i.side = sideOf e) (ho : o.side = sideOf (!e)) :
    sumOut (sideQtyOf (sideOf d)) (tradeMessages i leaves price o) =
      sumOut tradedQtyOf (tradeMessages i leaves price o) := by
  unfold tradeMessages
  by_cases hfills : o.qty ≤ leaves
  · cases d <;> cases e <;> simp [hfills, hi, ho, sideQtyOf, tradedQtyOf, sideOf]
  · cases d <;> cases e <;> simp [hfills, hi, ho, sideQtyOf, tradedQtyOf, sideOf]

theorem sideQty_sweep (stops : ℕ → Bool) (leaves : ℕ) (d : Bool) (hi : i.side = sideOf e)
    (hq : ∀ x ∈ q, x.2.side = sideOf (!e)) :
    sumOut (sideQtyOf (sideOf d)) (sweep i stops leaves q).2.2 =
      sumOut tradedQtyOf (sweep i stops leaves q).2.2 := by
  induction q generalizing leaves with
  | nil => rfl
  | cons x q ih =>
    have ho := hq x (by simp)
    have hrest := fun leaves => ih leaves fun y hy => hq y (by simp [hy])
    rw [sweep]
    split_ifs with hend hfills
    · rfl
    · rw [sumOut_append, sumOut_append, sideQty_trade hi ho, hrest]
    · exact sideQty_trade hi ho

/-- What is bought is what is sold, and what the market data says. -/
theorem Effect.balanced (h : Effect S S' r out) (hgood : Good m S used) (d : Bool) :
    sumOut (sideQtyOf (sideOf d)) out = sumOut tradedQtyOf out := by
  have hside : ∀ e, ∀ x ∈ Shape.queue (S e), x.2.side = sideOf e :=
    fun e x hx => (hgood.queue_side x hx).1
  cases h with
  | rejects cid oid tid same => simp [rejection, sideQtyOf, tradedQtyOf]
  | cancels cid oid tid d u w L x y o hkey level orders gone => simp [sideQtyOf, tradedQtyOf]
  | fills cid oid tid mid e price qty i r incoming swept left queue own =>
    have hi : i.side = sideOf e := by rw [incoming]
    have hsweep := sideQty_sweep (stopsFor e price) qty d hi (hside (!e))
    rw [← swept] at hsweep
    simp [acceptance, hsweep, sideQtyOf, tradedQtyOf]
  | rests cid oid tid mid e price qty i r S₁ p priority incoming swept left queue own added =>
    have hi : i.side = sideOf e := by rw [incoming]
    have hsweep := sideQty_sweep (stopsFor e price) qty d hi (hside (!e))
    rw [← swept] at hsweep
    simp [acceptance, hsweep, sideQtyOf, tradedQtyOf]

end Trades

/-- In every such run the buyers have been told of as much as the sellers, and both of as much as
the market data. -/
theorem run_balanced (tickerId : ℕ) (rs : List Request) (hvalid : ∀ r ∈ rs, r.Valid)
    (hkeys : (rs.filterMap Request.newKey).Nodup)
    (hsafe : Meets step KeepsAskOrder (init tickerId) rs) {m : MEOrderBook} {out : List Outgoing}
    (hok : run stepSending (init tickerId, []) rs = .ok (m, out)) :
    sumOut (sideQtyOf .buy) out = sumOut tradedQtyOf out ∧
      sumOut (sideQtyOf .sell) out = sumOut tradedQtyOf out := by
  have hstep : ∀ (done : List Request) r b S S' used sent more, Good b S used →
      (∀ d, sumOut (sideQtyOf (sideOf d)) sent = sumOut tradedQtyOf sent) → r.Valid →
      Effect S S' r more →
      ∀ d, sumOut (sideQtyOf (sideOf d)) (sent ++ more) = sumOut tradedQtyOf (sent ++ more) := by
    intro done r b S S' used sent more hgood hdone _ heffect d
    rw [sumOut_append, sumOut_append, hdone d, heffect.balanced hgood d]
  obtain ⟨S, -, hall⟩ := run_effects (I := fun _ _ sent =>
    ∀ d, sumOut (sideQtyOf (sideOf d)) sent = sumOut tradedQtyOf sent) tickerId (fun _ => rfl)
    hstep hvalid hkeys hsafe hok
  exact ⟨hall true, hall false⟩

theorem run_balanced_five : ∃ m out, run stepSending (init 0, []) fiveRequests = .ok (m, out) ∧
    sumOut (sideQtyOf .buy) out = sumOut tradedQtyOf out ∧
      sumOut (sideQtyOf .sell) out = sumOut tradedQtyOf out := by
  obtain ⟨m, out, hrun⟩ := fiveRequests_return
  exact ⟨m, out, hrun, run_balanced 0 fiveRequests (by decide) (by decide) (by decide +kernel) hrun⟩

end HighPerformance.MEOrderBook
