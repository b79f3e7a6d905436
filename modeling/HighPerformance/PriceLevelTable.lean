import HighPerformance.PriceLevels

/-!
# Entries of the table that are not looked up

`b.hide stale` is the book `b` without the entries of the table of the levels
under the indices `stale`. An operation at a price with another index neither
reads nor writes them, so it does the same to both books.
-/

namespace HighPerformance.LevelBook
variable {ι κ : Type}

def hide (b : LevelBook ι κ) (stale : List ℕ) : LevelBook ι κ :=
  { b with priceOrdersAtPrices := fun i => if i ∈ stale then none else b.priceOrdersAtPrices i }

section Hide
variable {k : BookKind ι κ} (b : LevelBook ι κ) (stale : List ℕ) {price : ℕ}

@[simp] theorem hide_nil : b.hide [] = b := by simp [hide]

@[simp] theorem order_hide (p : Ptr) : (b.hide stale).order p = b.order p := rfl
@[simp] theorem level_hide (l : Ptr) : (b.hide stale).level l = b.level l := rfl
@[simp] theorem best_hide (d : Bool) : (b.hide stale).best d = b.best d := rfl
@[simp] theorem orderPool_hide : (b.hide stale).orderPool = b.orderPool := rfl
@[simp] theorem idToOrder_hide : (b.hide stale).idToOrder = b.idToOrder := rfl
@[simp] theorem ordersAtPricePool_hide :
    (b.hide stale).ordersAtPricePool = b.ordersAtPricePool := rfl

theorem getOrdersAtPrice_hide (hp : priceToIndex price ∉ stale) :
    (b.hide stale).getOrdersAtPrice price = b.getOrdersAtPrice price := if_neg hp

theorem setOrdersAtPrice_hide (hp : priceToIndex price ∉ stale) (l : Option Ptr) :
    (b.hide stale).setOrdersAtPrice price l = (b.setOrdersAtPrice price l).hide stale := by
  have htable : Function.update (b.hide stale).priceOrdersAtPrices (priceToIndex price) l =
      ((b.setOrdersAtPrice price l).hide stale).priceOrdersAtPrices := by
    funext i
    by_cases hi : i = priceToIndex price
    · subst hi
      simp [hide, setOrdersAtPrice, hp]
    · simp [hide, setOrdersAtPrice, hi]
  unfold setOrdersAtPrice
  rw [htable]
  rfl

@[simp] theorem setPrevOrder_hide (p : Ptr) (q : Option Ptr) :
    (b.hide stale).setPrevOrder p q = (b.setPrevOrder p q).hide stale := rfl
@[simp] theorem setNextOrder_hide (p : Ptr) (q : Option Ptr) :
    (b.hide stale).setNextOrder p q = (b.setNextOrder p q).hide stale := rfl
@[simp] theorem setFirstOrder_hide (l : Ptr) (q : Option Ptr) :
    (b.hide stale).setFirstOrder l q = (b.setFirstOrder l q).hide stale := rfl
@[simp] theorem setPrevEntry_hide (l : Ptr) (q : Option Ptr) :
    (b.hide stale).setPrevEntry l q = (b.setPrevEntry l q).hide stale := rfl
@[simp] theorem setNextEntry_hide (l : Ptr) (q : Option Ptr) :
    (b.hide stale).setNextEntry l q = (b.setNextEntry l q).hide stale := rfl
@[simp] theorem setQty_hide (p : Ptr) (qty : ℕ) :
    (b.hide stale).setQty p qty = (b.setQty p qty).hide stale := rfl

@[simp] theorem setBest_hide (d : Bool) (l : Option Ptr) :
    (b.hide stale).setBest d l = (b.setBest d l).hide stale := by
  cases d <;> rfl

theorem seek_hide (side : Side) (best : Ptr) (fuel : ℕ) (target : Ptr) (addAfter : Bool) :
    seek (b.hide stale) side price best fuel target addAfter =
      seek b side price best fuel target addAfter := by
  induction fuel generalizing target addAfter with
  | zero => rfl
  | succ fuel ih => simp only [seek, level_hide, ih]

theorem findTarget_hide (side : Side) (best : Ptr) :
    findTarget k (b.hide stale) side price best = findTarget k b side price best := by
  simp only [findTarget, level_hide, ordersAtPricePool_hide, seek_hide]

theorem linkAfter_hide (l target : Ptr) :
    linkAfter (b.hide stale) l target = (linkAfter b l target).map (·.hide stale) := by
  simp only [linkAfter, setPrevEntry_hide, level_hide]
  cases deref ((b.setPrevEntry l (some target)).level target).nextEntry <;> rfl

theorem linkBefore_hide (l target : Ptr) :
    linkBefore (b.hide stale) l target = (linkBefore b l target).map (·.hide stale) := by
  simp only [linkBefore, setPrevEntry_hide, setNextEntry_hide, level_hide]
  cases deref (((b.setPrevEntry l (b.level target).prevEntry).setNextEntry l
    (some target)).level target).prevEntry <;> rfl

theorem updateBest_hide (l target best : Ptr) :
    updateBest (b.hide stale) l target best = (updateBest b l target best).hide stale := by
  simp only [updateBest, level_hide, setNextEntry_hide, setBest_hide]
  split <;> rfl

theorem appendOrder_hide (p l : Ptr) :
    appendOrder (b.hide stale) p l = (appendOrder b p l).map (·.hide stale) := by
  simp only [appendOrder, level_hide, order_hide]
  cases deref (b.level l).firstOrder with
  | error e => rfl
  | ok first =>
    simp only [bind, Except.bind]
    cases deref (b.order first).prevOrder <;> rfl

/-- A search that returns is followed by one of the two ways to link. -/
theorem addOrdersAtPrice_hide {l : Ptr} (hp : priceToIndex (b.level l).price ∉ stale) :
    addOrdersAtPrice k (b.hide stale) l = (addOrdersAtPrice k b l).map (·.hide stale) := by
  simp only [addOrdersAtPrice, level_hide, setOrdersAtPrice_hide b stale hp, best_hide]
  cases (b.setOrdersAtPrice (b.level l).price (some l)).best ((b.level l).side == .buy) with
  | none => simp only [setBest_hide]; rfl
  | some best =>
    simp only [findTarget_hide]
    cases findTarget k (b.setOrdersAtPrice (b.level l).price (some l)) (b.level l).side
        (b.level l).price best with
    | error e => rfl
    | ok r =>
      simp only [bind, Except.bind]
      by_cases hr : r.2 = true
      · by_cases hb : r.1 = best
        · simp only [hr, hb, if_true, linkAfter_hide]
          cases deref ((b.setOrdersAtPrice (b.level l).price (some l)).level best).prevEntry <;> rfl
        · simp only [hr, hb, if_true, if_false, linkAfter_hide]
          rfl
      · simp only [hr, linkBefore_hide]
        cases linkBefore (b.setOrdersAtPrice (b.level l).price (some l)) l r.1 with
        | error e => rfl
        | ok b' => exact congrArg Except.ok (updateBest_hide b' stale l r.1 best)

theorem openLevel_hide {p : Ptr} (hp : priceToIndex (b.order p).price ∉ stale) :
    openLevel k (b.hide stale) p = (openLevel k b p).map (·.hide stale) := by
  simp only [openLevel, setPrevOrder_hide, setNextOrder_hide, ordersAtPricePool_hide, order_hide]
  set c := (b.setPrevOrder p (some p)).setNextOrder p (some p) with hc
  have hprice : (c.order p).price = (b.order p).price := by
    simp [hc, setPrevOrder, setNextOrder, modifyOrder, order]
  cases hr : c.ordersAtPricePool.allocate
      { side := (c.order p).side, price := (c.order p).price, firstOrder := some p } with
  | error e => rfl
  | ok r =>
    obtain ⟨-, -, hstore⟩ := MemPool.allocate_eq_ok hr
    have hlevel : (r.2.get r.1).price = (b.order p).price := by
      simp [MemPool.get, hstore, hprice]
    exact addOrdersAtPrice_hide { c with ordersAtPricePool := r.2 } stale
      (show priceToIndex (r.2.get r.1).price ∉ stale by rwa [hlevel])

theorem joinLevel_hide {p : Ptr} (hp : priceToIndex (b.order p).price ∉ stale) :
    joinLevel k (b.hide stale) p = (joinLevel k b p).map (·.hide stale) := by
  simp only [joinLevel, order_hide, getOrdersAtPrice_hide b stale hp]
  cases b.getOrdersAtPrice (b.order p).price with
  | none => exact openLevel_hide b stale hp
  | some l => exact appendOrder_hide b stale p l

theorem addOrder_hide [DecidableEq κ] {p : Ptr} (hp : priceToIndex (b.order p).price ∉ stale) :
    addOrder k (b.hide stale) p = (addOrder k b p).map (·.hide stale) := by
  simp only [addOrder, joinLevel_hide b stale hp]
  cases joinLevel k b p with
  | error e => rfl
  | ok b' =>
    simp only [Except.map, bind, Except.bind, order_hide]
    cases k.checkKey (k.key (b'.order p).ident) <;> rfl

theorem unlinkLevel_hide (d : Bool) (l : Ptr) :
    unlinkLevel (b.hide stale) d l = (unlinkLevel b d l).map (·.hide stale) := by
  simp only [unlinkLevel, level_hide, best_hide, setBest_hide]
  by_cases hone : (b.level l).nextEntry = some l
  · simp only [hone, if_true]
    rfl
  · simp only [hone, if_false]
    cases hprev : (b.level l).prevEntry with
    | none => rfl
    | some before =>
      simp only [deref_some, bind, Except.bind, setNextEntry_hide, level_hide]
      cases ((b.setNextEntry before (b.level l).nextEntry).level l).nextEntry with
      | none => rfl
      | some after =>
        simp only [deref_some, setPrevEntry_hide, level_hide, setBest_hide]
        split <;> rfl

theorem removeOrdersAtPrice_hide (side : Side) (hp : priceToIndex price ∉ stale) :
    removeOrdersAtPrice (b.hide stale) side price =
      (removeOrdersAtPrice b side price).map (·.hide stale) := by
  simp only [removeOrdersAtPrice, getOrdersAtPrice_hide b stale hp]
  cases b.getOrdersAtPrice price with
  | none => rfl
  | some l =>
    simp only [deref_some, bind, Except.bind, unlinkLevel_hide]
    cases unlinkLevel b (side == .buy) l with
    | error e => rfl
    | ok b' =>
      simp only [Except.map, setOrdersAtPrice_hide b' stale hp, ordersAtPricePool_hide]
      cases (b'.setOrdersAtPrice price none).ordersAtPricePool.deallocate l <;> rfl

theorem unlinkOrder_hide (p : Ptr) (l : Option Ptr) :
    unlinkOrder (b.hide stale) p l = (unlinkOrder b p l).map (·.hide stale) := by
  simp only [unlinkOrder, order_hide]
  cases (b.order p).prevOrder with
  | none => rfl
  | some before =>
    cases (b.order p).nextOrder with
    | none => rfl
    | some after =>
      cases l with
      | none => rfl
      | some l =>
        simp only [deref_some, bind, Except.bind, setNextOrder_hide, setPrevOrder_hide, level_hide,
          setFirstOrder_hide]
        by_cases hfirst : (((b.setNextOrder before (some after)).setPrevOrder after
            (some before)).level l).firstOrder = some p
        · simp only [hfirst, if_true]
          rfl
        · simp only [hfirst, if_false]
          rfl

theorem leaveLevel_hide {p : Ptr} (hp : priceToIndex (b.order p).price ∉ stale) :
    leaveLevel (b.hide stale) p = (leaveLevel b p).map (·.hide stale) := by
  simp only [leaveLevel, order_hide, getOrdersAtPrice_hide b stale hp]
  split
  · exact removeOrdersAtPrice_hide b stale _ hp
  · exact unlinkOrder_hide b stale p _

theorem removeOrder_hide [DecidableEq κ] {p : Ptr} (hp : priceToIndex (b.order p).price ∉ stale) :
    removeOrder k (b.hide stale) p = (removeOrder k b p).map (·.hide stale) := by
  simp only [removeOrder, leaveLevel_hide b stale hp]
  cases leaveLevel b p with
  | error e => rfl
  | ok b' =>
    simp only [Except.map, bind, Except.bind, order_hide]
    cases k.checkKey (k.key (b'.order p).ident) with
    | error e => rfl
    | ok _ =>
      simp only [orderPool_hide]
      cases b'.orderPool.deallocate p <;> rfl

end Hide

end HighPerformance.LevelBook
