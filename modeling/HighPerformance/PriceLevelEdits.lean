import HighPerformance.PriceLevelShape

/-!
# Editing one ring

`appendOrder` and `unlinkOrder` edit the ring of one level, `unlinkLevel` the
ring of one side. `OrderEdit` says what the edits of a level's ring leave alone,
`LevelGone` what a level leaves behind.
-/

namespace HighPerformance.LevelBook
open CircularList

variable {ι κ : Type}

/-- Only the links between orders and the entry pointers of the levels differ. -/
structure OrderEdit (b b' : LevelBook ι κ) : Prop extends SameLevels b b' where
  idToOrder : b'.idToOrder = b.idToOrder
  orderSize : b'.orderPool.size = b.orderPool.size
  orderNext : b'.orderPool.nextFreeIndex = b.orderPool.nextFreeIndex
  orderFree : ∀ q, b'.orderPool.isFree q = b.orderPool.isFree q
  orderData : ∀ q, b'.orderData q = b.orderData q

namespace OrderEdit
variable {b b' b'' : LevelBook ι κ}

theorem refl (b : LevelBook ι κ) : OrderEdit b b where
  best _ := rfl
  next _ := rfl
  prev _ := rfl
  priceTable := rfl
  poolSize := rfl
  poolNext := rfl
  poolFree _ := rfl
  idToOrder := rfl
  orderSize := rfl
  orderNext := rfl
  orderFree _ := rfl
  orderData _ := rfl

theorem trans (h : OrderEdit b b') (h' : OrderEdit b' b'') : OrderEdit b b'' where
  best d := (h'.best d).trans (h.best d)
  next l := (h'.next l).trans (h.next l)
  prev l := (h'.prev l).trans (h.prev l)
  priceTable := h'.priceTable.trans h.priceTable
  poolSize := h'.poolSize.trans h.poolSize
  poolNext := h'.poolNext.trans h.poolNext
  poolFree l := (h'.poolFree l).trans (h.poolFree l)
  idToOrder := h'.idToOrder.trans h.idToOrder
  orderSize := h'.orderSize.trans h.orderSize
  orderNext := h'.orderNext.trans h.orderNext
  orderFree q := (h'.orderFree q).trans (h.orderFree q)
  orderData q := (h'.orderData q).trans (h.orderData q)

theorem setNextOrder (b : LevelBook ι κ) (p : Ptr) (v : Option Ptr) :
    OrderEdit b (b.setNextOrder p v) where
  best _ := rfl
  next _ := rfl
  prev _ := rfl
  priceTable := rfl
  poolSize := rfl
  poolNext := rfl
  poolFree _ := rfl
  idToOrder := rfl
  orderSize := rfl
  orderNext := rfl
  orderFree _ := by simp [LevelBook.setNextOrder, modifyOrder]
  orderData _ := by simp

theorem setPrevOrder (b : LevelBook ι κ) (p : Ptr) (v : Option Ptr) :
    OrderEdit b (b.setPrevOrder p v) where
  best _ := rfl
  next _ := rfl
  prev _ := rfl
  priceTable := rfl
  poolSize := rfl
  poolNext := rfl
  poolFree _ := rfl
  idToOrder := rfl
  orderSize := rfl
  orderNext := rfl
  orderFree _ := by simp [LevelBook.setPrevOrder, modifyOrder]
  orderData _ := by simp

theorem setFirstOrder (b : LevelBook ι κ) (l : Ptr) (v : Option Ptr) :
    OrderEdit b (b.setFirstOrder l v) where
  best _ := rfl
  next _ := by simp
  prev _ := by simp
  priceTable := rfl
  poolSize := rfl
  poolNext := rfl
  poolFree _ := by simp [LevelBook.setFirstOrder, modifyLevel]
  idToOrder := rfl
  orderSize := rfl
  orderNext := rfl
  orderFree _ := rfl
  orderData _ := rfl

theorem sameOrder (h : OrderEdit b b') {q : Ptr} (hn : b'.nextOrder q = b.nextOrder q)
    (hp : b'.prevOrder q = b.prevOrder q) : SameOrder b b' q :=
  ⟨hn, hp, h.orderData q⟩

end OrderEdit

section OrderRings
variable {b : LevelBook ι κ} {p f a l : Ptr} {v : List Ptr}

theorem appendOrder_links (hf : (b.level l).firstOrder = some f)
    (hr : Ring b.nextOrder b.prevOrder (f :: v)) (hp : p ∉ f :: v) :
    ∃ b', appendOrder b p l = .ok b' ∧ OrderEdit b b' ∧
      (∀ m, b'.levelData m = b.levelData m) ∧
      Ring b'.nextOrder b'.prevOrder (f :: v ++ [p]) ∧
      ∀ q ∉ p :: f :: v, SameOrder b b' q := by
  have hlast := hr.prev_head
  set z := (f :: v).getLast (by simp) with hz
  have hzm : z ∈ f :: v := List.getLast_mem _
  have hpf : f ≠ p := fun he => hp (by simp [he])
  have hpz : z ≠ p := fun he => hp (he ▸ hzm)
  have hprev : (b.order f).prevOrder = some z := hlast
  have hprev' : ((b.setNextOrder z (some p)).order f).prevOrder = some z := by
    change (b.setNextOrder z (some p)).prevOrder f = some z
    simpa using hlast
  set b₁ := (b.setNextOrder z (some p)).setPrevOrder p (some z) with hb₁
  set b₂ := (b₁.setNextOrder p (some f)).setPrevOrder f (some p) with hb₂
  have hcall : appendOrder b p l = .ok b₂ := by
    simp only [appendOrder, hf, deref_some, bind, Except.bind, hprev, hprev', ← hb₁]
    rfl
  have hedit : OrderEdit b b₂ :=
    ((OrderEdit.setNextOrder _ _ _).trans (OrderEdit.setPrevOrder _ _ _)).trans
      ((OrderEdit.setNextOrder _ _ _).trans (OrderEdit.setPrevOrder _ _ _))
  have hnext : ∀ q, b₂.nextOrder q =
      if q = p then some f else if q = z then some p else b.nextOrder q := by
    intro q
    simp [hb₂, hb₁]
  have hprevs : ∀ q, b₂.prevOrder q =
      if q = f then some p else if q = p then some z else b.prevOrder q := by
    intro q
    simp [hb₂, hb₁]
  have hdata : ∀ m, b₂.levelData m = b.levelData m := by
    intro m
    simp [hb₂, hb₁]
  refine ⟨b₂, hcall, hedit, hdata, ?_, ?_⟩
  · have hne : ∀ c ∈ f :: v, c ≠ p := fun c hc he => hp (he ▸ hc)
    apply hr.append hp
    · simp [hnext]
    · rw [hprevs, if_neg hpf.symm, if_pos rfl, hlast]
    · intro c hc hpc
      rw [hlast, Option.some.injEq] at hpc
      simp [hnext, ← hpc, hpz]
    · simp [hprevs]
    · intro c hc hpc
      have hcz : c ≠ z := fun he => hpc (by rw [hlast, he])
      simp [hnext, hne c hc, hcz]
    · intro c hc
      have hcf : c ≠ f := fun he => (List.nodup_cons.mp hr.nodup).1 (he ▸ hc)
      simp [hprevs, hne c (List.mem_cons_of_mem _ hc), hcf]
  · intro q hq
    have hqp : q ≠ p := fun he => hq (by simp [he])
    have hqf : q ≠ f := fun he => hq (by simp [he])
    have hqz : q ≠ z := fun he => hq (he ▸ List.mem_cons_of_mem _ hzm)
    apply hedit.sameOrder
    · simp [hnext, hqp, hqz]
    · simp [hprevs, hqp, hqf]

/-- The entry of a level after its order `p` has gone. -/
def entryWithout (b : LevelBook ι κ) (l p a : Ptr) : Option Ptr :=
  if (b.level l).firstOrder = some p then some a else (b.level l).firstOrder

theorem unlinkOrder_links (hr : Ring b.nextOrder b.prevOrder (p :: a :: v)) :
    ∃ b', unlinkOrder b p (some l) = .ok b' ∧ OrderEdit b b' ∧
      (∀ m, b'.levelData m =
        if m = l then ((b.level l).side, (b.level l).price, entryWithout b l p a)
        else b.levelData m) ∧
      Ring b'.nextOrder b'.prevOrder (a :: v) ∧
      ∀ q ∉ p :: a :: v, SameOrder b b' q := by
  have hlast := hr.prev_head
  have hafter : (b.order p).nextOrder = some a := hr.next_cons_cons
  have hpm : p ∉ a :: v := (List.nodup_cons.mp hr.nodup).1
  set z := (p :: a :: v).getLast (by simp) with hz
  have hzl : z = (a :: v).getLast (by simp) := List.getLast_cons (by simp)
  have hzm : z ∈ a :: v := by rw [hzl]; exact List.getLast_mem _
  have hne : ∀ c ∈ a :: v, c ≠ p := fun c hc he => hpm (he ▸ hc)
  have hbefore : (b.order p).prevOrder = some z := hlast
  set b₁ := (b.setNextOrder z (some a)).setPrevOrder a (some z) with hb₁
  set b₂ := (if (b₁.level l).firstOrder = some p then b₁.setFirstOrder l (some a) else b₁) with hb₂
  set b₃ := (b₂.setNextOrder p none).setPrevOrder p none with hb₃
  have hcall : unlinkOrder b p (some l) = .ok b₃ := by
    simp only [unlinkOrder, hbefore, hafter, deref_some, bind, Except.bind, ← hb₁, ← hb₂]
    rfl
  have hedit₂ : OrderEdit b₁ b₂ := by
    rw [hb₂]
    split
    · exact OrderEdit.setFirstOrder _ _ _
    · exact OrderEdit.refl _
  have hedit : OrderEdit b b₃ :=
    ((OrderEdit.setNextOrder _ _ _).trans (OrderEdit.setPrevOrder _ _ _)).trans <|
      hedit₂.trans <| (OrderEdit.setNextOrder _ _ _).trans (OrderEdit.setPrevOrder _ _ _)
  have hnext₂ : ∀ q, b₂.nextOrder q = b₁.nextOrder q := by
    intro q
    rw [hb₂]
    split <;> rfl
  have hprev₂ : ∀ q, b₂.prevOrder q = b₁.prevOrder q := by
    intro q
    rw [hb₂]
    split <;> rfl
  have hnext : ∀ q, b₃.nextOrder q =
      if q = p then none else if q = z then some a else b.nextOrder q := by
    intro q
    simp only [hb₃, nextOrder_setPrevOrder, nextOrder_setNextOrder, hnext₂, hb₁]
  have hprev : ∀ q, b₃.prevOrder q =
      if q = p then none else if q = a then some z else b.prevOrder q := by
    intro q
    simp only [hb₃, prevOrder_setPrevOrder, prevOrder_setNextOrder, hprev₂, hb₁]
  have hdata : ∀ m, b₃.levelData m =
      if m = l then ((b.level l).side, (b.level l).price, entryWithout b l p a)
      else b.levelData m := by
    intro m
    change b₂.levelData m = _
    have hfirst : (b₁.level l).firstOrder = (b.level l).firstOrder := rfl
    rw [hb₂, hfirst, entryWithout]
    by_cases hp : (b.level l).firstOrder = some p
    · rw [if_pos hp, if_pos hp, levelData_setFirstOrder]
      by_cases hm : m = l
      · subst hm
        rfl
      · simp only [hm, if_false]
        rfl
    · rw [if_neg hp, if_neg hp]
      by_cases hm : m = l
      · subst hm
        simp only [if_true]
        rfl
      · simp only [hm, if_false]
        rfl
  refine ⟨b₃, hcall, hedit, hdata, ?_, ?_⟩
  · have haz : b.prevOrder p = some z := hlast
    apply hr.unlink
    · intro c hc hpc
      rw [haz, Option.some.injEq] at hpc
      rw [hnext, ← hpc, if_neg (hne z hzm), if_pos rfl]
    · rw [hprev, if_neg (hne a (by simp)), if_pos rfl, haz]
    · intro c hc hpc
      have hcz : c ≠ z := fun he => hpc (by rw [haz, he])
      rw [hnext, if_neg (hne c hc), if_neg hcz]
    · intro c hc
      have hca : c ≠ a := fun he =>
        (List.nodup_cons.mp (List.nodup_cons.mp hr.nodup).2).1 (he ▸ hc)
      rw [hprev, if_neg (hne c (List.mem_cons_of_mem _ hc)), if_neg hca]
  · intro q hq
    have hqp : q ≠ p := fun he => hq (by simp [he])
    have hqa : q ≠ a := fun he => hq (by simp [he])
    have hqz : q ≠ z := fun he => hq (he ▸ List.mem_cons_of_mem _ hzm)
    apply hedit.sameOrder
    · rw [hnext, if_neg hqp, if_neg hqz]
    · rw [hprev, if_neg hqp, if_neg hqa]

end OrderRings

/-- Level `l`, between `u` and `w` on side `d`, is out of the ring. -/
structure LevelGone (b b' : LevelBook ι κ) (d : Bool) (l : Ptr) (u w : List Ptr) : Prop where
  same : SameButLinks b b'
  best : b'.best d = (u ++ w).head?
  otherBest : b'.best (!d) = b.best (!d)
  ring : Ring b'.nextEntry b'.prevEntry (u ++ w)
  next : ∀ q ∉ u ++ l :: w, b'.nextEntry q = b.nextEntry q
  prev : ∀ q ∉ u ++ l :: w, b'.prevEntry q = b.prevEntry q

section LevelRings
variable {b : LevelBook ι κ} {d : Bool} {l a : Ptr} {u v w : List Ptr}

theorem unlinkLevel_last (hr : Ring b.nextEntry b.prevEntry [l]) :
    ∃ b', unlinkLevel b d l = .ok b' ∧ LevelGone b b' d l [] [] := by
  have hnext : (b.level l).nextEntry = some l := hr.next_singleton
  refine ⟨b.setBest d none, ?_, ?_⟩
  · simp [unlinkLevel, hnext, pure, Except.pure]
  · constructor
    · exact SameButLinks.setBest _ _ _
    · simp [best_setBest]
    · rw [best_setBest, if_neg (by simp)]
    · trivial
    · intro q _
      simp
    · intro q _
      simp

/-- The ring read from the level that goes. -/
theorem unlinkLevel_ring (hr : Ring b.nextEntry b.prevEntry (l :: a :: v)) :
    ∃ b', unlinkLevel b d l = .ok b' ∧ SameButLinks b b' ∧
      b'.best d = (if b.best d = some l then some a else b.best d) ∧
      b'.best (!d) = b.best (!d) ∧ Ring b'.nextEntry b'.prevEntry (a :: v) ∧
      ∀ q ∉ l :: a :: v, b'.nextEntry q = b.nextEntry q ∧ b'.prevEntry q = b.prevEntry q := by
  have hlast := hr.prev_head
  have hafter : (b.level l).nextEntry = some a := hr.next_cons_cons
  have hlm : l ∉ a :: v := (List.nodup_cons.mp hr.nodup).1
  set z := (l :: a :: v).getLast (by simp) with hz
  have hzl : z = (a :: v).getLast (by simp) := List.getLast_cons (by simp)
  have hzm : z ∈ a :: v := by rw [hzl]; exact List.getLast_mem _
  have hne : ∀ c ∈ a :: v, c ≠ l := fun c hc he => hlm (he ▸ hc)
  have hbefore : (b.level l).prevEntry = some z := hlast
  have hzl' : z ≠ l := hne z hzm
  have hal : a ≠ l := hne a (by simp)
  have hself : some a ≠ some l := fun he => hal (Option.some.inj he)
  set b₁ := b.setNextEntry z (some a) with hb₁
  have hnext₁ : (b₁.level l).nextEntry = some a := by
    change b₁.nextEntry l = some a
    rw [hb₁, nextEntry_setNextEntry, if_neg hzl'.symm]
    exact hafter
  have hprev₁ : (b₁.level l).prevEntry = some z := by
    change b₁.prevEntry l = some z
    rw [hb₁, prevEntry_setNextEntry]
    exact hbefore
  set b₂ := b₁.setPrevEntry a (some z) with hb₂
  have hnext₂ : (b₂.level l).nextEntry = some a := by
    change b₂.nextEntry l = some a
    rw [hb₂, nextEntry_setPrevEntry]
    exact hnext₁
  set b₃ := (if b.best d = some l then b₂.setBest d (some a) else b₂) with hb₃
  set b₄ := (b₃.setNextEntry l none).setPrevEntry l none with hb₄
  have hcall : unlinkLevel b d l = .ok b₄ := by
    simp only [unlinkLevel, hafter, hself, if_false, hbefore, deref_some, bind, Except.bind,
      ← hb₁, hnext₁, hprev₁, ← hb₂, hnext₂, ← hb₃]
    rfl
  have hsame₃ : SameButLinks b₂ b₃ := by
    rw [hb₃]
    split
    · exact SameButLinks.setBest _ _ _
    · exact SameButLinks.refl _
  have hsame : SameButLinks b b₄ :=
    ((SameButLinks.setNextEntry _ _ _).trans (SameButLinks.setPrevEntry _ _ _)).trans <|
      hsame₃.trans <| (SameButLinks.setNextEntry _ _ _).trans (SameButLinks.setPrevEntry _ _ _)
  have hnext : ∀ q, b₄.nextEntry q =
      if q = l then none else if q = z then some a else b.nextEntry q := by
    intro q
    have h₃ : b₃.nextEntry q = b₂.nextEntry q := by
      rw [hb₃]
      split <;> simp
    simp only [hb₄, nextEntry_setPrevEntry, nextEntry_setNextEntry, h₃, hb₂, hb₁]
  have hprev : ∀ q, b₄.prevEntry q =
      if q = l then none else if q = a then some z else b.prevEntry q := by
    intro q
    have h₃ : b₃.prevEntry q = b₂.prevEntry q := by
      rw [hb₃]
      split <;> simp
    simp only [hb₄, prevEntry_setPrevEntry, prevEntry_setNextEntry, h₃, hb₂, hb₁]
  have hbest : ∀ e, b₄.best e = if e = d ∧ b.best d = some l then some a else b.best e := by
    intro e
    change b₃.best e = _
    rw [hb₃]
    split
    · next hbl =>
      rw [best_setBest]
      simp only [hbl, and_true]
      rfl
    · next hbl =>
      simp only [hbl, and_false, if_false]
      rfl
  refine ⟨b₄, hcall, hsame, ?_, ?_, ?_, ?_⟩
  · rw [hbest]
    simp only [true_and]
  · rw [hbest, if_neg]
    simp
  · have haz : b.prevEntry l = some z := hlast
    apply hr.unlink
    · intro c hc hpc
      rw [haz, Option.some.injEq] at hpc
      rw [hnext, ← hpc, if_neg hzl', if_pos rfl]
    · rw [hprev, if_neg hal, if_pos rfl, haz]
    · intro c hc hpc
      have hcz : c ≠ z := fun he => hpc (by rw [haz, he])
      rw [hnext, if_neg (hne c hc), if_neg hcz]
    · intro c hc
      have hca : c ≠ a := fun he =>
        (List.nodup_cons.mp (List.nodup_cons.mp hr.nodup).2).1 (he ▸ hc)
      rw [hprev, if_neg (hne c (List.mem_cons_of_mem _ hc)), if_neg hca]
  · intro q hq
    have hql : q ≠ l := fun he => hq (by simp [he])
    have hqa : q ≠ a := fun he => hq (by simp [he])
    have hqz : q ≠ z := fun he => hq (he ▸ List.mem_cons_of_mem _ hzm)
    constructor
    · rw [hnext, if_neg hql, if_neg hqz]
    · rw [hprev, if_neg hql, if_neg hqa]

theorem unlinkLevel_spec (hbest : b.best d = (u ++ l :: w).head?)
    (hr : Ring b.nextEntry b.prevEntry (u ++ l :: w)) :
    ∃ b', unlinkLevel b d l = .ok b' ∧ LevelGone b b' d l u w := by
  have hrot : Ring b.nextEntry b.prevEntry (l :: (w ++ u)) := hr.rotate
  rcases hwu : w ++ u with _ | ⟨a, v⟩
  · obtain ⟨rfl, rfl⟩ := List.append_eq_nil_iff.mp hwu
    exact unlinkLevel_last hr
  · rw [hwu] at hrot
    obtain ⟨b', hok, hsame, hb, hother, hring, hframe⟩ := unlinkLevel_ring (d := d) hrot
    have hmem : ∀ q ∉ u ++ l :: w, q ∉ l :: a :: v := by
      intro q hq hm
      rw [← hwu] at hm
      apply hq
      simp only [List.mem_cons, List.mem_append] at hm ⊢
      tauto
    refine ⟨b', hok, hsame, ?_, hother, ?_, ?_, ?_⟩
    · rw [hb, hbest]
      rcases u with _ | ⟨x, u⟩
      · have hw : w = a :: v := by simpa using hwu
        simp [hw]
      · have hx : x ≠ l := by
          intro he
          have hnd := hr.nodup
          rw [he, List.cons_append, List.nodup_cons] at hnd
          exact hnd.1 (by simp)
        simp [hx]
    · rw [← hwu] at hring
      exact hring.rotate
    · intro q hq
      exact (hframe q (hmem q hq)).1
    · intro q hq
      exact (hframe q (hmem q hq)).2

end LevelRings

end HighPerformance.LevelBook

namespace HighPerformance.LevelRep
open CircularList LevelBook

variable {ι κ : Type} {b : LevelBook ι κ} {d : Bool} {L : PriceLevel ι} {o : Resting ι}
  {x y : List (Resting ι)}

theorem ring_from (h : LevelRep b d L) (hxy : L.orders = x ++ o :: y) :
    Ring b.nextOrder b.prevOrder (o.addr :: (y ++ x).map (·.addr)) := by
  have hring := h.ring
  rw [hxy, List.map_append, List.map_cons] at hring
  rw [List.map_append]
  exact hring.rotate

theorem exists_other (hne : x ++ y ≠ []) : ∃ a v, (y ++ x).map (·.addr) = a :: v := by
  cases hl : (y ++ x).map (·.addr) with
  | nil =>
    rw [List.map_eq_nil_iff, List.append_eq_nil_iff] at hl
    exact (hne (by simp [hl.1, hl.2])).elim
  | cons a v => exact ⟨a, v, rfl⟩

theorem alone_iff (h : LevelRep b d L) (hxy : L.orders = x ++ o :: y) :
    (b.order o.addr).prevOrder = some o.addr ↔ x ++ y = [] := by
  have hrot := h.ring_from hxy
  constructor
  · intro hself
    by_contra hne
    obtain ⟨a, v, hav⟩ := exists_other hne
    rw [hav] at hrot
    exact hrot.prev_ne_self hself
  · intro hnil
    obtain ⟨rfl, rfl⟩ := List.append_eq_nil_iff.mp hnil
    exact hrot.prev_singleton

theorem entryWithout_eq (h : LevelRep b d L) (hxy : L.orders = x ++ o :: y) {a : Ptr} {v : List Ptr}
    (hav : (y ++ x).map (·.addr) = a :: v) :
    entryWithout b L.addr o.addr a = ((x ++ y).map (·.addr)).head? := by
  have hLdata := h.data
  simp only [levelData, Prod.mk.injEq] at hLdata
  rw [entryWithout, hLdata.2.2, hxy]
  cases x with
  | nil =>
    have hy : y.map (·.addr) = a :: v := by simpa using hav
    simp [hy]
  | cons x₀ x =>
    have hx₀ : x₀.addr ≠ o.addr := by
      intro he
      have hnd := h.ring.nodup
      rw [hxy, List.map_append, List.map_cons, List.cons_append, List.nodup_cons, he] at hnd
      exact hnd.1 (by simp)
    simp [hx₀]

theorem appendOrder_ok (h : LevelRep b d L) (hfresh : o.addr ∉ L.orders.map (·.addr))
    (hside : o.side = L.side)
    (ho : b.orderData o.addr = (o.ident, o.side, L.price, o.qty, o.priority)) :
    ∃ b', appendOrder b o.addr L.addr = .ok b' ∧ OrderEdit b b' ∧
      LevelRep b' d { L with orders := L.orders ++ [o] } ∧
      (∀ m, b'.levelData m = b.levelData m) ∧
      ∀ q ∉ o.addr :: L.orders.map (·.addr), SameOrder b b' q := by
  obtain ⟨f, v, hfv⟩ : ∃ f v, L.orders.map (·.addr) = f :: v := by
    cases hl : L.orders with
    | nil => exact (h.nonempty hl).elim
    | cons z zs => exact ⟨z.addr, zs.map (·.addr), rfl⟩
  have hfirst : (b.level L.addr).firstOrder = some f := by
    rw [h.firstOrder, hfv]
    rfl
  have hring := h.ring
  rw [hfv] at hring hfresh ⊢
  obtain ⟨b', hok, hedit, hdata, hring', hframe⟩ := appendOrder_links hfirst hring hfresh
  refine ⟨b', hok, hedit, ?_, hdata, fun q hq => ?_⟩
  · constructor
    · rw [hdata]
      simp only [h.data, List.map_append, hfv]
      rfl
    · exact h.side
    · simp
    · rw [← hfv] at hring'
      simpa using hring'
    · intro z hz
      rw [hedit.orderData]
      rcases List.mem_append.mp hz with hz | hz
      · exact h.orders z hz
      · rw [List.mem_singleton.mp hz]
        exact ⟨hside, ho⟩
  · apply hframe
    simp only [List.mem_cons] at hq ⊢
    tauto

theorem append_perm (pend : List Ptr) :
    (pend ++ (L.orders ++ [o]).map (·.addr)).Perm (o.addr :: pend ++ L.orders.map (·.addr)) := by
  rw [List.map_append, ← List.append_assoc]
  exact List.perm_append_singleton _ _

theorem leave_perm (pend : List Ptr) (hxy : L.orders = x ++ o :: y) :
    (o.addr :: pend ++ (x ++ y).map (·.addr)).Perm (pend ++ L.orders.map (·.addr)) := by
  rw [hxy, List.map_append, List.map_append, List.map_cons]
  refine List.Perm.trans ?_ (List.perm_middle.symm.append_left pend)
  rw [List.cons_append]
  exact List.perm_middle.symm

/-- An order with neighbours goes; the rest of its level keeps its order. -/
theorem unlinkOrder_ok (h : LevelRep b d L) (hxy : L.orders = x ++ o :: y) (hne : x ++ y ≠ []) :
    ∃ b', unlinkOrder b o.addr (some L.addr) = .ok b' ∧ OrderEdit b b' ∧
      LevelRep b' d { L with orders := x ++ y } ∧
      (∀ m, m ≠ L.addr → b'.levelData m = b.levelData m) ∧
      ∀ q ∉ L.orders.map (·.addr), SameOrder b b' q := by
  have hrot := h.ring_from hxy
  obtain ⟨a, v, hav⟩ := exists_other hne
  rw [hav] at hrot
  obtain ⟨b', hok, hedit, hdata, hring', hframe⟩ := unlinkOrder_links (l := L.addr) hrot
  have hLdata := h.data
  simp only [levelData, Prod.mk.injEq] at hLdata
  refine ⟨b', hok, hedit, ?_, fun m hm => ?_, fun q hq => ?_⟩
  · constructor
    · rw [hdata, if_pos rfl, h.entryWithout_eq hxy hav, hLdata.1, hLdata.2.1]
    · exact h.side
    · exact hne
    · rw [← hav, List.map_append] at hring'
      simpa using hring'.rotate
    · intro z hz
      rw [hedit.orderData]
      apply h.orders
      rw [hxy]
      simp only [List.mem_append, List.mem_cons] at hz ⊢
      tauto
  · rw [hdata, if_neg hm]
  · apply hframe
    rw [← hav]
    intro hm
    apply hq
    rw [hxy]
    simp only [List.mem_cons, List.mem_append, List.map_append, List.map_cons] at hm ⊢
    tauto

end HighPerformance.LevelRep
