import HighPerformance.CircularList
import HighPerformance.PriceLevels

/-!
# Reading the book after an update

The projections of every elementary update of a `LevelBook`, and what
`linkAfter`, `linkBefore` and the search of `addOrdersAtPrice` do to the ring of
one side. The conclusions say how each link is read afterwards (`Inserted`) and
that nothing else is touched (`SameButLinks`), so later proofs never look at the
order of the writes.
-/

namespace HighPerformance.LevelBook
open CircularList

variable {ι κ : Type}

def nextEntry (b : LevelBook ι κ) (l : Ptr) : Option Ptr := (b.level l).nextEntry
def prevEntry (b : LevelBook ι κ) (l : Ptr) : Option Ptr := (b.level l).prevEntry
def nextOrder (b : LevelBook ι κ) (p : Ptr) : Option Ptr := (b.order p).nextOrder
def prevOrder (b : LevelBook ι κ) (p : Ptr) : Option Ptr := (b.order p).prevOrder

/-- A level without its place in the ring of its side. -/
def levelData (b : LevelBook ι κ) (l : Ptr) : Side × ℕ × Option Ptr :=
  ((b.level l).side, (b.level l).price, (b.level l).firstOrder)

/-- An order without its place in the ring of its level. -/
def orderData (b : LevelBook ι κ) (p : Ptr) : ι × Side × ℕ × ℕ × ℕ :=
  ((b.order p).ident, (b.order p).side, (b.order p).price, (b.order p).qty, (b.order p).priority)

section Projections
variable (b : LevelBook ι κ) (l q : Ptr) (v : Option Ptr) (d e : Bool) (price : ℕ)

theorem level_modifyLevel (f : OrdersAtPrice → OrdersAtPrice) :
    (b.modifyLevel l f).level q = if q = l then f (b.level q) else b.level q :=
  MemPool.get_modify _ _ _ _

theorem order_modifyOrder (f : BookOrder ι → BookOrder ι) :
    (b.modifyOrder l f).order q = if q = l then f (b.order q) else b.order q :=
  MemPool.get_modify _ _ _ _

@[simp] theorem order_modifyLevel (f : OrdersAtPrice → OrdersAtPrice) :
    (b.modifyLevel l f).order q = b.order q := rfl
@[simp] theorem level_modifyOrder (f : BookOrder ι → BookOrder ι) :
    (b.modifyOrder l f).level q = b.level q := rfl

@[simp] theorem level_setNextOrder : (b.setNextOrder l v).level q = b.level q := rfl
@[simp] theorem level_setPrevOrder : (b.setPrevOrder l v).level q = b.level q := rfl
@[simp] theorem order_setNextEntry : (b.setNextEntry l v).order q = b.order q := rfl
@[simp] theorem order_setPrevEntry : (b.setPrevEntry l v).order q = b.order q := rfl
@[simp] theorem order_setFirstOrder : (b.setFirstOrder l v).order q = b.order q := rfl
@[simp] theorem level_setOrdersAtPrice : (b.setOrdersAtPrice price v).level q = b.level q := rfl
@[simp] theorem order_setOrdersAtPrice : (b.setOrdersAtPrice price v).order q = b.order q := rfl
@[simp] theorem level_setBest : (b.setBest d v).level q = b.level q := by
  unfold setBest; split <;> rfl
@[simp] theorem order_setBest : (b.setBest d v).order q = b.order q := by
  unfold setBest; split <;> rfl

@[simp] theorem nextEntry_setNextEntry :
    (b.setNextEntry l v).nextEntry q = if q = l then v else b.nextEntry q := by
  simp only [nextEntry, setNextEntry, level_modifyLevel]; split <;> rfl
@[simp] theorem prevEntry_setPrevEntry :
    (b.setPrevEntry l v).prevEntry q = if q = l then v else b.prevEntry q := by
  simp only [prevEntry, setPrevEntry, level_modifyLevel]; split <;> rfl
@[simp] theorem nextEntry_setPrevEntry : (b.setPrevEntry l v).nextEntry q = b.nextEntry q := by
  simp only [nextEntry, setPrevEntry, level_modifyLevel]; split <;> rfl
@[simp] theorem prevEntry_setNextEntry : (b.setNextEntry l v).prevEntry q = b.prevEntry q := by
  simp only [prevEntry, setNextEntry, level_modifyLevel]; split <;> rfl
@[simp] theorem nextEntry_setFirstOrder : (b.setFirstOrder l v).nextEntry q = b.nextEntry q := by
  simp only [nextEntry, setFirstOrder, level_modifyLevel]; split <;> rfl
@[simp] theorem prevEntry_setFirstOrder : (b.setFirstOrder l v).prevEntry q = b.prevEntry q := by
  simp only [prevEntry, setFirstOrder, level_modifyLevel]; split <;> rfl
@[simp] theorem nextEntry_setBest : (b.setBest d v).nextEntry q = b.nextEntry q := by
  simp [nextEntry]
@[simp] theorem prevEntry_setBest : (b.setBest d v).prevEntry q = b.prevEntry q := by
  simp [prevEntry]

@[simp] theorem levelData_setNextEntry : (b.setNextEntry l v).levelData q = b.levelData q := by
  simp only [levelData, setNextEntry, level_modifyLevel]; split <;> rfl
@[simp] theorem levelData_setPrevEntry : (b.setPrevEntry l v).levelData q = b.levelData q := by
  simp only [levelData, setPrevEntry, level_modifyLevel]; split <;> rfl
@[simp] theorem levelData_setNextOrder : (b.setNextOrder l v).levelData q = b.levelData q := rfl
@[simp] theorem levelData_setPrevOrder : (b.setPrevOrder l v).levelData q = b.levelData q := rfl
@[simp] theorem levelData_setBest : (b.setBest d v).levelData q = b.levelData q := by
  simp [levelData]
theorem levelData_setFirstOrder : (b.setFirstOrder l v).levelData q =
    if q = l then ((b.level q).side, (b.level q).price, v) else b.levelData q := by
  simp only [levelData, setFirstOrder, level_modifyLevel]; split <;> rfl

@[simp] theorem nextOrder_setNextOrder :
    (b.setNextOrder l v).nextOrder q = if q = l then v else b.nextOrder q := by
  simp only [nextOrder, setNextOrder, order_modifyOrder]; split <;> rfl
@[simp] theorem prevOrder_setPrevOrder :
    (b.setPrevOrder l v).prevOrder q = if q = l then v else b.prevOrder q := by
  simp only [prevOrder, setPrevOrder, order_modifyOrder]; split <;> rfl
@[simp] theorem nextOrder_setPrevOrder : (b.setPrevOrder l v).nextOrder q = b.nextOrder q := by
  simp only [nextOrder, setPrevOrder, order_modifyOrder]; split <;> rfl
@[simp] theorem prevOrder_setNextOrder : (b.setNextOrder l v).prevOrder q = b.prevOrder q := by
  simp only [prevOrder, setNextOrder, order_modifyOrder]; split <;> rfl
@[simp] theorem nextOrder_setFirstOrder : (b.setFirstOrder l v).nextOrder q = b.nextOrder q := rfl
@[simp] theorem prevOrder_setFirstOrder : (b.setFirstOrder l v).prevOrder q = b.prevOrder q := rfl
@[simp] theorem nextOrder_setBest : (b.setBest d v).nextOrder q = b.nextOrder q := by
  simp [nextOrder]
@[simp] theorem prevOrder_setBest : (b.setBest d v).prevOrder q = b.prevOrder q := by
  simp [prevOrder]

@[simp] theorem orderData_setNextOrder : (b.setNextOrder l v).orderData q = b.orderData q := by
  simp only [orderData, setNextOrder, order_modifyOrder]; split <;> rfl
@[simp] theorem orderData_setPrevOrder : (b.setPrevOrder l v).orderData q = b.orderData q := by
  simp only [orderData, setPrevOrder, order_modifyOrder]; split <;> rfl
@[simp] theorem orderData_setFirstOrder : (b.setFirstOrder l v).orderData q = b.orderData q := rfl
@[simp] theorem orderData_setBest : (b.setBest d v).orderData q = b.orderData q := by
  simp [orderData]

theorem best_setBest : (b.setBest d v).best e = if e = d then v else b.best e := by
  cases d <;> cases e <;> rfl

end Projections

/-- `b'` differs from `b` only in the links between levels and in the pointers
to the best levels. -/
structure SameButLinks (b b' : LevelBook ι κ) : Prop where
  idToOrder : b'.idToOrder = b.idToOrder
  orderPool : b'.orderPool = b.orderPool
  priceTable : b'.priceOrdersAtPrices = b.priceOrdersAtPrices
  poolSize : b'.ordersAtPricePool.size = b.ordersAtPricePool.size
  poolNext : b'.ordersAtPricePool.nextFreeIndex = b.ordersAtPricePool.nextFreeIndex
  poolFree : ∀ l, b'.ordersAtPricePool.isFree l = b.ordersAtPricePool.isFree l
  levelData : ∀ l, b'.levelData l = b.levelData l

namespace SameButLinks
variable {b b' b'' : LevelBook ι κ}

theorem refl (b : LevelBook ι κ) : SameButLinks b b :=
  ⟨rfl, rfl, rfl, rfl, rfl, fun _ => rfl, fun _ => rfl⟩

theorem trans (h : SameButLinks b b') (h' : SameButLinks b' b'') : SameButLinks b b'' :=
  ⟨h'.idToOrder.trans h.idToOrder, h'.orderPool.trans h.orderPool,
    h'.priceTable.trans h.priceTable, h'.poolSize.trans h.poolSize,
    h'.poolNext.trans h.poolNext, fun l => (h'.poolFree l).trans (h.poolFree l),
    fun l => (h'.levelData l).trans (h.levelData l)⟩

theorem setNextEntry (b : LevelBook ι κ) (l : Ptr) (v : Option Ptr) :
    SameButLinks b (b.setNextEntry l v) :=
  ⟨rfl, rfl, rfl, rfl, rfl,
    fun _ => by simp [LevelBook.setNextEntry, modifyLevel], fun _ => by simp⟩

theorem setPrevEntry (b : LevelBook ι κ) (l : Ptr) (v : Option Ptr) :
    SameButLinks b (b.setPrevEntry l v) :=
  ⟨rfl, rfl, rfl, rfl, rfl,
    fun _ => by simp [LevelBook.setPrevEntry, modifyLevel], fun _ => by simp⟩

theorem setBest (b : LevelBook ι κ) (d : Bool) (v : Option Ptr) :
    SameButLinks b (b.setBest d v) := by
  cases d <;> exact ⟨rfl, rfl, rfl, rfl, rfl, fun _ => rfl, fun _ => rfl⟩

theorem order (h : SameButLinks b b') (p : Ptr) : b'.order p = b.order p := by
  simp only [LevelBook.order, h.orderPool]

theorem side (h : SameButLinks b b') (l : Ptr) : (b'.level l).side = (b.level l).side :=
  congrArg Prod.fst (h.levelData l)

theorem price (h : SameButLinks b b') (l : Ptr) : (b'.level l).price = (b.level l).price :=
  congrArg (fun x => x.2.1) (h.levelData l)

end SameButLinks

/-- `l` now stands between `p` and `t`. -/
structure Inserted (b b' : LevelBook ι κ) (l p t : Ptr) : Prop where
  same : SameButLinks b b'
  best : ∀ d, b'.best d = b.best d
  next : ∀ q, b'.nextEntry q = if q = l then some t else if q = p then some l else b.nextEntry q
  prev : ∀ q, b'.prevEntry q = if q = l then some p else if q = t then some l else b.prevEntry q

section Linking
variable {b : LevelBook ι κ} {l p t : Ptr}

theorem linkBefore_spec (hp : b.prevEntry t = some p) (hlt : l ≠ t) (hlp : l ≠ p) :
    ∃ b', linkBefore b l t = .ok b' ∧ Inserted b b' l p t := by
  have hd : (((b.setPrevEntry l (some p)).setNextEntry l (some t)).level t).prevEntry = some p := by
    change ((b.setPrevEntry l (some p)).setNextEntry l (some t)).prevEntry t = some p
    simp [hp, hlt.symm]
  have hp' : (b.level t).prevEntry = some p := hp
  refine ⟨_, by simp only [linkBefore, hp', hd]; rfl, ?_⟩
  constructor
  · exact (SameButLinks.setPrevEntry _ _ _).trans <| (SameButLinks.setNextEntry _ _ _).trans <|
      (SameButLinks.setNextEntry _ _ _).trans (SameButLinks.setPrevEntry _ _ _)
  · intro d; rfl
  · intro q
    simp only [nextEntry_setPrevEntry, nextEntry_setNextEntry]
    by_cases hq : q = l
    · subst hq; simp [hlp]
    · simp [hq]
  · intro q
    simp only [prevEntry_setPrevEntry, prevEntry_setNextEntry]
    by_cases hq : q = l
    · subst hq; simp [hlt]
    · simp [hq]

theorem linkAfter_spec (ht : b.nextEntry p = some t) (hlt : l ≠ t) (hlp : l ≠ p) :
    ∃ b', linkAfter b l p = .ok b' ∧ Inserted b b' l p t := by
  have h₁ : ((b.setPrevEntry l (some p)).level p).nextEntry = some t := by
    change (b.setPrevEntry l (some p)).nextEntry p = some t
    simpa using ht
  have h₂ : (((b.setPrevEntry l (some p)).setPrevEntry t (some l)).level p).nextEntry
      = some t := by
    change ((b.setPrevEntry l (some p)).setPrevEntry t (some l)).nextEntry p = some t
    simpa using ht
  refine ⟨_, by simp only [linkAfter, h₁, deref_some, bind, Except.bind, h₂]; rfl, ?_⟩
  constructor
  · exact (SameButLinks.setPrevEntry _ _ _).trans <| (SameButLinks.setPrevEntry _ _ _).trans <|
      (SameButLinks.setNextEntry _ _ _).trans (SameButLinks.setNextEntry _ _ _)
  · intro d; rfl
  · intro q
    simp only [nextEntry_setPrevEntry, nextEntry_setNextEntry]
    by_cases hq : q = l
    · subst hq; simp [hlp]
    · simp [hq]
  · intro q
    simp only [prevEntry_setPrevEntry, prevEntry_setNextEntry]
    by_cases hq : q = l
    · subst hq; simp [hlt]
    · simp [hq]

/-- Inserting before the entry `t` of a ring appends to the ring read from `t`. -/
theorem Inserted.ring {b' : LevelBook ι κ} {w : List Ptr} (h : Inserted b b' l p t)
    (hr : Ring b.nextEntry b.prevEntry (t :: w)) (hp : b.prevEntry t = some p)
    (hl : l ∉ t :: w) : Ring b'.nextEntry b'.prevEntry (t :: w ++ [l]) := by
  have hlt : t ≠ l := fun he => hl (by simp [he])
  have hne : ∀ c ∈ t :: w, c ≠ l := fun c hc he => hl (he ▸ hc)
  apply hr.append hl
  · simp [h.next]
  · simp [h.prev, hp]
  · intro c hc hpc
    rw [hp, Option.some.injEq] at hpc
    simp [h.next, hne c hc, hpc]
  · simp [h.prev, hlt]
  · intro c hc hpc
    have hcp : c ≠ p := fun he => hpc (by rw [hp, he])
    simp [h.next, hne c hc, hcp]
  · intro c hc
    have hct : c ≠ t := fun he => (List.nodup_cons.mp hr.nodup).1 (he ▸ hc)
    simp [h.prev, hne c (List.mem_cons_of_mem _ hc), hct]

theorem Inserted.ring_before {b' : LevelBook ι κ} {u w : List Ptr} (h : Inserted b b' l p t)
    (hr : Ring b.nextEntry b.prevEntry (u ++ t :: w)) (hp : b.prevEntry t = some p)
    (hl : l ∉ u ++ t :: w) : Ring b'.nextEntry b'.prevEntry (u ++ l :: t :: w) := by
  have hrt : Ring b.nextEntry b.prevEntry (t :: (w ++ u)) := hr.rotate
  have hperm : (t :: w ++ u).Perm (u ++ t :: w) := List.perm_append_comm
  have hlt : l ∉ t :: (w ++ u) := fun hm => hl (hperm.mem_iff.mp hm)
  have hring := h.ring hrt hp hlt
  have hturn : t :: (w ++ u) ++ [l] = t :: w ++ (u ++ [l]) := by simp
  rw [hturn] at hring
  simpa using hring.rotate

theorem Inserted.next_other {b' : LevelBook ι κ} {ls : List Ptr} (h : Inserted b b' l p t)
    (hp : p ∈ ls) : ∀ q ∉ l :: ls, b'.nextEntry q = b.nextEntry q := by
  intro q hq
  have hql : q ≠ l := fun he => hq (by simp [he])
  have hqp : q ≠ p := fun he => hq (he ▸ List.mem_cons_of_mem _ hp)
  rw [h.next, if_neg hql, if_neg hqp]

theorem Inserted.prev_other {b' : LevelBook ι κ} {ls : List Ptr} (h : Inserted b b' l p t)
    (ht : t ∈ ls) : ∀ q ∉ l :: ls, b'.prevEntry q = b.prevEntry q := by
  intro q hq
  have hql : q ≠ l := fun he => hq (by simp [he])
  have hqt : q ≠ t := fun he => hq (he ▸ List.mem_cons_of_mem _ ht)
  rw [h.prev, if_neg hql, if_neg hqt]

end Linking

section Search
variable {b : LevelBook ι κ} {side : Side} {price : ℕ} {best : Ptr}

/-- The level at which the search stops, given the levels still ahead. -/
def stopAt (b : LevelBook ι κ) (side : Side) (price : ℕ) (best : Ptr) (v : List Ptr) :
    Ptr × Bool :=
  match v.dropWhile fun m => behind side price (b.level m).price with
  | [] => (best, true)
  | t :: _ => (t, false)

/-- Induction on the levels that are still ahead: they are followed by `best`. -/
theorem seek_spec {v : List Ptr} {target : Ptr} {fuel : ℕ}
    (hc : List.IsChain (Linked b.nextEntry b.prevEntry) (v ++ [best])) (hb : best ∉ v)
    (ht : (v ++ [best]).head? = some target) (hfuel : v.length + 2 ≤ fuel) :
    seek b side price best fuel target true = .ok (stopAt b side price best v) := by
  induction v generalizing target fuel with
  | nil =>
    obtain ⟨fuel, rfl⟩ : ∃ n, fuel = n + 1 := ⟨fuel - 1, by omega⟩
    simp only [List.nil_append, List.head?_cons, Option.some.injEq] at ht
    simp [seek, ← ht, stopAt]
  | cons x v ih =>
    simp only [List.length_cons] at hfuel
    obtain ⟨fuel, rfl⟩ : ∃ n, fuel = n + 2 := ⟨fuel - 2, by omega⟩
    simp only [List.cons_append, List.head?_cons, Option.some.injEq] at ht
    subst ht
    have hxb : x ≠ best := fun he => hb (by simp [he])
    by_cases hbeh : behind side price (b.level x).price = true
    · obtain ⟨y, hy⟩ : ∃ y, (v ++ [best]).head? = some y := by cases v <;> simp
      have hnext : (b.level x).nextEntry = some y := (hc.rel_head? hy).1
      have hrec : seek b side price best (fuel + 1) y true = .ok (stopAt b side price best v) :=
        ih hc.tail (fun hm => hb (List.mem_cons_of_mem _ hm)) hy (by omega)
      have hstop : stopAt b side price best (x :: v) = stopAt b side price best v := by
        simp [stopAt, hbeh]
      rw [hstop, ← hrec]
      conv_lhs => unfold seek
      simp [hxb, hbeh, hnext, bind, Except.bind]
    · have hstop : stopAt b side price best (x :: v) = (x, false) := by simp [stopAt, hbeh]
      rw [hstop]
      simp [seek, hxb, hbeh]

/-- The search finds the first level that the new one does not belong behind,
provided its first comparison agrees with the later ones or the ring has only
one level. -/
theorem findTarget_spec {k : BookKind ι κ} {v : List Ptr}
    (hr : Ring b.nextEntry b.prevEntry (best :: v))
    (hlen : (best :: v).length ≤ b.ordersAtPricePool.size)
    (hstart : k.startsAfter side price (b.level best).price = behind side price (b.level best).price
      ∨ v = [] ∧ k.startsAfter side price (b.level best).price = true) :
    findTarget k b side price best = .ok (stopAt b side price best (best :: v)) := by
  have hb : best ∉ v := (List.nodup_cons.mp hr.nodup).1
  obtain ⟨y, hy⟩ : ∃ y, (v ++ [best]).head? = some y := by cases v <;> simp
  have hc : List.IsChain (Linked b.nextEntry b.prevEntry) (best :: (v ++ [best])) := hr.chain
  have hnext : (b.level best).nextEntry = some y := (hc.rel_head? hy).1
  have hfuel : v.length + 2 ≤ b.ordersAtPricePool.size + 2 := by
    simp only [List.length_cons] at hlen; omega
  unfold findTarget
  by_cases hs : k.startsAfter side price (b.level best).price = true
  · simp only [hs, if_true, hnext, deref_some, bind, Except.bind]
    rcases v with _ | ⟨x, v⟩
    · simp only [List.nil_append, List.head?_cons, Option.some.injEq] at hy
      subst hy
      by_cases hbeh : behind side price (b.level best).price = true
      · simp [seek, stopAt, hbeh]
      · simp [seek, stopAt, hbeh]
    · simp only [List.cons_append, List.head?_cons, Option.some.injEq] at hy
      subst hy
      have hbeh : behind side price (b.level best).price = true := by
        rcases hstart with h | h
        · rw [← h]; exact hs
        · cases h.1
      have hstop : stopAt b side price best (best :: x :: v) =
          stopAt b side price best (x :: v) := by
        simp [stopAt, hbeh]
      rw [hstop]
      by_cases hx : behind side price (b.level x).price = true
      · rw [hx]
        exact seek_spec hc.tail hb rfl hfuel
      · simp [seek, stopAt, hx]
  · have hbeh : behind side price (b.level best).price = false := by
      rcases hstart with h | h
      · rw [← h]; simpa using hs
      · exact (hs h.2).elim
    simp [hs, seek, stopAt, hbeh]

end Search

section Placement
variable {k : BookKind ι κ} {b : LevelBook ι κ} {l : Ptr} {ls : List Ptr} {side : Side}
  {price : ℕ}

/-- The ring of a side after a level has been put in its place. -/
def placed (b : LevelBook ι κ) (side : Side) (price : ℕ) (l : Ptr) (ls : List Ptr) :
    List Ptr :=
  (ls.takeWhile fun m => behind side price (b.level m).price) ++
    l :: ls.dropWhile fun m => behind side price (b.level m).price

/-- `l` has become a member of the ring of its side, and nothing else changed. -/
structure Placed (b b' : LevelBook ι κ) (side : Side) (price : ℕ) (l : Ptr)
    (ls : List Ptr) : Prop where
  same : SameButLinks (b.setOrdersAtPrice price (some l)) b'
  best : b'.best (side == .buy) = (placed b side price l ls).head?
  otherBest : b'.best (!(side == .buy)) = b.best (!(side == .buy))
  ring : Ring b'.nextEntry b'.prevEntry (placed b side price l ls)
  next : ∀ q ∉ l :: ls, b'.nextEntry q = b.nextEntry q
  prev : ∀ q ∉ l :: ls, b'.prevEntry q = b.prevEntry q

/-- A level that belongs behind the best one leaves the best pointer alone. -/
theorem updateBest_behind {target best : Ptr}
    (h : behind (b.level l).side (b.level l).price (b.level best).price = true) :
    updateBest b l target best = b := by
  unfold behind at h
  unfold updateBest
  rw [if_neg]
  rintro (⟨hs, hp⟩ | ⟨hs, hp⟩) <;> simp [hs] at h <;> omega

/-- A level before the best one becomes the best; the extra assignment to
`next_entry_` writes back what is there. -/
theorem updateBest_front {best : Ptr} {w : List Ptr}
    (hr : Ring b.nextEntry b.prevEntry (best :: (w ++ [l])))
    (hs : (b.level l).side = .buy ∨ (b.level l).side = .sell)
    (hne : (b.level best).price ≠ (b.level l).price)
    (h : behind (b.level l).side (b.level l).price (b.level best).price = false) :
    updateBest b l best best = (b.setNextEntry best (b.nextEntry best)).setBest
      ((b.level l).side == .buy) (some l) := by
  have hnext : (b.level best).nextEntry ≠ some best := by
    rcases w with _ | ⟨x, w⟩
    · exact hr.next_ne_self
    · exact hr.next_ne_self
  unfold behind at h
  unfold updateBest
  rw [if_pos]
  · simp only [hnext, if_false, nextEntry]
  · rcases hs with hs | hs <;> simp [hs] at h ⊢ <;> omega

theorem addOrdersAtPrice_empty (hside : (b.level l).side = side)
    (hprice : (b.level l).price = price) (hbest : b.best (side == .buy) = none) :
    ∃ b', addOrdersAtPrice k b l = .ok b' ∧ Placed b b' side price l [] := by
  subst hside hprice
  set b₀ := b.setOrdersAtPrice (b.level l).price (some l) with hb₀
  have hb : b₀.best ((b.level l).side == .buy) = none := hbest
  refine ⟨_, by simp only [addOrdersAtPrice, ← hb₀, hb]; rfl, ?_⟩
  constructor
  · exact (SameButLinks.setBest _ _ _).trans <| (SameButLinks.setNextEntry _ _ _).trans
      (SameButLinks.setPrevEntry _ _ _)
  · change (b₀.setBest _ _).best _ = _
    simp [best_setBest, placed]
  · change (b₀.setBest _ _).best _ = _
    rw [best_setBest, if_neg (by simp)]
    rfl
  · exact .singleton (by simp) (by simp)
  · intro q hq
    have hql : q ≠ l := by simpa using hq
    simp only [nextEntry_setPrevEntry, nextEntry_setNextEntry, hql, if_false, nextEntry_setBest]
    rfl
  · intro q hq
    have hql : q ≠ l := by simpa using hq
    simp only [prevEntry_setPrevEntry, prevEntry_setNextEntry, hql, if_false, prevEntry_setBest]
    rfl

section Insert
variable {b' : LevelBook ι κ} {best p t z : Ptr} {u v w : List Ptr}

theorem Inserted.placed_last (h : Inserted (b.setOrdersAtPrice price (some l)) b' l p best)
    (hr : Ring b.nextEntry b.prevEntry (best :: v)) (hp : b.prevEntry best = some p)
    (hpm : p ∈ best :: v) (hl : l ∉ best :: v) (hbest : b.best (side == .buy) = some best)
    (hplaced : placed b side price l (best :: v) = best :: v ++ [l]) :
    Placed b b' side price l (best :: v) := by
  constructor
  · exact h.same
  · rw [hplaced, h.best]
    exact hbest
  · exact h.best _
  · rw [hplaced]
    exact h.ring hr hp hl
  · exact h.next_other hpm
  · exact h.prev_other List.mem_cons_self

theorem Inserted.placed_front (h : Inserted (b.setOrdersAtPrice price (some l)) b' l z t)
    (hring : Ring b'.nextEntry b'.prevEntry (l :: t :: v)) (hzm : z ∈ t :: v)
    (hplaced : placed b side price l (t :: v) = l :: t :: v) :
    Placed b ((b'.setNextEntry t (b'.nextEntry t)).setBest (side == .buy) (some l)) side price l
      (t :: v) := by
  constructor
  · exact h.same.trans <| (SameButLinks.setNextEntry _ _ _).trans (SameButLinks.setBest _ _ _)
  · rw [hplaced, best_setBest, if_pos rfl]
    rfl
  · rw [best_setBest, if_neg (by simp)]
    exact h.best _
  · rw [hplaced]
    apply hring.frame
    · intro c _
      rw [nextEntry_setBest, nextEntry_setNextEntry]
      split
      · next he => rw [he]
      · rfl
    · intro c _
      simp
  · intro q hq
    rw [nextEntry_setBest, nextEntry_setNextEntry]
    split
    · next he => exact (hq (by simp [he])).elim
    · exact h.next_other hzm q hq
  · intro q hq
    rw [prevEntry_setBest, prevEntry_setNextEntry]
    exact h.prev_other List.mem_cons_self q hq

theorem Inserted.placed_between (h : Inserted (b.setOrdersAtPrice price (some l)) b' l z t)
    (hring : Ring b'.nextEntry b'.prevEntry (best :: u ++ l :: t :: w))
    (hzm : z ∈ best :: v) (htm : t ∈ best :: v) (hbest : b.best (side == .buy) = some best)
    (hplaced : placed b side price l (best :: v) = best :: u ++ l :: t :: w) :
    Placed b b' side price l (best :: v) := by
  constructor
  · exact h.same
  · rw [hplaced, h.best]
    exact hbest
  · exact h.best _
  · rw [hplaced]
    exact hring
  · exact h.next_other hzm
  · exact h.prev_other htm

end Insert

/-- The whole insertion, over the place the search finds. The cases are the two
ways of linking: behind the last level, and before the level `t`. -/
theorem addOrdersAtPrice_spec (hside : (b.level l).side = side)
    (hprice : (b.level l).price = price) (hbest : b.best (side == .buy) = ls.head?)
    (hr : Ring b.nextEntry b.prevEntry ls) (hl : l ∉ ls)
    (hlen : ls.length ≤ b.ordersAtPricePool.size)
    (hvalid : side = .buy ∨ side = .sell ∨ ls = []) (hne : ∀ m ∈ ls, (b.level m).price ≠ price)
    (hstart : ∀ m w, ls = m :: w →
      k.startsAfter side price (b.level m).price = behind side price (b.level m).price ∨
      w = [] ∧ k.startsAfter side price (b.level m).price = true) :
    ∃ b', addOrdersAtPrice k b l = .ok b' ∧ Placed b b' side price l ls := by
  rcases ls with _ | ⟨best, v⟩
  · exact addOrdersAtPrice_empty hside hprice hbest
  replace hvalid : side = .buy ∨ side = .sell := by simpa using hvalid
  set b₀ := b.setOrdersAtPrice price (some l) with hb₀
  have hfind : findTarget k b₀ side price best = .ok (stopAt b side price best (best :: v)) :=
    findTarget_spec (b := b₀) hr hlen (hstart best v rfl)
  have hb : b₀.best (side == .buy) = some best := hbest
  have hsplit := List.takeWhile_append_dropWhile
    (p := fun m => behind side price (b.level m).price) (l := best :: v)
  rcases hd : (best :: v).dropWhile (fun m => behind side price (b.level m).price) with _ | ⟨t, w⟩
  · -- every level stays ahead of the new one
    have htw : (best :: v).takeWhile (fun m => behind side price (b.level m).price) = best :: v := by
      simpa [hd] using hsplit
    have hstop : stopAt b side price best (best :: v) = (best, true) := by simp only [stopAt, hd]
    have hplaced : placed b side price l (best :: v) = best :: v ++ [l] := by
      simp only [placed, hd, htw]
    have hlast := hr.prev_head
    set p := (best :: v).getLast (by simp) with hp
    have hpm : p ∈ best :: v := List.getLast_mem _
    have hlp : l ≠ p := fun he => hl (he ▸ hpm)
    have hlb : l ≠ best := fun he => hl (by simp [he])
    obtain ⟨b', hok, hins⟩ := linkAfter_spec (b := b₀) (l := l) (p := p) (t := best)
      hr.next_last hlb hlp
    have hprev : (b₀.level best).prevEntry = some p := hlast
    refine ⟨b', ?_, hins.placed_last hr hlast hpm hl hbest hplaced⟩
    simp only [addOrdersAtPrice, hside, hprice, ← hb₀, hb, hfind, hstop, bind, Except.bind,
      if_true, hprev, deref_some, hok]
  · -- the new level goes right before `t`
    have hstop : stopAt b side price best (best :: v) = (t, false) := by simp only [stopAt, hd]
    set u := (best :: v).takeWhile (fun m => behind side price (b.level m).price) with hu
    rw [hd] at hsplit
    have hplaced : placed b side price l (best :: v) = u ++ l :: t :: w := by
      simp only [placed, hd, hu]
    have htm : t ∈ best :: v := by rw [← hsplit]; simp
    have hlt : l ≠ t := fun he => hl (he ▸ htm)
    obtain ⟨z, hzm, hz⟩ := hr.prev_mem htm
    have hlz : l ≠ z := fun he => hl (he ▸ hzm)
    obtain ⟨b', hok, hins⟩ := linkBefore_spec (b := b₀) (l := l) (t := t) hz hlt hlz
    have hring : Ring b'.nextEntry b'.prevEntry (u ++ l :: t :: w) :=
      hins.ring_before (hsplit ▸ hr) hz (hsplit ▸ hl)
    have hcall : addOrdersAtPrice k b l = .ok (updateBest b' l t best) := by
      simp only [addOrdersAtPrice, hside, hprice, ← hb₀, hb, hfind, hstop, bind, Except.bind,
        Bool.false_eq_true, if_false, hok]
      rfl
    have hside' : (b'.level l).side = side := (hins.same.side l).trans hside
    have hprice' : (b'.level l).price = price := (hins.same.price l).trans hprice
    have hpriceb : (b'.level best).price = (b.level best).price := hins.same.price best
    rcases hu0 : u with _ | ⟨y, u'⟩
    · rw [hu0] at hsplit hring hplaced
      obtain ⟨rfl, rfl⟩ := List.cons.inj hsplit
      have hbeh : behind side price (b.level t).price = false := by
        rw [hu0] at hu
        by_contra hc
        simp [List.takeWhile_cons, hc] at hu
      have hturn : Ring b'.nextEntry b'.prevEntry ([l] ++ t :: w) := hring
      have hfront : Ring b'.nextEntry b'.prevEntry (t :: (w ++ [l])) := hturn.rotate
      have hupd := updateBest_front hfront (by rwa [hside'])
        (by rw [hpriceb, hprice']; exact hne t htm) (by rw [hside', hprice', hpriceb]; exact hbeh)
      rw [hside'] at hupd
      rw [hupd] at hcall
      exact ⟨_, hcall, hins.placed_front hring hzm hplaced⟩
    · rw [hu0] at hsplit hring hplaced
      obtain ⟨rfl, -⟩ := List.cons.inj hsplit
      have hbeh : behind side price (b.level y).price = true := by
        by_contra hc
        rw [hu] at hu0
        simp [hc] at hu0
      rw [updateBest_behind (by rw [hside', hprice', hpriceb]; exact hbeh)] at hcall
      exact ⟨b', hcall, hins.placed_between hring hzm htm hbest hplaced⟩

end Placement

end HighPerformance.LevelBook
