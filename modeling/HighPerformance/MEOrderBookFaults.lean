import HighPerformance.FailsOnly
import HighPerformance.MEOrderBookTrades

/-!
# What the calls of the order book may fail with

Null pointers, assertions and loops without end come from the rings and the pools. The only table
that an index of a request reaches is `cid_oid_to_order_`: its bounds check does not fail while
the new order's key fits, whatever the state of the book.
-/

namespace HighPerformance
open FallibleRun

/-- Neither a bounds check nor `FATAL`. -/
def Structural : Fault → Prop
  | .assertion _ | .nullDeref | .diverges => True
  | .fatal _ | .outOfRange _ => False

section Basics
variable {α : Type} {q : Option α} {cond : Bool} {msg : String}

theorem failsOnly_deref : FailsOnly Structural (deref q) := by
  cases q with
  | none => exact failsOnly_error trivial
  | some p => exact failsOnly_ok

theorem failsOnly_assert : FailsOnly Structural (assert cond msg) := by
  cases cond with
  | false => exact failsOnly_error trivial
  | true => exact failsOnly_ok

end Basics

namespace MemPool
variable {α : Type} {p : MemPool α} {initial fuel i : ℕ} {a : α}

theorem failsOnly_searchFree : FailsOnly Structural (p.searchFree initial fuel i) := by
  induction fuel generalizing i with
  | zero => exact failsOnly_error trivial
  | succ fuel ih =>
    have hnext : ∀ j, FailsOnly Structural
        (if initial = j then .error outOfSpace else p.searchFree initial fuel j) := by
      intro j
      split
      · exact failsOnly_error trivial
      · exact ih
    unfold searchFree
    split
    · exact failsOnly_ok
    · exact hnext _

theorem failsOnly_allocate : FailsOnly Structural (p.allocate a) := by
  apply failsOnly_assert.bind
  intro _ _
  apply FailsOnly.bind
  · exact failsOnly_searchFree.bind fun _ _ => failsOnly_pure
  · exact fun _ _ => failsOnly_pure

theorem failsOnly_deallocate : FailsOnly Structural (p.deallocate i) :=
  failsOnly_assert.bind fun _ _ => failsOnly_assert.bind fun _ _ => failsOnly_pure

end MemPool

namespace LevelBook
variable {ι κ : Type} {k : BookKind ι κ} {b : LevelBook ι κ} {p l best target : Ptr}
  {q : Option Ptr} {side : Side} {price fuel : ℕ} {addAfter isBid : Bool}

theorem failsOnly_seek : FailsOnly Structural (b.seek side price best fuel target addAfter) := by
  induction fuel generalizing target addAfter with
  | zero => exact failsOnly_error trivial
  | succ fuel ih =>
    unfold seek
    split
    · split
      · exact failsOnly_deref.bind fun _ _ => ih
      · exact ih
    · exact failsOnly_ok

theorem failsOnly_findTarget : FailsOnly Structural (findTarget k b side price best) := by
  unfold findTarget
  simp only
  split
  · exact failsOnly_deref.bind fun _ _ => failsOnly_seek
  · exact failsOnly_seek

theorem failsOnly_linkAfter : FailsOnly Structural (b.linkAfter l target) :=
  failsOnly_deref.bind fun _ _ => failsOnly_pure

theorem failsOnly_linkBefore : FailsOnly Structural (b.linkBefore l target) :=
  failsOnly_deref.bind fun _ _ => failsOnly_pure

theorem failsOnly_addOrdersAtPrice : FailsOnly Structural (addOrdersAtPrice k b l) := by
  unfold addOrdersAtPrice
  simp only
  split
  · exact failsOnly_pure
  · apply failsOnly_findTarget.bind
    intro r _
    split
    · split
      · exact failsOnly_deref.bind fun _ _ => failsOnly_linkAfter
      · exact failsOnly_linkAfter
    · exact failsOnly_linkBefore.bind fun _ _ => failsOnly_pure

theorem failsOnly_appendOrder : FailsOnly Structural (b.appendOrder p l) :=
  failsOnly_deref.bind fun _ _ => failsOnly_deref.bind fun _ _ => failsOnly_pure

theorem failsOnly_joinLevel : FailsOnly Structural (joinLevel k b p) := by
  unfold joinLevel
  split
  · exact MemPool.failsOnly_allocate.bind fun _ _ => failsOnly_addOrdersAtPrice
  · exact failsOnly_appendOrder

theorem failsOnly_unlinkLevel : FailsOnly Structural (b.unlinkLevel isBid l) := by
  unfold unlinkLevel
  simp only
  split
  · exact failsOnly_pure
  · exact failsOnly_deref.bind fun _ _ => failsOnly_deref.bind fun _ _ => failsOnly_pure

theorem failsOnly_leaveLevel : FailsOnly Structural (b.leaveLevel p) := by
  unfold leaveLevel
  simp only
  split
  · apply failsOnly_deref.bind
    intro l _
    apply failsOnly_unlinkLevel.bind
    intro b' _
    exact MemPool.failsOnly_deallocate.bind fun _ _ => failsOnly_pure
  · apply failsOnly_deref.bind
    intro before _
    apply failsOnly_deref.bind
    intro after _
    exact failsOnly_deref.bind fun _ _ => failsOnly_pure

variable [DecidableEq κ]

theorem failsOnly_addOrder (hkey : k.checkKey (k.key (b.order p).ident) = .ok ()) :
    FailsOnly Structural (addOrder k b p) := by
  apply failsOnly_joinLevel.bind
  intro b' hjoin
  simp only [(joinLevel_keepsOrders hjoin).ident, hkey]
  exact failsOnly_ok

theorem failsOnly_removeOrder (hkey : k.checkKey (k.key (b.order p).ident) = .ok ()) :
    FailsOnly Structural (removeOrder k b p) := by
  apply failsOnly_leaveLevel.bind
  intro b' hleave
  simp only [(leaveLevel_keepsOrders hleave).ident, hkey]
  exact MemPool.failsOnly_deallocate.bind fun _ _ => failsOnly_pure

end LevelBook

namespace MEOrderBook
open LevelBook

/-- The client order id has a place in `cid_oid_to_order_`. -/
def KeyFits (ident : MEOrderIds) : Prop := checkClientOrderKey (meBookKind.key ident) = .ok ()

section Calls
variable {m : MEOrderBook} {i : Incoming} {p : Ptr} {qty fuel : ℕ} {bids : Bool} {stops : ℕ → Bool}
  {order : MEOrder} {cid oid tid price : ℕ} {side : Side}

theorem failsOnly_getNextPriority : FailsOnly Structural (m.getNextPriority price) := by
  unfold getNextPriority
  split
  · exact failsOnly_ok
  · exact failsOnly_deref.bind fun _ _ => failsOnly_deref.bind fun _ _ => failsOnly_pure

theorem failsOnly_removeOrder (hkey : KeyFits (m.book.order p).ident) :
    FailsOnly Structural (m.removeOrder p) :=
  (LevelBook.failsOnly_removeOrder (k := meBookKind) hkey).bind fun _ _ => failsOnly_pure

theorem failsOnly_matchOrder (hkey : KeyFits (m.book.order p).ident) :
    FailsOnly Structural (m.matchOrder i p qty) := by
  unfold matchOrder
  simp only
  split
  · apply FailsOnly.bind
    · apply failsOnly_removeOrder
      have hident : ((m.book.setQty p ((m.book.order p).qty - min qty (m.book.order p).qty)).order
          p).ident = (m.book.order p).ident := by
        simp only [LevelBook.setQty, order_modifyOrder, if_true]
      exact hident ▸ hkey
    · exact fun _ _ => failsOnly_pure
  · exact failsOnly_pure

theorem failsOnly_matchLoop (h : HoldsOnly KeyFits m.book) :
    FailsOnly Structural (matchLoop i bids stops fuel m qty) := by
  induction fuel generalizing m qty with
  | zero => exact failsOnly_error trivial
  | succ fuel ih =>
    unfold matchLoop
    split
    · exact failsOnly_ok
    · split
      · exact failsOnly_ok
      · apply failsOnly_deref.bind
        intro itr hitr
        split
        · exact failsOnly_pure
        · have hkey : KeyFits (m.book.order itr).ident := (h.first _).deref hitr
          apply (failsOnly_matchOrder hkey).bind
          intro r hr
          exact (ih (holds_matchOrder h hr)).bind fun _ _ => failsOnly_pure

theorem failsOnly_checkForMatch (h : HoldsOnly KeyFits m.book) :
    FailsOnly Structural (m.checkForMatch i qty) := by
  unfold checkForMatch
  split
  · exact failsOnly_matchLoop h
  · exact failsOnly_matchLoop h
  · exact failsOnly_ok

theorem failsOnly_restOrder (hkey : KeyFits order.ident) :
    FailsOnly Structural (m.restOrder order) := by
  apply MemPool.failsOnly_allocate.bind
  intro r halloc
  obtain ⟨-, -, hstore⟩ := MemPool.allocate_eq_ok halloc
  have hident : (({ m.book with orderPool := r.2 } : LevelBook MEOrderIds ClientOrderKey).order
      r.1).ident = order.ident := by
    simp only [LevelBook.order, MemPool.get, hstore, Function.update_self]
  have hkey' : meBookKind.checkKey (meBookKind.key (({ m.book with orderPool := r.2 } :
      LevelBook MEOrderIds ClientOrderKey).order r.1).ident) = .ok () := by
    rw [hident]
    exact hkey
  exact (LevelBook.failsOnly_addOrder hkey').bind fun _ _ => failsOnly_pure

/-- The key is needed only where the trades leave something of the order. -/
theorem failsOnly_add (h : HoldsOnly KeyFits m.book)
    (hkey : ((m.trades ⟨cid, oid, tid, side, price, m.nextMarketOrderId % 2 ^ 32⟩ qty).map
      Fill.execQty).sum ≠ qty → checkClientOrderKey (cid, oid) = .ok ()) :
    FailsOnly Structural (m.add cid oid tid side price qty) := by
  unfold add
  simp only
  apply (failsOnly_checkForMatch h).bind
  intro x hx
  have hleaves := checkForMatch_leaves hx
  split
  · exact failsOnly_pure
  next hrest =>
    have hfits : checkClientOrderKey (cid, oid) = .ok () := by
      apply hkey
      rw [generateNewMarketOrderId] at hleaves
      omega
    apply failsOnly_getNextPriority.bind
    intro priority _
    apply FailsOnly.bind
    · exact failsOnly_restOrder hfits
    · exact fun _ _ => failsOnly_pure

theorem failsOnly_cancel (h : HoldsOnly KeyFits m.book) (hoid : oid < meMaxOrderIds) :
    FailsOnly Structural (m.cancel cid oid tid) := by
  unfold cancel
  split
  · simp only [at?_lt hoid]
    cases hp : m.book.idToOrder (cid, oid) with
    | none => exact failsOnly_ok
    | some p =>
      have hkey : KeyFits (m.book.order p).ident := h.entry _ p hp
      exact (failsOnly_removeOrder hkey).bind fun _ _ => failsOnly_pure
  · exact failsOnly_ok

/-- The order that comes to rest has been entered in `cid_oid_to_order_`. -/
theorem fits_add {m' : MEOrderBook} {out : List Outgoing} (h : HoldsOnly KeyFits m.book)
    (hok : m.add cid oid tid side price qty = .ok (m', out)) : HoldsOnly KeyFits m'.book := by
  obtain ⟨x, hx, ⟨-, rfl, -⟩ | ⟨-, priority, hrest, -⟩⟩ := add_eq_ok hok
  · exact holds_checkForMatch h hx
  · obtain ⟨p, -, hkey, -⟩ := restOrder_entry hrest
    exact holds_restOrder (holds_checkForMatch h hx) hkey rfl rfl hrest

end Calls

end MEOrderBook

end HighPerformance
