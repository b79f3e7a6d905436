import HighPerformance.MEOrderBook
import HighPerformance.PriceLevelShape

/-!
# Printing the exchange's order book

`MEOrderBook::toString` walks over both sides and, with `validity_check`, ends the process at
a level whose price is not worse than the one before it. The last price of both sides starts
at 0: for the asks every price is above it, and for the bids none is below it, so the
check stops at the best bid of every book that has one. The client's book starts its bids
with the greatest price.
-/

namespace HighPerformance

/-- `%3s` -/
def padLeft (n : ℕ) (s : String) : String := String.ofList (List.replicate (n - s.length) ' ') ++ s

/-- `%-3s` -/
def padRight (n : ℕ) (s : String) : String := s ++ String.ofList (List.replicate (n - s.length) ' ')

namespace MEOrderBook

def moidOf (m : MEOrderBook) : Option Ptr → ℕ
  | none => orderIdInvalid
  | some p => (m.book.order p).ident.marketOrderId

def priceOf (m : MEOrderBook) : Option Ptr → ℕ
  | none => priceInvalid
  | some l => (m.book.level l).price

/-- `MEOrder::toString` -/
def orderText (m : MEOrderBook) (p : Ptr) : String :=
  let o := m.book.order p
  "MEOrder [ticker:" ++ tickerIdToString o.ident.tickerId ++
    " cid:" ++ clientIdToString o.ident.clientId ++
    " coid:" ++ orderIdToString o.ident.clientOrderId ++
    " moid:" ++ orderIdToString o.ident.marketOrderId ++ " side:" ++ sideToString o.side ++
    " price:" ++ priceToString o.price ++ " prio:" ++ priorityToString o.priority ++
    " prev:" ++ orderIdToString (m.moidOf o.prevOrder) ++
    " next:" ++ orderIdToString (m.moidOf o.nextOrder) ++ "]"

/-- `MEOrdersAtPrice::toString` -/
def levelText (m : MEOrderBook) (l : Ptr) : String :=
  let level := m.book.level l
  let firstText := match level.firstOrder with
    | none => "null"
    | some p => m.orderText p
  "MEOrdersAtPrice [side:" ++ sideToString level.side ++ " price:" ++ priceToString level.price ++
    "first_me_order:" ++ firstText ++ " prev:" ++ priceToString (m.priceOf level.prevEntry) ++
    " next:" ++ priceToString (m.priceOf level.nextEntry) ++ " ]"

/-- The first loop of `printer`: the quantity and the number of the orders. -/
def countOrders (m : MEOrderBook) (first : Option Ptr) :
    ℕ → Option Ptr → ℕ → ℕ → Except Fault (ℕ × ℕ)
  | 0, _, _, _ => .error .diverges
  | fuel + 1, order, qty, numOrders => do
      let p ← deref order
      let qty := (qty + (m.book.order p).qty) % 2 ^ 32
      if (m.book.order p).nextOrder = first then return (qty, numOrders + 1)
      countOrders m first fuel (m.book.order p).nextOrder qty (numOrders + 1)

def detailText (m : MEOrderBook) (p : Ptr) : String :=
  let o := m.book.order p
  "[oid:" ++ orderIdToString o.ident.marketOrderId ++ " q:" ++ qtyToString o.qty ++
    " p:" ++ orderIdToString (m.moidOf o.prevOrder) ++
    " n:" ++ orderIdToString (m.moidOf o.nextOrder) ++ "] "

/-- The second loop of `printer`. -/
def printOrders (m : MEOrderBook) (detailed : Bool) (first : Option Ptr) :
    ℕ → Option Ptr → String → Except Fault String
  | 0, _, _ => .error .diverges
  | fuel + 1, order, text => do
      let p ← deref order
      let text := if detailed then text ++ m.detailText p else text
      if (m.book.order p).nextOrder = first then return text
      printOrders m detailed first fuel (m.book.order p).nextOrder text

def notSorted (m : MEOrderBook) (lastPrice : ℕ) (l : Ptr) : Fault :=
  .fatal ("Bids/Asks not sorted by ascending/descending prices last:" ++
    priceToString lastPrice ++ " itr:" ++ m.levelText l)

/-- `printer`: the text of a level, and the last price after it. -/
def printer (m : MEOrderBook) (detailed sanityCheck : Bool) (side : Side) (l : Ptr)
    (lastPrice : ℕ) : Except Fault (String × ℕ) := do
  let level := m.book.level l
  let fuel := m.book.orderPool.size + 1
  let (qty, numOrders) ← m.countOrders level.firstOrder fuel level.firstOrder 0 0
  let prev ← deref level.prevEntry
  let next ← deref level.nextEntry
  let text := " <px:" ++ padLeft 3 (priceToString level.price) ++
    " p:" ++ padLeft 3 (priceToString (m.book.level prev).price) ++
    " n:" ++ padLeft 3 (priceToString (m.book.level next).price) ++
    "> " ++ padRight 3 (priceToString level.price) ++ " @ " ++ padRight 5 (qtyToString qty) ++
    "(" ++ padRight 4 (toString numOrders) ++ ")"
  let text ← m.printOrders detailed level.firstOrder fuel level.firstOrder text
  if sanityCheck then
    if (side = .sell ∧ lastPrice ≥ level.price) ∨ (side = .buy ∧ lastPrice ≤ level.price) then
      .error (m.notSorted lastPrice l)
    else return (text ++ "\n", level.price)
  else return (text ++ "\n", lastPrice)

/-- The loop of `toString` over the levels of one side. -/
def printSide (m : MEOrderBook) (detailed sanityCheck : Bool) (title : String) (side : Side)
    (best : Option Ptr) : ℕ → Option Ptr → ℕ → ℕ → String → Except Fault String
  | 0, _, _, _, _ => .error .diverges
  | _ + 1, none, _, _, text => .ok text
  | fuel + 1, some l, count, lastPrice, text => do
      let next := if (m.book.level l).nextEntry = best then none else (m.book.level l).nextEntry
      let (levelText, lastPrice) ← m.printer detailed sanityCheck side l lastPrice
      printSide m detailed sanityCheck title side best fuel next (count + 1) lastPrice
        (text ++ title ++ " L:" ++ toString count ++ " => " ++ levelText)

/-- Both last prices start with `std::numeric_limits<Price>::min()`. -/
def toString (m : MEOrderBook) (detailed validityCheck : Bool) : Except Fault String := do
  let fuel := m.book.ordersAtPricePool.size + 1
  let text := "Ticker:" ++ tickerIdToString m.tickerId ++ "\n"
  let text ← m.printSide detailed validityCheck "ASKS" .sell m.book.asksByPrice fuel
    m.book.asksByPrice 0 0 text
  let text := text ++ "\n                    X\n\n"
  m.printSide detailed validityCheck "BIDS" .buy m.book.bidsByPrice fuel m.book.bidsByPrice 0 0 text

/-! ## Closed rings -/

open CircularList LevelBook

/-- The level is in its pool, its price is that of an order, and its orders form a ring. -/
structure ClosedLevel (m : MEOrderBook) (l : Ptr) : Prop where
  mem : l < m.book.ordersAtPricePool.size
  price_pos : 0 < (m.book.level l).price
  price_lt : (m.book.level l).price < priceInvalid
  orders : ∃ p ps, (m.book.level l).firstOrder = some p ∧
    Ring m.book.nextOrder m.book.prevOrder (p :: ps) ∧
    ∀ q ∈ p :: ps, q < m.book.orderPool.size

/-- The levels of one side, from the best one, form a ring. -/
structure ClosedSide (m : MEOrderBook) (d : Bool) (levels : List Ptr) : Prop where
  best : m.book.best d = levels.head?
  ring : Ring m.book.nextEntry m.book.prevEntry levels
  levels : ∀ l ∈ levels, m.ClosedLevel l

def prices (m : MEOrderBook) (levels : List Ptr) : List ℕ := levels.map fun l => (m.book.level l).price

/-- Each price is worse than the one before it. -/
def Sorted (m : MEOrderBook) (d : Bool) (levels : List Ptr) : Prop :=
  (m.prices levels).IsChain (better d)

section Walks
variable {m : MEOrderBook} {d detailed : Bool} {l : Ptr} {levels : List Ptr}

theorem length_le_size {xs : List Ptr} {n : ℕ} (hnd : xs.Nodup) (hlt : ∀ x ∈ xs, x < n) :
    xs.length ≤ n := by
  have hsub : xs ⊆ List.range n := fun x hx => List.mem_range.mpr (hlt x hx)
  have hle := (hnd.subperm hsub).length_le
  rwa [List.length_range] at hle

/-- A walk over the orders behind `p`, which are followed by the first one again, ends. -/
theorem orderWalk_ok {σ : Type} (walk : ℕ → Option Ptr → σ → Except Fault σ) (visit : Ptr → σ → σ)
    {first p : Ptr} {ps : List Ptr} {fuel : ℕ} {s : σ}
    (hstep : ∀ fuel p s, walk (fuel + 1) (some p) s =
      if (m.book.order p).nextOrder = some first then .ok (visit p s)
      else walk fuel (m.book.order p).nextOrder (visit p s))
    (hc : List.IsChain (Linked m.book.nextOrder m.book.prevOrder) (p :: ps ++ [first]))
    (hf : first ∉ ps) (hlen : ps.length < fuel) : ∃ r, walk fuel (some p) s = .ok r := by
  obtain ⟨fuel, rfl⟩ := Nat.exists_eq_succ_of_ne_zero (Nat.ne_of_gt (Nat.zero_lt_of_lt hlen))
  induction ps generalizing p fuel s with
  | nil =>
    have hnext : (m.book.order p).nextOrder = some first := (List.isChain_cons_cons.mp hc).1.1
    rw [hstep, if_pos hnext]
    exact ⟨_, rfl⟩
  | cons q ps ih =>
    rw [List.cons_append, List.cons_append, List.isChain_cons_cons] at hc
    have hnext : (m.book.order p).nextOrder = some q := hc.1.1
    have hqf : some q ≠ some first := fun he => hf (by simp [Option.some.inj he])
    obtain ⟨fuel, rfl⟩ : ∃ k, fuel = k + 1 := ⟨fuel - 1, by simp at hlen; omega⟩
    rw [hstep, hnext, if_neg hqf]
    exact ih hc.2 (fun hm => hf (List.mem_cons_of_mem q hm)) fuel (by simpa using hlen)

theorem countOrders_ok {first p : Ptr} {ps : List Ptr} {fuel qty n : ℕ}
    (hc : List.IsChain (Linked m.book.nextOrder m.book.prevOrder) (p :: ps ++ [first]))
    (hf : first ∉ ps) (hlen : ps.length < fuel) :
    ∃ r, m.countOrders (some first) fuel (some p) qty n = .ok r :=
  orderWalk_ok (fun fuel q s => m.countOrders (some first) fuel q s.1 s.2)
    (fun p s => ((s.1 + (m.book.order p).qty) % 2 ^ 32, s.2 + 1)) (s := (qty, n))
    (fun _ _ _ => rfl) hc hf hlen

theorem printOrders_ok {first p : Ptr} {ps : List Ptr} {fuel : ℕ} {text : String}
    (hc : List.IsChain (Linked m.book.nextOrder m.book.prevOrder) (p :: ps ++ [first]))
    (hf : first ∉ ps) (hlen : ps.length < fuel) :
    ∃ t, m.printOrders detailed (some first) fuel (some p) text = .ok t :=
  orderWalk_ok (m.printOrders detailed (some first))
    (fun p text => if detailed then text ++ m.detailText p else text)
    (fun _ _ _ => rfl) hc hf hlen

/-- The check of one level accepts it exactly when its price is worse than the last one. -/
theorem printer_spec (hside : m.ClosedSide d levels) (hl : l ∈ levels) (detailed : Bool)
    (last : ℕ) :
    (better d last (m.book.level l).price →
        ∃ text, m.printer detailed true (sideOf d) l last = .ok (text, (m.book.level l).price)) ∧
      (¬better d last (m.book.level l).price →
        m.printer detailed true (sideOf d) l last = .error (m.notSorted last l)) := by
  obtain ⟨p, ps, hfirst, hring, hmem⟩ := (hside.levels l hl).orders
  have hfuel : ps.length < m.book.orderPool.size + 1 := by
    have hlen := length_le_size hring.nodup hmem
    rw [List.length_cons] at hlen
    omega
  have hnotin := (List.nodup_cons.mp hring.nodup).1
  obtain ⟨⟨qty, n⟩, hcount⟩ : ∃ r, m.countOrders (some p) (m.book.orderPool.size + 1) (some p) 0 0 =
      .ok r := countOrders_ok hring.chain hnotin hfuel
  obtain ⟨prev, -, hprev⟩ := hside.ring.prev_mem hl
  obtain ⟨next, -, hnext⟩ := hside.ring.next_mem hl
  have hprev' : (m.book.level l).prevEntry = some prev := hprev
  have hnext' : (m.book.level l).nextEntry = some next := hnext
  obtain ⟨text, htext⟩ := @printOrders_ok m detailed p p ps (m.book.orderPool.size + 1)
    (" <px:" ++ padLeft 3 (priceToString (m.book.level l).price) ++
      " p:" ++ padLeft 3 (priceToString (m.book.level prev).price) ++
      " n:" ++ padLeft 3 (priceToString (m.book.level next).price) ++
      "> " ++ padRight 3 (priceToString (m.book.level l).price) ++
      " @ " ++ padRight 5 (qtyToString qty) ++
      "(" ++ padRight 4 (ToString.toString n) ++ ")") hring.chain hnotin hfuel
  have hcheck : ((sideOf d = .sell ∧ last ≥ (m.book.level l).price) ∨
      (sideOf d = .buy ∧ last ≤ (m.book.level l).price)) ↔
        ¬better d last (m.book.level l).price := by
    cases d <;> simp [sideOf, better]
  have hrun : m.printer detailed true (sideOf d) l last =
      if (sideOf d = .sell ∧ last ≥ (m.book.level l).price) ∨
          (sideOf d = .buy ∧ last ≤ (m.book.level l).price) then .error (m.notSorted last l)
      else .ok (text ++ "\n", (m.book.level l).price) := by
    unfold printer
    simp only [hfirst, hcount, hprev', hnext', deref_some]
    change (m.printOrders _ _ _ _ _).bind _ = _
    rw [htext]
    rfl
  constructor
  · intro hb
    rw [hrun, if_neg (by rw [hcheck, not_not]; exact hb)]
    exact ⟨_, rfl⟩
  · intro hb
    rw [hrun, if_pos (hcheck.mpr hb)]

theorem printSide_succ {check : Bool} {title text : String} {side : Side} {best : Option Ptr}
    {fuel count last : ℕ} :
    m.printSide detailed check title side best (fuel + 1) (some l) count last text =
      (m.printer detailed check side l last).bind fun r =>
        m.printSide detailed check title side best fuel
          (if (m.book.level l).nextEntry = best then none else (m.book.level l).nextEntry)
          (count + 1) r.2 (text ++ title ++ " L:" ++ ToString.toString count ++ " => " ++ r.1) := rfl

/-- The walk over the levels from `l` on, which are followed by the best one again, ends, and it
accepts them exactly when each price is worse than the one before it. -/
theorem printSide_spec (hside : m.ClosedSide d levels) {best : Ptr} {ls : List Ptr}
    {title text : String} {fuel count last : ℕ} (hls : ∀ x ∈ l :: ls, x ∈ levels)
    (hc : List.IsChain (Linked m.book.nextEntry m.book.prevEntry) (l :: ls ++ [best]))
    (hb : best ∉ ls) (hlen : ls.length + 1 < fuel) :
    (List.IsChain (better d) (last :: m.prices (l :: ls)) →
      ∃ t, m.printSide detailed true title (sideOf d) (some best) fuel (some l) count last text =
        .ok t) ∧
    (¬List.IsChain (better d) (last :: m.prices (l :: ls)) →
      ∃ msg, m.printSide detailed true title (sideOf d) (some best) fuel (some l) count last text =
        .error (.fatal msg)) := by
  obtain ⟨fuel, rfl⟩ : ∃ k, fuel = k + 1 := ⟨fuel - 1, by omega⟩
  induction ls generalizing l fuel count last text with
  | nil =>
    obtain ⟨haccept, hreject⟩ := printer_spec hside (hls l (by simp)) detailed last
    have hnext : (m.book.level l).nextEntry = some best := (List.isChain_cons_cons.mp hc).1.1
    obtain ⟨fuel, rfl⟩ : ∃ k, fuel = k + 1 := ⟨fuel - 1, by simp at hlen; omega⟩
    simp only [prices, List.map_cons, List.map_nil, List.isChain_cons_cons, List.isChain_singleton,
      and_true]
    rw [printSide_succ, if_pos hnext]
    constructor
    · intro hbetter
      obtain ⟨t, ht⟩ := haccept hbetter
      rw [ht]
      exact ⟨_, rfl⟩
    · intro hworse
      rw [hreject hworse]
      exact ⟨_, rfl⟩
  | cons k ls ih =>
    obtain ⟨haccept, hreject⟩ := printer_spec hside (hls l (by simp)) detailed last
    rw [List.cons_append, List.cons_append, List.isChain_cons_cons] at hc
    have hnext : (m.book.level l).nextEntry = some k := hc.1.1
    have hkb : some k ≠ some best := fun he => hb (by simp [Option.some.inj he])
    obtain ⟨fuel, rfl⟩ : ∃ n, fuel = n + 1 := ⟨fuel - 1, by simp at hlen; omega⟩
    have hrest : ∀ text, _ := fun text => @ih k text (count + 1) (m.book.level l).price
      (fun x hx => hls x (List.mem_cons_of_mem l hx)) hc.2
      (fun hm => hb (List.mem_cons_of_mem k hm)) fuel (by simpa using hlen)
    rw [printSide_succ, hnext, if_neg hkb, prices, List.map_cons, List.isChain_cons_cons]
    by_cases hbetter : better d last (m.book.level l).price
    · obtain ⟨t, ht⟩ := haccept hbetter
      rw [ht]
      constructor
      · intro hchain
        exact (hrest _).1 hchain.2
      · intro hchain
        exact (hrest _).2 fun hc' => hchain ⟨hbetter, hc'⟩
    · rw [hreject hbetter]
      constructor
      · intro hchain
        exact absurd hchain.1 hbetter
      · intro _
        exact ⟨_, rfl⟩

theorem printSide_levels (hside : m.ClosedSide d levels) (title text : String) (last : ℕ) :
    (List.IsChain (better d) (last :: m.prices levels) →
      ∃ t, m.printSide detailed true title (sideOf d) (m.book.best d)
        (m.book.ordersAtPricePool.size + 1) (m.book.best d) 0 last text = .ok t) ∧
    (¬List.IsChain (better d) (last :: m.prices levels) →
      ∃ msg, m.printSide detailed true title (sideOf d) (m.book.best d)
        (m.book.ordersAtPricePool.size + 1) (m.book.best d) 0 last text = .error (.fatal msg)) := by
  rw [hside.best]
  cases levels with
  | nil =>
    constructor
    · intro _
      exact ⟨text, rfl⟩
    · intro hchain
      exact absurd (.singleton last) hchain
  | cons l ls =>
    have hlen := length_le_size hside.ring.nodup fun x hx => (hside.levels x hx).mem
    rw [List.length_cons] at hlen
    exact printSide_spec hside (fun x hx => hx) hside.ring.chain
      (List.nodup_cons.mp hside.ring.nodup).1 (by omega)

/-- Above the least price the asks are checked for being sorted, and nothing else. -/
theorem asks_accepted_iff (hside : m.ClosedSide false levels) :
    List.IsChain (better false) (0 :: m.prices levels) ↔ m.Sorted false levels := by
  cases levels with
  | nil => exact ⟨fun _ => .nil, fun _ => .singleton 0⟩
  | cons l ls =>
    have hpos : better false 0 (m.book.level l).price := (hside.levels l (by simp)).price_pos
    rw [Sorted, prices, List.map_cons, List.isChain_cons_cons]
    exact and_iff_right hpos

theorem bids_accepted_iff : List.IsChain (better true) (0 :: m.prices levels) ↔ levels = [] := by
  cases levels with
  | nil => exact ⟨fun _ => rfl, fun _ => .singleton 0⟩
  | cons l ls =>
    rw [prices, List.map_cons, List.isChain_cons_cons]
    constructor
    · intro h
      exact absurd h.1 (Nat.not_lt_zero _)
    · intro h
      exact absurd h (by simp)

end Walks

theorem toString_eq {m : MEOrderBook} {detailed check : Bool} :
    m.toString detailed check =
      (m.printSide detailed check "ASKS" (sideOf false) (m.book.best false)
        (m.book.ordersAtPricePool.size + 1) (m.book.best false) 0 0
        ("Ticker:" ++ tickerIdToString m.tickerId ++ "\n")).bind fun text =>
      m.printSide detailed check "BIDS" (sideOf true) (m.book.best true)
        (m.book.ordersAtPricePool.size + 1) (m.book.best true) 0 0
        (text ++ "\n                    X\n\n") := rfl

section Check
variable {m : MEOrderBook} {asks bids : List Ptr}

theorem toString_ok (hasks : m.ClosedSide false asks) (hbids : m.ClosedSide true bids)
    (hsorted : m.Sorted false asks) (hempty : bids = []) (detailed : Bool) :
    ∃ t, m.toString detailed true = .ok t := by
  obtain ⟨t, ht⟩ := (printSide_levels hasks "ASKS" _ 0).1 ((asks_accepted_iff hasks).mpr hsorted)
  rw [toString_eq, ht]
  exact (printSide_levels hbids "BIDS" _ 0).1 (bids_accepted_iff.mpr hempty)

theorem toString_fatal (hasks : m.ClosedSide false asks) (hbids : m.ClosedSide true bids)
    (h : ¬m.Sorted false asks ∨ bids ≠ []) (detailed : Bool) :
    ∃ msg, m.toString detailed true = .error (.fatal msg) := by
  rw [toString_eq]
  by_cases hsorted : m.Sorted false asks
  · have hbid : bids ≠ [] := h.resolve_left (not_not.mpr hsorted)
    obtain ⟨t, ht⟩ := (printSide_levels hasks "ASKS" _ 0).1 ((asks_accepted_iff hasks).mpr hsorted)
    rw [ht]
    exact (printSide_levels hbids "BIDS" _ 0).2 fun hchain => hbid (bids_accepted_iff.mp hchain)
  · obtain ⟨msg, hmsg⟩ := (printSide_levels hasks "ASKS" _ 0).2 fun hchain =>
      hsorted ((asks_accepted_iff hasks).mp hchain)
    rw [hmsg]
    exact ⟨msg, rfl⟩

/-- The check ends, and stops the process exactly at a book with a side that is not sorted. With
`detailed` off it is what the destructor runs. -/
structure ChecksSorting (m : MEOrderBook) (asks bids : List Ptr) (detailed : Bool) : Prop where
  ends : (∃ t, m.toString detailed true = .ok t) ∨
    ∃ msg, m.toString detailed true = .error (.fatal msg)
  fatal_iff : (∃ msg, m.toString detailed true = .error (.fatal msg)) ↔
    ¬m.Sorted false asks ∨ ¬m.Sorted true bids

theorem toString_checksSorting_iff (hasks : m.ClosedSide false asks)
    (hbids : m.ClosedSide true bids) :
    (∀ detailed, m.ChecksSorting asks bids detailed) ↔
      bids = [] ∨ ¬m.Sorted false asks ∨ ¬m.Sorted true bids := by
  constructor
  · intro h
    by_cases hempty : bids = []
    · exact .inl hempty
    · exact .inr ((h false).fatal_iff.mp (toString_fatal hasks hbids (.inr hempty) false))
  · intro h detailed
    by_cases hok : m.Sorted false asks ∧ bids = []
    · obtain ⟨t, ht⟩ := toString_ok hasks hbids hok.1 hok.2 detailed
      refine ⟨.inl ⟨t, ht⟩, ?_⟩
      rw [ht, hok.2]
      constructor
      · rintro ⟨msg, hmsg⟩
        cases hmsg
      · rintro (hbad | hbad)
        · exact absurd hok.1 hbad
        · exact absurd .nil hbad
    · have hbad : ¬m.Sorted false asks ∨ bids ≠ [] := not_and_or.mp hok
      have hfatal := toString_fatal hasks hbids hbad detailed
      refine ⟨.inr hfatal, ?_⟩
      rcases h with hempty | hunsorted
      · exact iff_of_true hfatal (.inl (hbad.resolve_right fun hne => hne hempty))
      · exact iff_of_true hfatal hunsorted

end Check

/-- The book after asks for 5 at 12, 3 at 13 and 2 at 12, and bids for 4 at 10 and 6 at 9. -/
def twoSided : MEOrderBook :=
  let orders : List (ℕ × Side × ℕ × ℕ) :=
    [(0, .sell, 12, 5), (1, .sell, 13, 3), (2, .buy, 10, 4), (3, .buy, 9, 6), (4, .sell, 12, 2)]
  orders.foldl (fun m o =>
    match m.add 1 o.1 0 o.2.1 o.2.2.1 o.2.2.2 with
    | .ok r => r.1
    | .error _ => m) (init 0)

theorem twoSided_closed :
    twoSided.ClosedSide false [0, 1] ∧ twoSided.ClosedSide true [2, 3] := by
  constructor
  · refine ⟨rfl, ⟨by decide, .cons_cons ⟨rfl, rfl⟩ (.cons_cons ⟨rfl, rfl⟩ (.singleton 0))⟩, ?_⟩
    intro l hl
    simp only [List.mem_cons, List.not_mem_nil, or_false] at hl
    rcases hl with rfl | rfl
    · exact ⟨by decide, by decide, by decide, 0, [4], rfl,
        ⟨by decide, .cons_cons ⟨rfl, rfl⟩ (.cons_cons ⟨rfl, rfl⟩ (.singleton 0))⟩, by decide⟩
    · exact ⟨by decide, by decide, by decide, 1, [], rfl,
        ⟨by decide, .cons_cons ⟨rfl, rfl⟩ (.singleton 1)⟩, by decide⟩
  · refine ⟨rfl, ⟨by decide, .cons_cons ⟨rfl, rfl⟩ (.cons_cons ⟨rfl, rfl⟩ (.singleton 2))⟩, ?_⟩
    intro l hl
    simp only [List.mem_cons, List.not_mem_nil, or_false] at hl
    rcases hl with rfl | rfl
    · exact ⟨by decide, by decide, by decide, 2, [], rfl,
        ⟨by decide, .cons_cons ⟨rfl, rfl⟩ (.singleton 2)⟩, by decide⟩
    · exact ⟨by decide, by decide, by decide, 3, [], rfl,
        ⟨by decide, .cons_cons ⟨rfl, rfl⟩ (.singleton 3)⟩, by decide⟩

theorem twoSided_checksSorting_iff :
    (∀ detailed, twoSided.ChecksSorting [0, 1] [2, 3] detailed) ↔
      [2, 3] = ([] : List Ptr) ∨ ¬twoSided.Sorted false [0, 1] ∨ ¬twoSided.Sorted true [2, 3] :=
  toString_checksSorting_iff twoSided_closed.1 twoSided_closed.2

/-- The book after a bid for 5 at 10. -/
def oneBid : MEOrderBook :=
  match (init 0).add 1 1 0 .buy 10 5 with
  | .ok r => r.1
  | .error _ => init 0

theorem oneBid_closed : oneBid.ClosedSide false [] ∧ oneBid.ClosedSide true [0] := by
  constructor
  · exact ⟨rfl, trivial, by simp⟩
  · refine ⟨rfl, ⟨by simp, .cons_cons ⟨rfl, rfl⟩ (.singleton 0)⟩, ?_⟩
    intro l hl
    rw [List.mem_singleton.mp hl]
    exact ⟨by decide, by decide, by decide, 0, [], rfl,
      ⟨by simp, .cons_cons ⟨rfl, rfl⟩ (.singleton 0)⟩, by decide⟩

/-- A sorted book with one bid cannot be destroyed. -/
theorem oneBid_stops_process : ¬ ∀ (m : MEOrderBook) (asks bids : List Ptr),
    m.ClosedSide false asks → m.ClosedSide true bids →
    ∀ detailed, m.ChecksSorting asks bids detailed := by
  intro h
  have hfatal := toString_fatal oneBid_closed.1 oneBid_closed.2 (.inr (by simp)) false
  have hchecks := h oneBid [] [0] oneBid_closed.1 oneBid_closed.2 false
  rcases hchecks.fatal_iff.mp hfatal with hasks | hbids
  · exact hasks .nil
  · exact hbids (.singleton _)

end MEOrderBook

end HighPerformance
