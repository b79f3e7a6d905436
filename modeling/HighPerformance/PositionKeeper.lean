import HighPerformance.FallibleRun
import HighPerformance.MarketOrderBook
import Mathlib.Data.Rat.Cast.Defs
import Mathlib.Algebra.Order.Field.Rat
import Mathlib.Tactic.FieldSimp
import Mathlib.Tactic.Linarith
import Mathlib.Tactic.Ring

/-!
# Positions and their profit and loss

`PositionInfo` for one ticker. `F` stands for the type `double`, of which the
code uses only the operations named below; the accounting rules are proved at the rationals.
`position_` and the other `int32_t` values are integers: a conversion wraps, while a result of
`int` arithmetic outside the type is undefined and ends the run. `bbo_` is only
printed and left out.
-/

namespace HighPerformance
open FallibleRun

/-- The underlying `int8_t`. -/
def sideToValue : Side → ℤ
  | .invalid => 0
  | .buy => 1
  | .sell => -1
  | .max => 2
  | .unnamed code => if code.val < 125 then code.val + 3 else code.val - 253

/-- A `size_t`: the sum wraps. -/
def sideToIndex (side : Side) : ℕ := ((sideToValue side + 1) % 2 ^ 64).toNat

/-- Conversion to `int32_t`. -/
def toInt32 (n : ℤ) : ℤ := n.bmod (2 ^ 32)

/-- The result of an `int` operation. -/
def int32 (n : ℤ) : Except Fault ℤ :=
  if -2 ^ 31 ≤ n ∧ n < 2 ^ 31 then .ok n else .error (.outOfRange "int")

theorem int32_eq_ok {n m : ℤ} : int32 n = .ok m ↔ (-2 ^ 31 ≤ n ∧ n < 2 ^ 31) ∧ n = m := by
  unfold int32
  split
  next h => simp only [Except.ok.injEq, h, and_self, true_and]
  next h => simp only [h, false_and, reduceCtorEq]

theorem toInt32_of_fits {n : ℤ} (hlow : -2 ^ 31 ≤ n) (hhigh : n < 2 ^ 31) : toInt32 n = n := by
  rw [toInt32, Int.bmod_def]
  split <;> omega

/-- `open_vwap_` has room for the index of `Side::MAX`. -/
def openVwapSize : ℕ := sideToIndex .max + 1

structure PositionInfo (F : Type) [NatCast F] where
  position : ℤ := 0
  realPnl : F := ((0 : ℕ) : F)
  unrealPnl : F := ((0 : ℕ) : F)
  totalPnl : F := ((0 : ℕ) : F)
  openVwap : ℕ → F := fun _ => ((0 : ℕ) : F)
  volume : ℕ := 0

namespace PositionInfo

section Model
set_option linter.unusedSectionVars false
variable {F : Type} [NatCast F] [IntCast F] [Add F] [Sub F] [Mul F] [Div F]

/-- `position_` after the fill. The sum is a `size_t` and the factor an index. -/
def nextPosition (p : PositionInfo F) (r : MEClientResponse) : ℤ :=
  toInt32 (p.position + r.execQty * sideToIndex r.side)

/-- The value of the position at `price` beside what was paid for it. -/
def unrealAt (p : PositionInfo F) (price : F) (absPosition : ℤ) : F :=
  if p.position > 0 then (price - p.openVwap (sideToIndex .buy) / absPosition) * absPosition
  else (p.openVwap (sideToIndex .sell) / absPosition - price) * absPosition

/-- The end of `addFill` for a fill that reduces the position. -/
def markFill (p : PositionInfo F) (price : ℕ) (absPosition : ℤ) : PositionInfo F :=
  let p := if p.position = 0 then
      { p with
        openVwap := Function.update (Function.update p.openVwap (sideToIndex .sell) ((0 : ℕ) : F))
          (sideToIndex .buy) ((0 : ℕ) : F)
        unrealPnl := ((0 : ℕ) : F) }
    else { p with unrealPnl := p.unrealAt (price : F) absPosition }
  { p with totalPnl := p.unrealPnl + p.realPnl }

/-- The first branch of `addFill`. -/
def increase (p : PositionInfo F) (r : MEClientResponse) : PositionInfo F :=
  { p with
    position := p.nextPosition r
    volume := (p.volume + r.execQty) % 2 ^ 32
    openVwap := Function.update p.openVwap (sideToIndex r.side)
      (p.openVwap (sideToIndex r.side) + ((r.price * r.execQty % 2 ^ 64 : ℕ) : F)) }

def oppSide (side : Side) : Side := if side = .buy then .sell else .buy

/-- `open_vwap_` after the second branch of `addFill`, before it is cleared. -/
def reduceVwap (p : PositionInfo F) (r : MEClientResponse) (absOld absPosition : ℤ)
    (flips : Bool) : ℕ → F :=
  let opp := sideToIndex (oppSide r.side)
  let vwap := Function.update p.openVwap opp (p.openVwap opp / absOld * absPosition)
  if flips then
    -- the price times the position is unsigned and wraps
    Function.update (Function.update vwap (sideToIndex r.side)
      ((r.price * absPosition.toNat % 2 ^ 64 : ℕ) : F)) opp ((0 : ℕ) : F)
  else vwap

/-- The second branch of `addFill`, with the absolute values and the test for a position
that changes its sign. -/
def reduce (p : PositionInfo F) (r : MEClientResponse) (absOld absPosition : ℤ) (flips : Bool) :
    PositionInfo F :=
  markFill
    { p with
      position := p.nextPosition r
      volume := (p.volume + r.execQty) % 2 ^ 32
      realPnl := p.realPnl + ((min (toInt32 r.execQty) absOld : ℤ) : F) *
        (p.openVwap (sideToIndex (oppSide r.side)) / absOld - (r.price : F)) *
        ((sideToValue r.side : ℤ) : F)
      openVwap := p.reduceVwap r absOld absPosition flips }
    r.price absPosition

def addFill (p : PositionInfo F) (r : MEClientResponse) : Except Fault (PositionInfo F) := do
  let sign ← int32 (p.position * sideToValue r.side)
  if sign ≥ 0 then
    at? "open_vwap_" openVwapSize (sideToIndex r.side)
    return p.increase r
  else
    let absOld ← int32 |p.position|
    let absPosition ← int32 |p.nextPosition r|
    let product ← int32 (p.nextPosition r * p.position)
    if product < 0 then at? "open_vwap_" openVwapSize (sideToIndex r.side)
    return p.reduce r absOld absPosition (product < 0)

def updateBBO (p : PositionInfo F) (bbo : BBO) : Except Fault (PositionInfo F) :=
  if p.position ≠ 0 ∧ bbo.bidPrice ≠ priceInvalid ∧ bbo.askPrice ≠ priceInvalid then do
    let absPosition ← int32 |p.position|
    let midPrice : F := (((bbo.bidPrice + bbo.askPrice) % 2 ^ 64 : ℕ) : F) *
      (((1 : ℕ) : F) / ((2 : ℕ) : F))
    let unrealPnl := p.unrealAt midPrice absPosition
    return { p with unrealPnl, totalPnl := unrealPnl + p.realPnl }
  else .ok p

theorem addFill_cases {p q : PositionInfo F} {r : MEClientResponse} (h : p.addFill r = .ok q) :
    (0 ≤ p.position * sideToValue r.side ∧ q = p.increase r) ∨
    (p.position * sideToValue r.side < 0 ∧
      (p.nextPosition r * p.position < 0 → sideToIndex r.side < openVwapSize) ∧
      q = p.reduce r |p.position| |p.nextPosition r|
        (decide (p.nextPosition r * p.position < 0))) := by
  obtain ⟨sign, hsign, h⟩ := bind_eq_ok.mp h
  obtain ⟨-, rfl⟩ := int32_eq_ok.mp hsign
  by_cases hs : p.position * sideToValue r.side ≥ 0
  · left
    rw [if_pos hs] at h
    obtain ⟨_, -, h⟩ := bind_eq_ok.mp h
    exact ⟨hs, (Except.ok.inj h).symm⟩
  · right
    rw [if_neg hs] at h
    obtain ⟨absOld, habs, h⟩ := bind_eq_ok.mp h
    obtain ⟨absPosition, hpos, h⟩ := bind_eq_ok.mp h
    obtain ⟨product, hprod, h⟩ := bind_eq_ok.mp h
    obtain ⟨-, rfl⟩ := int32_eq_ok.mp habs
    obtain ⟨-, rfl⟩ := int32_eq_ok.mp hpos
    obtain ⟨-, rfl⟩ := int32_eq_ok.mp hprod
    refine ⟨lt_of_not_ge hs, ?_⟩
    by_cases hflip : p.nextPosition r * p.position < 0
    · rw [if_pos hflip] at h
      obtain ⟨_, hat, h⟩ := bind_eq_ok.mp h
      exact ⟨fun _ => at?_eq_ok.mp hat, (Except.ok.inj h).symm⟩
    · rw [if_neg hflip] at h
      exact ⟨fun h' => absurd h' hflip, (Except.ok.inj h).symm⟩

@[simp] theorem increase_position {p : PositionInfo F} {r : MEClientResponse} :
    (p.increase r).position = p.nextPosition r := rfl

@[simp] theorem increase_volume {p : PositionInfo F} {r : MEClientResponse} :
    (p.increase r).volume = (p.volume + r.execQty) % 2 ^ 32 := rfl

@[simp] theorem markFill_position {p : PositionInfo F} {price : ℕ} {absPosition : ℤ} :
    (p.markFill price absPosition).position = p.position := by
  unfold markFill
  split <;> rfl

@[simp] theorem markFill_volume {p : PositionInfo F} {price : ℕ} {absPosition : ℤ} :
    (p.markFill price absPosition).volume = p.volume := by
  unfold markFill
  split <;> rfl

theorem addFill_moves {p q : PositionInfo F} {r : MEClientResponse} (h : p.addFill r = .ok q) :
    q.position = p.nextPosition r ∧ q.volume = (p.volume + r.execQty) % 2 ^ 32 := by
  rcases addFill_cases h with ⟨-, rfl⟩ | ⟨-, -, rfl⟩
  · exact ⟨increase_position, increase_volume⟩
  · exact ⟨markFill_position, markFill_volume⟩

/-- The quantities of the fills, each times a value of its side. -/
def total (value : Side → ℤ) (fills : List MEClientResponse) : ℤ :=
  (fills.map fun r => r.execQty * value r.side).sum

def totalQty (fills : List MEClientResponse) : ℕ := (fills.map (·.execQty)).sum

@[simp] theorem total_nil {value : Side → ℤ} : total value [] = 0 := rfl

@[simp] theorem total_cons {value : Side → ℤ} {r : MEClientResponse} {rs : List MEClientResponse} :
    total value (r :: rs) = r.execQty * value r.side + total value rs := by
  simp only [total, List.map_cons, List.sum_cons]

@[simp] theorem totalQty_nil : totalQty [] = 0 := rfl

@[simp] theorem totalQty_cons {r : MEClientResponse} {rs : List MEClientResponse} :
    totalQty (r :: rs) = r.execQty + totalQty rs := by
  simp only [totalQty, List.map_cons, List.sum_cons]

/-- The position counts every fill with the index of its side. -/
theorem run_moves {p q : PositionInfo F} {fills : List MEClientResponse} {a : ℤ} {v : ℕ}
    (hp : p.position = toInt32 a) (hv : p.volume = v % 2 ^ 32)
    (h : run addFill p fills = .ok q) :
    q.position = toInt32 (a + total (fun side => sideToIndex side) fills) ∧
      q.volume = (v + totalQty fills) % 2 ^ 32 := by
  induction fills generalizing p a v with
  | nil =>
    cases h
    rw [total_nil, totalQty_nil, add_zero, add_zero]
    exact ⟨hp, hv⟩
  | cons r rs ih =>
    obtain ⟨s, hs, h⟩ := run_cons_eq_ok.mp h
    obtain ⟨hpos, hvol⟩ := addFill_moves hs
    have hpos' : s.position = toInt32 (a + r.execQty * sideToIndex r.side) := by
      rw [hpos, nextPosition, hp, toInt32, toInt32, Int.bmod_add_bmod, toInt32]
    have hvol' : s.volume = (v + r.execQty) % 2 ^ 32 := by
      rw [hvol, hv, Nat.mod_add_mod]
    have hrest := ih hpos' hvol' h
    rw [total_cons, totalQty_cons, ← add_assoc, ← add_assoc]
    exact hrest

/-- Fills of quantity 0 take the first branch of a flat position and leave it flat. -/
theorem addFill_zero {p : PositionInfo F} {r : MEClientResponse} (hp : p.position = 0)
    (hqty : r.execQty = 0) (hside : r.side = .buy ∨ r.side = .sell) :
    p.addFill r = .ok (p.increase r) ∧ (p.increase r).position = 0 := by
  have hindex : sideToIndex r.side < openVwapSize := by
    rcases hside with h | h <;> rw [h] <;> decide
  constructor
  · unfold addFill
    rw [hp, zero_mul]
    simp only [int32, at?_lt hindex]
    rfl
  · rw [increase_position, nextPosition, hp, hqty]
    simp [toInt32]

theorem run_zero {p : PositionInfo F} {fills : List MEClientResponse} (hp : p.position = 0)
    (hqty : ∀ r ∈ fills, r.execQty = 0) (hside : ∀ r ∈ fills, r.side = .buy ∨ r.side = .sell) :
    ∃ q, run addFill p fills = .ok q := by
  induction fills generalizing p with
  | nil => exact ⟨p, rfl⟩
  | cons r rs ih =>
    obtain ⟨hok, hpos⟩ :=
      addFill_zero hp (hqty r List.mem_cons_self) (hside r List.mem_cons_self)
    rw [run_cons_ok hok]
    apply ih hpos
    · intro r' hr'
      exact hqty r' (List.mem_cons_of_mem r hr')
    · intro r' hr'
      exact hside r' (List.mem_cons_of_mem r hr')

end Model

/-- The quantity bought or sold. -/
def qtyOf (side : Side) (fills : List MEClientResponse) : ℕ :=
  totalQty (fills.filter fun r => r.side = side)

theorem totalQty_eq {fills : List MEClientResponse}
    (hside : ∀ r ∈ fills, r.side = .buy ∨ r.side = .sell) :
    totalQty fills = qtyOf .buy fills + qtyOf .sell fills := by
  induction fills with
  | nil => rfl
  | cons r rs ih =>
    have hrs := ih fun r' hr' => hside r' (List.mem_cons_of_mem r hr')
    simp only [qtyOf] at hrs ⊢
    rcases hside r List.mem_cons_self with h | h
    · simp only [totalQty_cons, List.filter_cons, h, hrs]
      simp
      omega
    · simp only [totalQty_cons, List.filter_cons, h, hrs]
      simp
      omega

/-- With the index in place of the value a sale counts nothing and a purchase twice. -/
theorem total_index {fills : List MEClientResponse}
    (hside : ∀ r ∈ fills, r.side = .buy ∨ r.side = .sell) :
    total (fun side => sideToIndex side) fills = 2 * qtyOf .buy fills := by
  have hbuy : sideToIndex .buy = 2 := by decide
  have hsell : sideToIndex .sell = 0 := by decide
  induction fills with
  | nil => rfl
  | cons r rs ih =>
    have hrs := ih fun r' hr' => hside r' (List.mem_cons_of_mem r hr')
    simp only [qtyOf] at hrs ⊢
    rcases hside r List.mem_cons_self with h | h
    · simp only [total_cons, List.filter_cons, h, hrs, hbuy]
      simp
      omega
    · simp only [total_cons, List.filter_cons, h, hrs, hsell]
      simp

theorem totalQty_eq_zero {fills : List MEClientResponse} :
    totalQty fills = 0 ↔ ∀ r ∈ fills, r.execQty = 0 := by
  simp only [totalQty, List.sum_eq_zero_iff_forall_eq_nat, List.mem_map, forall_exists_index,
    and_imp, forall_apply_eq_imp_iff₂]

/-- The position is what was bought less what was sold, and the volume their sum. -/
structure Accounts {F : Type} [NatCast F] (fills : List MEClientResponse) (p : PositionInfo F) :
    Prop where
  position : p.position = (qtyOf .buy fills : ℤ) - qtyOf .sell fills
  volume : p.volume = totalQty fills

section Accounting
variable {F : Type} [NatCast F] [IntCast F] [Add F] [Sub F] [Mul F] [Div F]

theorem run_accounts_iff (fills : List MEClientResponse)
    (hside : ∀ r ∈ fills, r.side = .buy ∨ r.side = .sell) (hsum : totalQty fills < 2 ^ 31) :
    (∃ p : PositionInfo F, run addFill {} fills = .ok p ∧ Accounts fills p) ↔
      ∀ r ∈ fills, r.execQty = 0 := by
  have hqty := totalQty_eq hside
  constructor
  · rintro ⟨p, hrun, hacc⟩
    have hpos := (run_moves (a := 0) (v := 0) rfl rfl hrun).1
    rw [hacc.position, zero_add, total_index hside, toInt32, Int.bmod_def] at hpos
    apply totalQty_eq_zero.mp
    split at hpos <;> omega
  · intro hzero
    obtain ⟨p, hrun⟩ := run_zero (p := ({} : PositionInfo F)) rfl hzero hside
    obtain ⟨hpos, hvol⟩ := run_moves (a := 0) (v := 0) rfl rfl hrun
    have htotal := totalQty_eq_zero.mpr hzero
    have hbuy : qtyOf .buy fills = 0 := by omega
    have hsell : qtyOf .sell fills = 0 := by omega
    refine ⟨p, hrun, ?_, ?_⟩
    · rw [hpos, total_index hside, hbuy, hsell]
      rfl
    · rw [hvol, htotal]
      rfl

end Accounting

/-- One unit is bought. -/
def boughtOne : List MEClientResponse :=
  [{ type := .filled, side := .buy, price := 5, execQty := 1 }]

theorem boughtOne_counted_twice : ¬ ∀ fills : List MEClientResponse,
    (∀ r ∈ fills, r.side = .buy ∨ r.side = .sell) → totalQty fills < 2 ^ 31 →
    ∃ p : PositionInfo ℚ, run addFill {} fills = .ok p ∧ Accounts fills p := by
  intro h
  obtain ⟨p, hrun, hacc⟩ := h boughtOne (by decide) (by decide)
  have hpos := (run_moves (a := 0) (v := 0) rfl rfl hrun).1
  rw [hacc.position] at hpos
  exact absurd hpos (by decide)

/-- Three units are bought, two are sold and one is bought again. -/
def mixedFills : List MEClientResponse :=
  [{ type := .filled, side := .buy, price := 5, execQty := 3 },
   { type := .filled, side := .sell, price := 6, execQty := 2 },
   { type := .filled, side := .buy, price := 4, execQty := 1 }]

theorem mixedFills_not_accounted :
    ¬ ∃ p : PositionInfo ℚ, run addFill {} mixedFills = .ok p ∧ Accounts mixedFills p := by
  rw [run_accounts_iff mixedFills (by decide) (by decide)]
  decide

/-! ## Marking -/

/-- What ties the four amounts together right after a fill at `price`. -/
structure Marked (p : PositionInfo ℚ) (price : ℚ) : Prop where
  total : p.totalPnl = p.realPnl + p.unrealPnl
  flat : p.position = 0 → p.unrealPnl = 0 ∧ p.openVwap (sideToIndex .buy) = 0 ∧
    p.openVwap (sideToIndex .sell) = 0
  long : 0 < p.position → p.unrealPnl = price * |p.position| - p.openVwap (sideToIndex .buy) ∧
    p.openVwap (sideToIndex .sell) = 0
  short : p.position < 0 → p.unrealPnl = p.openVwap (sideToIndex .sell) - price * |p.position| ∧
    p.openVwap (sideToIndex .buy) = 0

/-- What remains of it whatever the price does. -/
structure Settled (p : PositionInfo ℚ) : Prop where
  total : p.totalPnl = p.realPnl + p.unrealPnl
  flat : p.position = 0 → p.unrealPnl = 0 ∧ p.openVwap (sideToIndex .buy) = 0 ∧
    p.openVwap (sideToIndex .sell) = 0
  long : 0 < p.position → p.openVwap (sideToIndex .sell) = 0
  short : p.position < 0 → p.openVwap (sideToIndex .buy) = 0

theorem Marked.settled {p : PositionInfo ℚ} {price : ℚ} (h : Marked p price) : Settled p :=
  ⟨h.total, h.flat, fun hp => (h.long hp).2, fun hp => (h.short hp).2⟩

theorem settled_init : Settled {} :=
  ⟨by simp, fun _ => by simp, fun h => absurd h (by decide), fun h => absurd h (by decide)⟩

theorem unrealAt_eq {p : PositionInfo ℚ} {price : ℚ} :
    (0 < p.position →
      p.unrealAt price |p.position| = price * |p.position| - p.openVwap (sideToIndex .buy)) ∧
    (p.position < 0 →
      p.unrealAt price |p.position| = p.openVwap (sideToIndex .sell) - price * |p.position|) := by
  constructor
  · intro hp
    have hne : ((|p.position| : ℤ) : ℚ) ≠ 0 := by simp; omega
    rw [unrealAt, if_pos hp]
    field_simp
  · intro hp
    have hne : ((|p.position| : ℤ) : ℚ) ≠ 0 := by simp; omega
    rw [unrealAt, if_neg (by omega)]
    field_simp

theorem Settled.updateBBO {p q : PositionInfo ℚ} {bbo : BBO} (h : Settled p)
    (hq : p.updateBBO bbo = .ok q) : Settled q := by
  unfold PositionInfo.updateBBO at hq
  split at hq
  next hp =>
    obtain ⟨absPosition, -, hq⟩ := bind_eq_ok.mp hq
    cases hq
    exact ⟨add_comm _ _, fun h0 => absurd h0 hp.1, h.long, h.short⟩
  next =>
    cases hq
    exact h

theorem sideToIndex_buy : sideToIndex .buy = 2 := by decide
theorem sideToIndex_sell : sideToIndex .sell = 0 := by decide

/-- A side without a name has no entry in `open_vwap_`. -/
theorem sideToIndex_unnamed {code : Fin 252} : openVwapSize ≤ sideToIndex (.unnamed code) := by
  have hsize : openVwapSize = 4 := by decide
  have := code.isLt
  simp only [hsize, sideToIndex, sideToValue]
  split <;> omega

theorem markFill_marked {p : PositionInfo ℚ} {price : ℕ}
    (hlong : 0 < p.position → p.openVwap (sideToIndex .sell) = 0)
    (hshort : p.position < 0 → p.openVwap (sideToIndex .buy) = 0) :
    Marked (p.markFill price |p.position|) price := by
  by_cases hp : p.position = 0
  · simp only [markFill, if_pos hp]
    refine ⟨add_comm _ _, fun _ => ?_, fun h => ?_, fun h => ?_⟩
    · simp [sideToIndex_buy, sideToIndex_sell]
    · exact absurd hp (ne_of_gt h)
    · exact absurd hp (ne_of_lt h)
  · simp only [markFill, if_neg hp]
    refine ⟨add_comm _ _, fun h => absurd h hp, fun h => ⟨?_, hlong h⟩, fun h => ⟨?_, hshort h⟩⟩
    · exact unrealAt_eq.1 h
    · exact unrealAt_eq.2 h

theorem markFill_openVwap {p : PositionInfo ℚ} {price : ℕ} {absPosition : ℤ}
    (hp : p.position ≠ 0) : (p.markFill price absPosition).openVwap = p.openVwap := by
  simp only [markFill, if_neg hp]

/-- Of a position that becomes or stays short, nothing is left on the side of the purchases. -/
theorem reduceVwap_buy {p : PositionInfo ℚ} {r : MEClientResponse} (hp : Settled p)
    (hagainst : p.position * sideToValue r.side < 0) (hnext : p.nextPosition r < 0) :
    p.reduceVwap r |p.position| |p.nextPosition r|
      (decide (p.nextPosition r * p.position < 0)) (sideToIndex .buy) = 0 := by
  have hne : sideToIndex .buy ≠ sideToIndex .sell := by decide
  rcases lt_trichotomy p.position 0 with hneg | hzero | hpos
  · have hkeep : ¬ p.nextPosition r * p.position < 0 := not_lt_of_gt (mul_pos_of_neg_of_neg hnext hneg)
    have hempty := hp.short hneg
    by_cases hside : r.side = .buy
    · simp only [reduceVwap, hkeep, decide_false, oppSide, if_pos hside]
      simp [Function.update_of_ne hne, hempty]
    · simp only [reduceVwap, hkeep, decide_false, oppSide, if_neg hside]
      simp [hempty]
  · rw [hzero, zero_mul] at hagainst
    exact absurd hagainst (lt_irrefl 0)
  · have hflip : p.nextPosition r * p.position < 0 := mul_neg_of_neg_of_pos hnext hpos
    have hside : r.side ≠ .buy := by
      intro hside
      rw [hside] at hagainst
      exact absurd hagainst (by simp [sideToValue]; omega)
    simp only [reduceVwap, hflip, decide_true, oppSide, if_neg hside]
    simp

/-- Of a position that becomes or stays long, nothing is left on the side of the sales, except
where the side `MAX` is taken for a purchase. -/
theorem reduceVwap_sell {p : PositionInfo ℚ} {r : MEClientResponse} (hp : Settled p)
    (hagainst : p.position * sideToValue r.side < 0)
    (hindex : p.nextPosition r * p.position < 0 → sideToIndex r.side < openVwapSize)
    (hnext : 0 < p.nextPosition r) :
    p.reduceVwap r |p.position| |p.nextPosition r|
      (decide (p.nextPosition r * p.position < 0)) (sideToIndex .sell) =
        if r.side = .max then p.openVwap (sideToIndex .sell) else 0 := by
  have hne : sideToIndex .sell ≠ sideToIndex .buy := by decide
  have hmax : sideToIndex .sell ≠ sideToIndex .max := by decide
  rcases lt_trichotomy p.position 0 with hneg | hzero | hpos
  · have hflip : p.nextPosition r * p.position < 0 := mul_neg_of_pos_of_neg hnext hneg
    simp only [reduceVwap, hflip, decide_true, if_true, oppSide]
    cases hside : r.side with
    | buy => simp
    | max => simp [Function.update_of_ne hne, Function.update_of_ne hmax]
    | unnamed code =>
      have hroom := hindex hflip
      rw [hside] at hroom
      exact absurd hroom (not_lt_of_ge sideToIndex_unnamed)
    | invalid =>
      rw [hside] at hagainst
      exact absurd hagainst (by simp [sideToValue])
    | sell =>
      rw [hside] at hagainst
      exact absurd hagainst (by simp [sideToValue]; omega)
  · rw [hzero, zero_mul] at hagainst
    exact absurd hagainst (lt_irrefl 0)
  · have hkeep : ¬ p.nextPosition r * p.position < 0 := not_lt_of_gt (mul_pos hnext hpos)
    have hempty := hp.long hpos
    have hside : r.side ≠ .buy := by
      intro hside
      rw [hside] at hagainst
      exact absurd hagainst (by simp [sideToValue]; omega)
    simp only [reduceVwap, hkeep, decide_false, oppSide, if_neg hside, hempty, ite_self]
    simp [Function.update_of_ne hne, hempty]

/-- The second branch leaves the record marked unless a fill with the side `MAX` turns a short
position into a long one: that side counts like a purchase and does not clear the entry of the
short position. -/
theorem reduce_marked_iff {p : PositionInfo ℚ} {r : MEClientResponse} (hp : Settled p)
    (hagainst : p.position * sideToValue r.side < 0)
    (hindex : p.nextPosition r * p.position < 0 → sideToIndex r.side < openVwapSize) :
    Marked (p.reduce r |p.position| |p.nextPosition r|
        (decide (p.nextPosition r * p.position < 0))) r.price ↔
      (r.side = .max → 0 < p.nextPosition r → p.openVwap (sideToIndex .sell) = 0) := by
  have hsell := reduceVwap_sell hp hagainst hindex
  constructor
  · intro hmarked hside hnext
    have hlong := (hmarked.long (by rw [reduce, markFill_position]; exact hnext)).2
    rw [reduce, markFill_openVwap (ne_of_gt hnext)] at hlong
    have hentry := hsell hnext
    rw [if_pos hside] at hentry
    exact hentry.symm.trans hlong
  · intro hmax
    refine markFill_marked (fun hnext => ?_) (reduceVwap_buy hp hagainst)
    refine (hsell hnext).trans ?_
    split
    next hside => exact hmax hside hnext
    next => rfl

theorem increase_openVwap {p : PositionInfo ℚ} {r : MEClientResponse} {side : Side} :
    (p.increase r).openVwap (sideToIndex side) = p.openVwap (sideToIndex side) +
      if sideToIndex side = sideToIndex r.side then ((r.price * r.execQty % 2 ^ 64 : ℕ) : ℚ) else 0 := by
  simp only [increase, Function.update_apply]
  split
  next h => rw [h]
  next => rw [add_zero]

/-- A flat record stays right when a fill costs nothing. -/
theorem increase_flat_marked {p : PositionInfo ℚ} {r : MEClientResponse} (hp : Settled p)
    (hflat : p.position = 0) (hfree : r.price = 0 ∨ r.execQty = 0) :
    Marked (p.increase r) r.price := by
  obtain ⟨hunreal, hbuy, hsell⟩ := hp.flat hflat
  have hcost : r.price * r.execQty = 0 := Nat.mul_eq_zero.mpr hfree
  have hpaid : ∀ side, p.openVwap (sideToIndex side) = 0 →
      (p.increase r).openVwap (sideToIndex side) = 0 := by
    intro side hempty
    rw [increase_openVwap, hempty, hcost]
    simp
  have hvalue : (r.price : ℚ) * |(p.increase r).position| = 0 := by
    rcases hfree with hprice | hqty
    · rw [hprice, Nat.cast_zero, zero_mul]
    · have hnext : (p.increase r).position = 0 := by
        rw [increase_position, nextPosition, hflat, hqty]
        simp [toInt32]
      rw [hnext, abs_zero, Int.cast_zero, mul_zero]
  refine ⟨hp.total, fun _ => ⟨hunreal, hpaid .buy hbuy, hpaid .sell hsell⟩,
    fun _ => ⟨?_, hpaid .sell hsell⟩, fun _ => ⟨?_, hpaid .buy hbuy⟩⟩
  · rw [hvalue, hpaid .buy hbuy, sub_zero]
    exact hunreal
  · rw [hvalue, hpaid .sell hsell, sub_zero]
    exact hunreal

/-- Only then, as long as the amounts fit their types. -/
theorem increase_flat_marked_iff {p : PositionInfo ℚ} {r : MEClientResponse} (hp : Settled p)
    (hflat : p.position = 0) (hside : r.side = .buy ∨ r.side = .sell)
    (hcost : r.price * r.execQty < 2 ^ 64) (hqty : 2 * r.execQty < 2 ^ 31) :
    Marked (p.increase r) r.price ↔ r.price = 0 ∨ r.execQty = 0 := by
  refine ⟨fun hmarked => ?_, increase_flat_marked hp hflat⟩
  obtain ⟨hunreal, hbuy, hsell⟩ := hp.flat hflat
  by_contra hfree
  obtain ⟨hprice, hqtyPos⟩ := not_or.mp hfree
  have hpaid : ((r.price * r.execQty : ℕ) : ℚ) ≠ 0 := by exact_mod_cast Nat.mul_ne_zero hprice hqtyPos
  rcases hside with hside | hside
  · have hnext : (p.increase r).position = 2 * r.execQty := by
      rw [increase_position, nextPosition, hflat, hside, sideToIndex_buy, zero_add,
        toInt32_of_fits (by omega) (by omega)]
      exact mul_comm _ _
    have hvwap : (p.increase r).openVwap (sideToIndex .buy) = (r.price * r.execQty : ℕ) := by
      rw [increase_openVwap, hbuy, hside, if_pos rfl, Nat.mod_eq_of_lt hcost, zero_add]
    have hlong := (hmarked.long (by rw [hnext]; omega)).1
    have hsame : (p.increase r).unrealPnl = 0 := hunreal
    have habs : ((|(p.increase r).position| : ℤ) : ℚ) = 2 * r.execQty := by
      rw [hnext, abs_of_nonneg (by omega)]
      push_cast
      rfl
    rw [hsame, hvwap, habs] at hlong
    apply hpaid
    push_cast at hlong ⊢
    linarith
  · have hnext : (p.increase r).position = 0 := by
      rw [increase_position, nextPosition, hflat, hside, sideToIndex_sell]
      simp [toInt32]
    have hvwap : (p.increase r).openVwap (sideToIndex .sell) = (r.price * r.execQty : ℕ) := by
      rw [increase_openVwap, hsell, hside, if_pos rfl, Nat.mod_eq_of_lt hcost, zero_add]
    exact hpaid (hvwap.symm.trans (hmarked.flat hnext).2.2)

/-- What reaches the record of one ticker. -/
inductive Event where
  | fill (r : MEClientResponse)
  | quote (bbo : BBO)
  deriving DecidableEq

def step {F : Type} [NatCast F] [IntCast F] [Add F] [Sub F] [Mul F] [Div F] (p : PositionInfo F) :
    Event → Except Fault (PositionInfo F)
  | .fill r => p.addFill r
  | .quote bbo => p.updateBBO bbo

/-- A fill that the record is marked with: one against the position held, which takes the second
branch and does not turn a short position into a long one with the side `MAX`, or one that comes
to a flat record and costs nothing. -/
def Marks (p : PositionInfo ℚ) : Event → Prop
  | .quote _ => True
  | .fill r =>
      (p.position * sideToValue r.side < 0 ∧
        (r.side = .max → 0 < toInt32 (p.position + 3 * r.execQty) →
          p.openVwap (sideToIndex .sell) = 0)) ∨
      (p.position = 0 ∧ (r.price = 0 ∨ r.execQty = 0))

instance (p : PositionInfo ℚ) : ∀ e, Decidable (Marks p e)
  | .quote _ => inferInstanceAs (Decidable True)
  | .fill _ => inferInstanceAs (Decidable (_ ∨ _))

theorem addFill_marked {p q : PositionInfo ℚ} {r : MEClientResponse} (hp : Settled p)
    (hmarks : Marks p (.fill r)) (hq : p.addFill r = .ok q) : Marked q r.price := by
  rcases addFill_cases hq with ⟨hsign, rfl⟩ | ⟨hsign, hindex, rfl⟩
  · rcases hmarks with ⟨hagainst, -⟩ | ⟨hflat, hfree⟩
    · exact absurd hagainst (not_lt_of_ge hsign)
    · exact increase_flat_marked hp hflat hfree
  · refine (reduce_marked_iff hp hsign hindex).mpr ?_
    rcases hmarks with ⟨-, hmax⟩ | ⟨hflat, -⟩
    · intro hside hnext
      refine hmax hside ?_
      have hindexMax : (sideToIndex .max : ℤ) = 3 := by decide
      rw [nextPosition, hside, hindexMax, mul_comm] at hnext
      exact hnext
    · rw [hflat, zero_mul] at hsign
      exact absurd hsign (lt_irrefl 0)

theorem step_settled {p q : PositionInfo ℚ} {e : Event} (hp : Settled p) (hmarks : Marks p e)
    (hq : step p e = .ok q) : Settled q := by
  cases e with
  | fill r => exact (addFill_marked hp hmarks hq).settled
  | quote bbo => exact hp.updateBBO hq

/-- In a run of fills against the position held, and of fills for nothing before, every fill leaves
the record marked at its price. -/
theorem run_marked (events : List Event) (hmeets : Meets step Marks {} events) :
    ∀ done r, done ++ [.fill r] <+: events → ∀ p : PositionInfo ℚ,
      run step {} (done ++ [.fill r]) = .ok p → Marked p r.price := by
  intro done r hdone p hrun
  obtain ⟨p', hp', hrun⟩ := run_append_eq_ok.mp hrun
  obtain ⟨q, hq, hnil⟩ := run_cons_eq_ok.mp hrun
  cases hnil
  have hall := hmeets.of_prefix hdone
  obtain ⟨hbefore, hlast⟩ := meets_append.mp hall
  have hsettled : Settled p' :=
    run_invariant settled_init hbefore (fun _ _ _ hp hmarks hq => step_settled hp hmarks hq) hp'
  exact addFill_marked hsettled (hlast p' hp').1 hq

/-- Two units come for nothing and are marked at the market. -/
def freeFill : List Event :=
  [.fill { type := .filled, side := .buy, price := 0, execQty := 2 },
   .quote { bidPrice := 4, askPrice := 6 }]

def soldOne : MEClientResponse := { type := .filled, side := .sell, price := 5, execQty := 1 }

theorem freeFill_marked : ∃ p : PositionInfo ℚ,
    run step {} (freeFill ++ [.fill soldOne]) = .ok p ∧ p.position = 4 ∧ p.unrealPnl = 20 ∧
      Marked p soldOne.price :=
  ⟨_, rfl, by decide +kernel, by decide +kernel,
    run_marked (freeFill ++ [.fill soldOne]) (by decide +kernel) freeFill soldOne
      (List.prefix_refl _) _ rfl⟩

theorem boughtOne_not_marked : ¬ ∀ events : List Event,
    ∀ done r, done ++ [.fill r] <+: events → ∀ p : PositionInfo ℚ,
      run step {} (done ++ [.fill r]) = .ok p → Marked p r.price := by
  intro h
  let r : MEClientResponse := { type := .filled, side := .buy, price := 5, execQty := 1 }
  have hfill : step ({} : PositionInfo ℚ) (.fill r) = .ok (increase {} r) := rfl
  have hmarked := h [.fill r] [] r (by simp) _ (run_cons_ok hfill)
  have hfree := (increase_flat_marked_iff settled_init rfl (.inl rfl) (by decide) (by decide)).mp
    hmarked
  exact absurd hfree (by decide)

end PositionInfo

/-- `ticker_position_` -/
structure PositionKeeper (F : Type) [NatCast F] where
  tickerPosition : ℕ → PositionInfo F := fun _ => {}

namespace PositionKeeper
variable {F : Type} [NatCast F] [IntCast F] [Add F] [Sub F] [Mul F] [Div F]

def addFill (k : PositionKeeper F) (r : MEClientResponse) : Except Fault (PositionKeeper F) := do
  at? "ticker_position_" meMaxTickers r.tickerId
  let p ← (k.tickerPosition r.tickerId).addFill r
  return { tickerPosition := Function.update k.tickerPosition r.tickerId p }

def updateBBO (k : PositionKeeper F) (tickerId : ℕ) (bbo : BBO) :
    Except Fault (PositionKeeper F) := do
  at? "ticker_position_" meMaxTickers tickerId
  let p ← (k.tickerPosition tickerId).updateBBO bbo
  return { tickerPosition := Function.update k.tickerPosition tickerId p }

section Lemmas
variable {k n : PositionKeeper F} {r : MEClientResponse} {t tickerId : ℕ} {bbo : BBO}

theorem addFill_other (h : t ≠ r.tickerId) (hn : k.addFill r = .ok n) :
    n.tickerPosition t = k.tickerPosition t := by
  obtain ⟨-, -, hn⟩ := bind_eq_ok.mp hn
  obtain ⟨p, -, hn⟩ := bind_eq_ok.mp hn
  cases hn
  exact Function.update_of_ne h _ _

theorem updateBBO_other (h : t ≠ tickerId) (hn : k.updateBBO tickerId bbo = .ok n) :
    n.tickerPosition t = k.tickerPosition t := by
  obtain ⟨-, -, hn⟩ := bind_eq_ok.mp hn
  obtain ⟨p, -, hn⟩ := bind_eq_ok.mp hn
  cases hn
  exact Function.update_of_ne h _ _

theorem addFill_own (hn : k.addFill r = .ok n) :
    (k.tickerPosition r.tickerId).addFill r = .ok (n.tickerPosition r.tickerId) := by
  obtain ⟨-, -, hn⟩ := bind_eq_ok.mp hn
  obtain ⟨p, hp, hn⟩ := bind_eq_ok.mp hn
  cases hn
  simp only [hp, Function.update_self]

end Lemmas

end PositionKeeper

end HighPerformance
