import HighPerformance.TradeEngine
import Mathlib.Tactic.Linarith

/-!
# The quotes of the market maker

The fair price lies between bid and ask. The test on the ask side has the sign of the one on
the bid side: the ask price is kept only if the fair price is above it by the threshold, which never
happens, so the ask quote stands one below the ask.
-/

namespace HighPerformance.MarketMaker

/-- A market with two sides, whose weighted prices and quantities fit their types. -/
structure TwoSided (bbo : BBO) : Prop where
  bid_pos : 0 < bbo.bidPrice
  spread : bbo.bidPrice < bbo.askPrice
  ask_lt : bbo.askPrice < priceInvalid
  bidQty_pos : 0 < bbo.bidQty
  askQty_pos : 0 < bbo.askQty
  qty_lt : bbo.bidQty + bbo.askQty < 2 ^ 32
  weighted_lt : bbo.bidPrice * bbo.askQty + bbo.askPrice * bbo.bidQty < 2 ^ 64

instance {bbo : BBO} : Decidable (TwoSided bbo) :=
  decidable_of_iff (0 < bbo.bidPrice ∧ bbo.bidPrice < bbo.askPrice ∧ bbo.askPrice < priceInvalid ∧
      0 < bbo.bidQty ∧ 0 < bbo.askQty ∧ bbo.bidQty + bbo.askQty < 2 ^ 32 ∧
      bbo.bidPrice * bbo.askQty + bbo.askPrice * bbo.bidQty < 2 ^ 64)
    ⟨fun ⟨a, b, c, d, e, f, g⟩ => ⟨a, b, c, d, e, f, g⟩,
      fun ⟨a, b, c, d, e, f, g⟩ => ⟨a, b, c, d, e, f, g⟩⟩

/-- Neither quote is inside the market, and so the quotes do not cross each other. -/
structure Outside (bbo : BBO) (bid ask : ℕ) : Prop where
  bid_le : bid ≤ bbo.bidPrice
  le_ask : bbo.askPrice ≤ ask
  bid_lt_ask : bid < ask

/-- The price of each side weighted with the quantity of the other. -/
def fairPrice (bbo : BBO) : ℚ :=
  (bbo.bidPrice * bbo.askQty + bbo.askPrice * bbo.bidQty) / (bbo.bidQty + bbo.askQty)

section Quotes
variable {bbo : BBO} {threshold : ℚ}

theorem TwoSided.valid (h : TwoSided bbo) : bbo.valid := by
  have hspread := h.spread
  have hask := h.ask_lt
  constructor <;> omega

/-- Within the bounds the feature engine computes the weighted price itself. -/
theorem mktPrice_eq (h : TwoSided bbo) (f : FeatureEngine ℚ) :
    (f.onOrderBookUpdate bbo).mktPrice = some (fairPrice bbo) := by
  rw [FeatureEngine.onOrderBookUpdate, if_pos h.valid, Nat.mod_eq_of_lt h.weighted_lt,
    Nat.mod_eq_of_lt h.qty_lt]
  simp only [fairPrice, Nat.cast_add, Nat.cast_mul]

theorem bid_lt_fairPrice (h : TwoSided bbo) : (bbo.bidPrice : ℚ) < fairPrice bbo := by
  have hspread : (bbo.bidPrice : ℚ) < bbo.askPrice := by exact_mod_cast h.spread
  have hbid : (0 : ℚ) < bbo.bidQty := by exact_mod_cast h.bidQty_pos
  have hask : (0 : ℚ) < bbo.askQty := by exact_mod_cast h.askQty_pos
  rw [fairPrice, lt_div_iff₀ (add_pos hbid hask)]
  have hmul := mul_lt_mul_of_pos_right hspread hbid
  linarith

theorem fairPrice_lt_ask (h : TwoSided bbo) : fairPrice bbo < bbo.askPrice := by
  have hspread : (bbo.bidPrice : ℚ) < bbo.askPrice := by exact_mod_cast h.spread
  have hbid : (0 : ℚ) < bbo.bidQty := by exact_mod_cast h.bidQty_pos
  have hask : (0 : ℚ) < bbo.askQty := by exact_mod_cast h.askQty_pos
  rw [fairPrice, div_lt_iff₀ (add_pos hbid hask)]
  have hmul := mul_lt_mul_of_pos_right hspread hask
  linarith

/-- The fair price is not above the ask, so the quote moves away from the ask, downwards. -/
theorem quote_ask (h : TwoSided bbo) (hthreshold : 0 ≤ threshold) :
    quote bbo.askPrice (some (fairPrice bbo)) threshold = bbo.askPrice - 1 := by
  have hbelow : ¬ fairPrice bbo - bbo.askPrice ≥ threshold := by
    have hfair := fairPrice_lt_ask h
    linarith
  have hspread := h.spread
  have hask : bbo.askPrice < 2 ^ 64 - 1 := h.ask_lt
  rw [quote, if_neg (by simpa [FeatureEngine.atLeast] using hbelow)]
  omega

theorem quotes_eq (h : TwoSided bbo) (hthreshold : 0 ≤ threshold) (f : FeatureEngine ℚ) :
    quotes bbo (f.onOrderBookUpdate bbo).mktPrice threshold =
      some (quote bbo.bidPrice (some (fairPrice bbo)) threshold, bbo.askPrice - 1) := by
  rw [quotes, if_pos h.valid, mktPrice_eq h, quote_ask h hthreshold]

/-- With a spread of one and a threshold that the fair price reaches, the two quotes meet. -/
theorem quotes_meet (h : TwoSided bbo) (hthreshold : 0 ≤ threshold) (f : FeatureEngine ℚ)
    (hspread : bbo.askPrice = bbo.bidPrice + 1) (hfair : threshold ≤ fairPrice bbo - bbo.bidPrice) :
    quotes bbo (f.onOrderBookUpdate bbo).mktPrice threshold =
      some (bbo.bidPrice, bbo.bidPrice) := by
  rw [quotes_eq h hthreshold, quote, if_pos (by simpa [FeatureEngine.atLeast] using hfair),
    hspread, Nat.add_sub_cancel]

theorem quotes_not_outside (f : FeatureEngine ℚ) (h : TwoSided bbo) (hthreshold : 0 ≤ threshold) :
    ¬ ∃ bid ask, quotes bbo (f.onOrderBookUpdate bbo).mktPrice threshold = some (bid, ask) ∧
      Outside bbo bid ask := by
  rintro ⟨bid, ask, hquotes, hout⟩
  rw [quotes_eq h hthreshold] at hquotes
  cases hquotes
  have hle := hout.le_ask
  have hpos := h.spread
  omega

end Quotes

/-- Ten on each side at 99 and 100. -/
def tightMarket : BBO := { bidPrice := 99, askPrice := 100, bidQty := 10, askQty := 10 }

theorem tightMarket_not_outside : TwoSided tightMarket ∧
    ¬ ∃ bid ask, quotes tightMarket
        (({} : FeatureEngine ℚ).onOrderBookUpdate tightMarket).mktPrice 0 = some (bid, ask) ∧
      Outside tightMarket bid ask :=
  ⟨by decide, quotes_not_outside {} (by decide) (le_refl 0)⟩

theorem tightMarket_crossed : ¬ ∀ (bbo : BBO) (threshold : ℚ) (f : FeatureEngine ℚ),
    TwoSided bbo → 0 ≤ threshold →
    ∃ bid ask, quotes bbo (f.onOrderBookUpdate bbo).mktPrice threshold = some (bid, ask) ∧
      Outside bbo bid ask := by
  intro h
  have hmarket : TwoSided tightMarket := by decide
  obtain ⟨bid, ask, hquotes, hout⟩ := h tightMarket 0 {} hmarket (le_refl 0)
  rw [quotes_meet hmarket (le_refl 0) {} rfl] at hquotes
  · cases hquotes
    exact absurd hout.bid_lt_ask (lt_irrefl _)
  · have hfair := bid_lt_fairPrice hmarket
    linarith

end HighPerformance.MarketMaker
