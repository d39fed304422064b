import Hypercore.Engine.Screening
import Mathlib.Tactic.LinearCombination
/-!
# Hypercore.Engine.LiquidationPrice

The liquidation price of a position against the check that liquidates it.

`liquidation_price` solves for the mark price at which equity is the maintenance margin;
`is_liquidatable` computes the two and compares them. Both truncate: the one the size that is
left after the margin and the price, the other the notional, the rate, the equity and the
margin. What is left of the comparison when every remainder is written out (`long_excess`,
`short_excess`) is the distance of the mark price from the returned one times the size after
the margin, and terms that `Clear` covers.
-/

namespace Hypercore

open Exec Int128

namespace Position

/-- Calculate the liquidation price. `None` for an empty position, and for a long one without
any margin left after the rate. -/
def liquidationPrice (p : Position) (balance maintenanceMarginRate : Decimal) :
    Exec (Option Decimal) :=
  if p.size.isZero then return none
  else do
    let one ← Decimal.fromInt 1 maintenanceMarginRate.decimals
    if p.isLong then
      let factor ← one.sub maintenanceMarginRate
      if factor.isZero then return none
      let numerator ← p.entryNotional.sub (← balance.toDecimals p.entryNotional.decimals)
      -- over-collateralized
      if numerator.isNegative then return some ⟨0, 8⟩
      let price ← numerator.div (← p.size.mul factor)
      return some price
    else
      let factor ← one.add maintenanceMarginRate
      let numerator ← p.entryNotional.add (← balance.toDecimals p.entryNotional.decimals)
      let price ← numerator.div (← (← p.absSize).mul factor)
      return some price

end Position

namespace RiskEngine

open Engine Position

/-! ### The margin -/

/-- A rate's share of one: what is left of a long position's notional, what is added to a short
one's. Raw, on the scale of the rate. -/
def factorOf (p : Position) (rate : Decimal) : Int :=
  if p.isLong then 10 ^ rate.decimals - rate.value else 10 ^ rate.decimals + rate.value

/-- The mark price is so far from a price that the truncations do not matter. Beyond one raw
unit of price, the distance is worth two micro-USDC, one raw unit of size at the price (the size
after the margin is truncated) and `10 ^ -8` of the notional (the rate is cut to eight
decimals). -/
def Clear (p : Position) (rate : Decimal) (price mark : Int) : Prop :=
  10 ^ rate.decimals * (2 * 10 ^ 10 + |price| + (|p.size.value| * mark).tdiv (10 ^ 8)) ≤
    (|price - mark| - 1) * (|p.size.value| * factorOf p rate)

instance (p : Position) (rate : Decimal) (price mark : Int) :
    Decidable (Clear p rate price mark) := inferInstanceAs (Decidable (_ ≤ _))

/-- The side of a price on which a position loses. -/
def Losing (p : Position) (price mark : Int) : Prop :=
  if p.isLong then mark < price else price < mark

instance (p : Position) (price mark : Int) : Decidable (Losing p price mark) :=
  inferInstanceAs (Decidable (if p.isLong then mark < price else price < mark))

/-! ### Remainders

`S` is the size, `E` the entry notional, `B` the balance and `m` the mark price, with `r / R` the
rate and `k` its eight decimals; `A` is the size after the margin and `D` its whole raw units. -/

section Remainders

variable {c R r k S D P E B m N q w θ φ ν σ e f : Int}

/-- Equity less maintenance margin of a long position. -/
theorem long_excess (hD : S * (R - r) = R * D + θ) (hP : (E - 100 * B) * c = D * P + φ)
    (hN : S * m = c * N + ν) (hq : N - E = 100 * q + e) (hw : N * k = 100 * c * w + f)
    (hk : r * c = R * k + σ) :
    100 * c * R * (B + q - w) = S * (R - r) * (m - P) + θ * P - R * φ - ν * (R - r) + N * σ +
      R * f - c * R * e := by
  linear_combination P * hD - R * hP - (R - r) * hN - c * R * hq + R * hw + N * hk

/-- Equity less maintenance margin of a short position. -/
theorem short_excess (hD : S * (R + r) = R * D + θ) (hP : (E + 100 * B) * c = D * P + φ)
    (hN : S * m = c * N + ν) (hq : E - N = 100 * q + e) (hw : N * k = 100 * c * w + f)
    (hk : r * c = R * k + σ) :
    100 * c * R * (B + q - w) = S * (R + r) * (P - m) - θ * P + R * φ + ν * (R + r) + N * σ +
      R * f - c * R * e := by
  linear_combination -P * hD + R * hP + (R + r) * hN - c * R * hq + R * hw + N * hk

/-- What the truncations of the check leave, for either side. -/
theorem remainders_near (hc : 0 < c) (hR : 0 < R) (hN : 0 ≤ N) (hσ : 0 ≤ σ ∧ σ < R)
    (he : -100 < e ∧ e < 100) (hf : 0 ≤ f ∧ f < 100 * c) :
    -(100 * c * R) < N * σ + R * f - c * R * e ∧
      N * σ + R * f - c * R * e < R * N + 200 * c * R := by
  have hcR : 0 < c * R := mul_pos hc hR
  have hNσ0 : 0 ≤ N * σ := mul_nonneg hN hσ.1
  have hNσ : N * σ ≤ N * R := mul_le_mul_of_nonneg_left hσ.2.le hN
  have hRf0 : 0 ≤ R * f := mul_nonneg hR.le hf.1
  have hRf : R * f < R * (100 * c) := mul_lt_mul_of_pos_left hf.2 hR
  have helo : c * R * (-100) < c * R * e := mul_lt_mul_of_pos_left he.1 hcR
  have hehi : c * R * e < c * R * 100 := mul_lt_mul_of_pos_left he.2 hcR
  constructor <;> nlinarith

end Remainders

/-! ### The check -/

section Check

variable {p : Position} {account : AccountState} {market : Market} {mark : Int}

/-- Notional of a position at a mark price, raw. -/
def markNotional (p : Position) (mark : Int) : Int := (|p.size.value| * mark).tdiv (10 ^ 8)

/-- Maintenance margin of a position, raw. -/
def markMargin (p : Position) (rate : Decimal) (mark : Int) : Int :=
  (markNotional p mark * rate.rawAt 8).tdiv (10 ^ 8)

theorem maintenanceMargin_eq {config : MarketConfig} {margin : Decimal} (hp : p.WF)
    (h : config.maintenanceMargin p.size ⟨mark, 8⟩ = .ok margin) :
    margin = ⟨markMargin p config.maintenanceMarginRate mark, 8⟩ := by
  obtain ⟨size, hsize, h⟩ := bind_inv h
  obtain ⟨notional, hnotional, h⟩ := bind_inv h
  obtain ⟨rate, hrate, h⟩ := bind_inv h
  obtain ⟨-, rfl⟩ := Decimal.abs_eq_ok.mp hsize
  obtain ⟨-, -, rfl⟩ := Decimal.mul_eq_ok.mp hnotional
  obtain ⟨-, -, rfl⟩ := Decimal.mul_eq_ok.mp h
  dsimp only at hrate
  rw [hp.size] at hrate
  rw [Decimal.toDecimals_rawAt hrate, Decimal.toDecimals_decimals hrate, hp.size]
  rfl

/-- What the check compares, in micro-USDC. -/
theorem isLiquidatable_iff {b : Bool} (hp : p.WF) (hopen : p.size.value ≠ 0)
    (hmark : market.state.markPrice = ⟨mark, 8⟩) (h : isLiquidatable account p market = .ok b) :
    b = true ↔ account.balance + toUsdc (p.rawPnl ⟨mark, 8⟩) -
      toUsdc (markMargin p market.config.maintenanceMarginRate mark) ≤ 0 := by
  unfold isLiquidatable at h
  rw [if_neg (by simpa [isEmpty] using hopen)] at h
  obtain ⟨equity, hequity, h⟩ := bind_inv h
  obtain ⟨margin, hmargin, h⟩ := bind_inv h
  obtain ⟨usdc, husdc, h⟩ := bind_inv h
  obtain ⟨pnl, hpnl, hequity⟩ := bind_inv hequity
  obtain ⟨-, rfl⟩ := Decimal.add_eq_ok.mp hequity
  -- both sums have one term
  obtain ⟨u, hu, hpnl⟩ := foldlM_cons_eq_ok.mp hpnl
  obtain rfl := foldlM_nil_eq_ok.mp hpnl
  obtain ⟨v, hv, hu⟩ := bind_inv hu
  obtain ⟨w, hw, hu⟩ := bind_inv hu
  obtain ⟨-, rfl⟩ := Decimal.add_eq_ok.mp hu
  unfold calculateMaintenanceMargin at hmargin
  obtain ⟨u', hu', hmargin⟩ := foldlM_cons_eq_ok.mp hmargin
  obtain rfl := foldlM_nil_eq_ok.mp hmargin
  obtain ⟨v', hv', hu'⟩ := bind_inv hu'
  obtain ⟨w', hw', hu'⟩ := bind_inv hu'
  obtain ⟨-, rfl⟩ := Decimal.add_eq_ok.mp hu'
  have hterm := unrealizedPnl_usdc hp hv hw
  dsimp only at hv' husdc hterm
  rw [hmark] at hv' hterm
  obtain rfl := maintenanceMargin_eq hp hv'
  have hterm' := toDecimals_usdc rfl hw'
  have hkept := Decimal.toDecimals_self (a := ⟨0 + w'.value, 6⟩)
  obtain rfl := ok_unique hkept husdc
  rw [← pure_inv h, decide_eq_true_iff]
  dsimp only at hterm' ⊢
  rw [Decimal.le_iff_of_decimals (by rfl), hterm, hterm']
  dsimp only
  omega

/-- A rate cut to eight decimals. -/
theorem rawAt_remainder {rate : Decimal} (hrate : 0 ≤ rate.value) :
    ∃ σ, rate.value * 10 ^ 8 = 10 ^ rate.decimals * rate.rawAt 8 + σ ∧ 0 ≤ σ ∧
      σ < 10 ^ rate.decimals := by
  unfold Decimal.rawAt
  by_cases hd : rate.decimals ≤ 8
  · have hpow : (10 : Int) ^ rate.decimals * 10 ^ (8 - rate.decimals) = 10 ^ 8 := by
      rw [← pow_add, Nat.add_sub_cancel' hd]
    rw [if_pos hd]
    exact ⟨0, by rw [← hpow]; ring, le_rfl, by positivity⟩
  · have hpow : (10 : Int) ^ rate.decimals = 10 ^ (rate.decimals - 8) * 10 ^ 8 := by
      rw [← pow_add, Nat.sub_add_cancel (by omega)]
    rw [if_neg hd, hpow]
    obtain ⟨σ, hσ, hσ0, -, -, hσhi⟩ :=
      tdiv_spec (x := rate.value) (show (0 : Int) < 10 ^ (rate.decimals - 8) by positivity)
    refine ⟨σ * 10 ^ 8, by linear_combination 10 ^ 8 * hσ, ?_, by gcongr⟩
    have := hσ0 hrate
    positivity

/-- The two truncations of a margin, on the scale of a rate and to USDC. -/
theorem toUsdc_tdiv {x : Int} (hx : 0 ≤ x) :
    ∃ f, x = 100 * 10 ^ 8 * toUsdc (x.tdiv (10 ^ 8)) + f ∧ 0 ≤ f ∧ f < 100 * 10 ^ 8 := by
  obtain ⟨f, hf, hf0, -, -, hfhi⟩ := tdiv_spec (x := x) (show (0 : Int) < 10 ^ 8 by norm_num)
  obtain ⟨g, hg, hg0, -, -, hghi⟩ :=
    tdiv_spec (x := x.tdiv (10 ^ 8)) (show (0 : Int) < 100 by norm_num)
  have hf0 := hf0 hx
  have hg0 := hg0 (Int.tdiv_nonneg hx (by norm_num))
  refine ⟨10 ^ 8 * g + f, ?_, by omega, by omega⟩
  unfold toUsdc
  omega

end Check

/-! ### The price -/

section Price

variable {p : Position} {balance : Int} {rate : Decimal} {o : Option Decimal}

/-- The size after the margin, in whole raw units: what the price is divided by. -/
def marginedSize (p : Position) (rate : Decimal) : Int :=
  (|p.size.value| * factorOf p rate).tdiv (10 ^ rate.decimals)

theorem isLong_iff : p.isLong = true ↔ 0 < p.size.value := by simp [isLong]

/-- The factor is positive: the rate is below one. -/
theorem factorOf_pos (hrate : 0 < rate.value ∧ rate.value < 10 ^ rate.decimals) :
    0 < factorOf p rate := by
  unfold factorOf
  split <;> omega

theorem marginedSize_nonneg (hrate : 0 < rate.value ∧ rate.value < 10 ^ rate.decimals) :
    0 ≤ marginedSize p rate :=
  Int.tdiv_nonneg (mul_nonneg (abs_nonneg _) (factorOf_pos hrate).le) (by positivity)

/-- The price of a long position. Over-collateralized, it is zero. -/
theorem liquidationPrice_long (hp : p.WF) (hlong : 0 < p.size.value)
    (hrate : 0 < rate.value ∧ rate.value < 10 ^ rate.decimals)
    (h : p.liquidationPrice ⟨balance, 6⟩ rate = .ok o) :
    ∃ price φ, o = some ⟨price, 8⟩ ∧ 0 ≤ price ∧ (0 < price → 0 ≤ φ) ∧
      φ < marginedSize p rate ∧
      (p.entryNotional.value - 100 * balance) * 10 ^ 8 = marginedSize p rate * price + φ := by
  have hfactored : marginedSize p rate =
      (p.size.value * (1 * 10 ^ rate.decimals - rate.value)).tdiv (10 ^ rate.decimals) := by
    unfold marginedSize factorOf
    rw [if_pos (isLong_iff.mpr hlong), abs_of_pos hlong, one_mul]
  have hnonneg := marginedSize_nonneg (p := p) hrate
  unfold liquidationPrice at h
  rw [if_neg (by simpa using hlong.ne')] at h
  obtain ⟨one, hone, h⟩ := bind_inv h
  rw [if_pos (isLong_iff.mpr hlong)] at h
  obtain ⟨factor, hfactor, h⟩ := bind_inv h
  obtain ⟨-, -, rfl⟩ := Decimal.fromInt_eq_ok.mp hone
  obtain ⟨-, rfl⟩ := Decimal.sub_eq_ok.mp hfactor
  rw [if_neg (by simp; omega)] at h
  obtain ⟨scaled, hscaled, h⟩ := bind_inv h
  obtain ⟨numerator, hnumerator, h⟩ := bind_inv h
  rw [hp.entry] at hscaled
  obtain ⟨-, -, rfl⟩ := (Decimal.toDecimals_up (show 6 < 8 by decide)).mp hscaled
  obtain ⟨-, rfl⟩ := Decimal.sub_eq_ok.mp hnumerator
  have hhundred : balance * 10 ^ (8 - 6) = 100 * balance := by norm_num [mul_comm]
  dsimp only at h
  rw [hhundred, hp.entry] at h
  split at h
  · -- over-collateralized: the numerator is the remainder
    rename_i hneg
    obtain rfl := pure_inv h
    have hneg : p.entryNotional.value - 100 * balance < 0 := by simpa using hneg
    exact ⟨0, (p.entryNotional.value - 100 * balance) * 10 ^ 8, rfl, le_rfl,
      fun hzero => absurd hzero (lt_irrefl 0), by omega, by ring⟩
  · rename_i hneg
    obtain ⟨size, hsize, h⟩ := bind_inv h
    obtain ⟨price, hprice, h⟩ := bind_inv h
    obtain rfl := pure_inv h
    obtain ⟨-, -, rfl⟩ := Decimal.mul_eq_ok.mp hsize
    obtain ⟨hne, -, -, -, rfl⟩ := Decimal.div_eq_ok.mp hprice
    dsimp only at hne ⊢
    rw [← hfactored] at hne ⊢
    rw [hp.size]
    have hpos : 0 < marginedSize p rate := by omega
    have hnum : 0 ≤ (p.entryNotional.value - 100 * balance) * 10 ^ 8 := by
      have : 0 ≤ p.entryNotional.value - 100 * balance := by simpa using hneg
      positivity
    obtain ⟨φ, hφ, hφ0, -, -, hφhi⟩ := tdiv_spec hpos
      (x := (p.entryNotional.value - 100 * balance) * 10 ^ 8)
    exact ⟨_, φ, rfl, Int.tdiv_nonneg hnum hpos.le, fun _ => hφ0 hnum, hφhi, hφ⟩

/-- The price of a short position. It has the sign of what is divided. -/
theorem liquidationPrice_short (hp : p.WF) (hshort : p.size.value < 0)
    (hrate : 0 < rate.value ∧ rate.value < 10 ^ rate.decimals)
    (h : p.liquidationPrice ⟨balance, 6⟩ rate = .ok o) :
    ∃ price φ, o = some ⟨price, 8⟩ ∧ (0 < price → 0 ≤ φ) ∧ |φ| < marginedSize p rate ∧
      (p.entryNotional.value + 100 * balance) * 10 ^ 8 = marginedSize p rate * price + φ := by
  have hfactored : marginedSize p rate =
      (|p.size.value| * (1 * 10 ^ rate.decimals + rate.value)).tdiv (10 ^ rate.decimals) := by
    unfold marginedSize factorOf
    rw [if_neg (isLong_iff.not.mpr hshort.not_gt), one_mul]
  have hnonneg := marginedSize_nonneg (p := p) hrate
  unfold liquidationPrice at h
  rw [if_neg (by simpa using hshort.ne)] at h
  obtain ⟨one, hone, h⟩ := bind_inv h
  rw [if_neg (isLong_iff.not.mpr hshort.not_gt)] at h
  obtain ⟨factor, hfactor, h⟩ := bind_inv h
  obtain ⟨scaled, hscaled, h⟩ := bind_inv h
  obtain ⟨numerator, hnumerator, h⟩ := bind_inv h
  obtain ⟨abs, habs, h⟩ := bind_inv h
  obtain ⟨size, hsize, h⟩ := bind_inv h
  obtain ⟨price, hprice, h⟩ := bind_inv h
  obtain rfl := pure_inv h
  obtain ⟨-, -, rfl⟩ := Decimal.fromInt_eq_ok.mp hone
  obtain ⟨-, rfl⟩ := Decimal.add_eq_ok.mp hfactor
  rw [hp.entry] at hscaled
  obtain ⟨-, -, rfl⟩ := (Decimal.toDecimals_up (show 6 < 8 by decide)).mp hscaled
  obtain ⟨-, rfl⟩ := Decimal.add_eq_ok.mp hnumerator
  obtain ⟨-, rfl⟩ := Decimal.abs_eq_ok.mp habs
  obtain ⟨-, -, rfl⟩ := Decimal.mul_eq_ok.mp hsize
  obtain ⟨hne, -, -, -, rfl⟩ := Decimal.div_eq_ok.mp hprice
  have hhundred : balance * 10 ^ (8 - 6) = 100 * balance := by norm_num [mul_comm]
  dsimp only at hne ⊢
  rw [← hfactored] at hne ⊢
  rw [hp.size, hp.entry, hhundred]
  have hpos : 0 < marginedSize p rate := by omega
  obtain ⟨φ, hφ, hφ0, -, hφlo, hφhi⟩ := tdiv_spec hpos
    (x := (p.entryNotional.value + 100 * balance) * 10 ^ 8)
  refine ⟨_, φ, rfl, fun hprice => hφ0 ?_, abs_lt.mpr ⟨hφlo, hφhi⟩, hφ⟩
  have := mul_le_mul_of_nonneg_left (Int.add_one_le_of_lt hprice) hpos.le
  rw [zero_add, mul_one] at this
  omega

end Price

/-! ### The price against the check -/

section Threshold

variable {p : Position} {account : AccountState} {rate : Decimal} {mark price : Int}

/-- Equity less maintenance margin of one position, in micro-USDC. -/
def excess (account : AccountState) (p : Position) (rate : Decimal) (mark : Int) : Int :=
  account.balance + toUsdc (p.rawPnl ⟨mark, 8⟩) - toUsdc (markMargin p rate mark)

/-- What the check cuts off: of the notional, of the rate, of the PnL and of the margin. -/
theorem check_remainders (hmark : 0 < mark)
    (hrate : 0 < rate.value ∧ rate.value < 10 ^ rate.decimals) :
    ∃ ν σ e f, |p.size.value| * mark = 10 ^ 8 * markNotional p mark + ν ∧
      rate.value * 10 ^ 8 = 10 ^ rate.decimals * rate.rawAt 8 + σ ∧
      p.rawPnl ⟨mark, 8⟩ = 100 * toUsdc (p.rawPnl ⟨mark, 8⟩) + e ∧
      markNotional p mark * rate.rawAt 8 = 100 * 10 ^ 8 * toUsdc (markMargin p rate mark) + f ∧
      0 ≤ markNotional p mark ∧ (0 ≤ ν ∧ ν < 10 ^ 8) ∧ (0 ≤ σ ∧ σ < 10 ^ rate.decimals) ∧
      (-100 < e ∧ e < 100) ∧ (0 ≤ f ∧ f < 100 * 10 ^ 8) := by
  have hvalue : 0 ≤ |p.size.value| * mark := mul_nonneg (abs_nonneg _) hmark.le
  have hnotional : 0 ≤ markNotional p mark := Int.tdiv_nonneg hvalue (by norm_num)
  have hcut : 0 ≤ rate.rawAt 8 := by
    unfold Decimal.rawAt
    split
    · exact mul_nonneg hrate.1.le (by positivity)
    · exact Int.tdiv_nonneg hrate.1.le (by positivity)
  obtain ⟨ν, hν, hν0, -, -, hνhi⟩ :=
    tdiv_spec (x := |p.size.value| * mark) (show (0 : Int) < 10 ^ 8 by norm_num)
  obtain ⟨σ, hσ, hσ0, hσhi⟩ := rawAt_remainder hrate.1.le
  obtain ⟨e, he, -, -, helo, hehi⟩ :=
    tdiv_spec (x := p.rawPnl ⟨mark, 8⟩) (show (0 : Int) < 100 by norm_num)
  obtain ⟨f, hf, hf0, hfhi⟩ := toUsdc_tdiv (mul_nonneg hnotional hcut)
  exact ⟨ν, σ, e, f, hν, hσ, he, hf, hnotional, ⟨hν0 hvalue, hνhi⟩, ⟨hσ0, hσhi⟩,
    ⟨helo, hehi⟩, hf0, hfhi⟩

/-- **Long.** The excess has the sign of the distance from the price. -/
theorem excess_long {φ : Int} (hlong : 0 < p.size.value) (hmark : 0 < mark)
    (hrate : 0 < rate.value ∧ rate.value < 10 ^ rate.decimals) (hprice : 0 ≤ price)
    (hφ0 : 0 < price → 0 ≤ φ) (hφ : φ < marginedSize p rate)
    (heq : (p.entryNotional.value - 100 * account.balance) * 10 ^ 8 =
      marginedSize p rate * price + φ) (hclear : Clear p rate price mark) :
    excess account p rate mark ≤ 0 ↔ mark < price := by
  obtain ⟨ν, σ, e, f, hν, hσ, he, hf, hN, hνb, hσb, heb, hfb⟩ :=
    check_remainders (p := p) hmark hrate
  have hR : (0 : Int) < 10 ^ rate.decimals := by positivity
  have hfactor : factorOf p rate = 10 ^ rate.decimals - rate.value := if_pos (isLong_iff.mpr hlong)
  have hfpos := factorOf_pos (p := p) hrate
  have hpnl : p.rawPnl ⟨mark, 8⟩ = markNotional p mark - p.entryNotional.value := by
    unfold rawPnl
    rw [if_neg hlong.ne', if_pos hlong]
    rfl
  obtain ⟨θ, hθ, hθ0, -, -, hθhi⟩ := tdiv_spec hR (x := |p.size.value| * factorOf p rate)
  have hθ0 := hθ0 (mul_nonneg (abs_nonneg _) hfpos.le)
  unfold Clear at hclear
  change 10 ^ rate.decimals * (2 * 10 ^ 10 + |price| + markNotional p mark) ≤ _ at hclear
  change |p.size.value| * factorOf p rate = 10 ^ rate.decimals * marginedSize p rate + θ at hθ
  have hsum := long_excess (B := account.balance) (hfactor ▸ hθ) heq hν (hpnl ▸ he) hf hσ
  obtain ⟨hrlo, hrhi⟩ := remainders_near (c := 10 ^ 8) (by norm_num) hR hN hσb heb hfb
  rw [← hfactor, ← hpnl] at hsum
  have hνlo : 0 ≤ ν * factorOf p rate := mul_nonneg hνb.1 hfpos.le
  have hνhi : ν * factorOf p rate ≤ 10 ^ 8 * 10 ^ rate.decimals := by
    apply mul_le_mul hνb.2.le (by omega) hfpos.le (by norm_num)
  have hθlo : 0 ≤ θ * price := mul_nonneg hθ0 hprice
  have hθhi : θ * price ≤ 10 ^ rate.decimals * price := by gcongr
  have hφhi : 10 ^ rate.decimals * φ ≤ 10 ^ rate.decimals * marginedSize p rate := by gcongr
  have hcR : (0 : Int) < 100 * 10 ^ 8 * 10 ^ rate.decimals := by positivity
  unfold excess
  rw [abs_of_nonneg hprice] at hclear
  constructor
  · intro hle
    by_contra hwin
    rw [abs_of_nonpos (by omega)] at hclear
    have hpos : 0 < 100 * 10 ^ 8 * 10 ^ rate.decimals * (account.balance +
        toUsdc (p.rawPnl ⟨mark, 8⟩) - toUsdc (markMargin p rate mark)) := by
      rw [hsum]
      linarith [mul_nonneg hR.le hprice, mul_nonneg hR.le hN]
    exact absurd hle (not_le.mpr ((mul_pos_iff_of_pos_left hcR).mp hpos))
  · intro hlose
    rw [abs_of_pos (by omega)] at hclear
    have hφlo : 0 ≤ 10 ^ rate.decimals * φ := mul_nonneg hR.le (hφ0 (by omega))
    have hneg : 100 * 10 ^ 8 * 10 ^ rate.decimals * (account.balance +
        toUsdc (p.rawPnl ⟨mark, 8⟩) - toUsdc (markMargin p rate mark)) < 0 := by
      rw [hsum]
      have hA : 0 < |p.size.value| * factorOf p rate := mul_pos (abs_pos.mpr hlong.ne') hfpos
      linarith
    exact (neg_of_mul_neg_right hneg hcR.le).le

/-- **Short.** -/
theorem excess_short {φ : Int} (hshort : p.size.value < 0) (hmark : 0 < mark)
    (hrate : 0 < rate.value ∧ rate.value < 10 ^ rate.decimals)
    (hφ0 : 0 < price → 0 ≤ φ) (hφ : |φ| < marginedSize p rate)
    (heq : (p.entryNotional.value + 100 * account.balance) * 10 ^ 8 =
      marginedSize p rate * price + φ) (hclear : Clear p rate price mark) :
    excess account p rate mark ≤ 0 ↔ price < mark := by
  obtain ⟨ν, σ, e, f, hν, hσ, he, hf, hN, hνb, hσb, heb, hfb⟩ :=
    check_remainders (p := p) hmark hrate
  have hR : (0 : Int) < 10 ^ rate.decimals := by positivity
  have hfactor : factorOf p rate = 10 ^ rate.decimals + rate.value :=
    if_neg (isLong_iff.not.mpr hshort.not_gt)
  have hfpos := factorOf_pos (p := p) hrate
  have hpnl : p.rawPnl ⟨mark, 8⟩ = p.entryNotional.value - markNotional p mark := by
    unfold rawPnl
    rw [if_neg hshort.ne, if_neg hshort.not_gt]
    rfl
  obtain ⟨θ, hθ, hθ0, -, -, hθhi⟩ := tdiv_spec hR (x := |p.size.value| * factorOf p rate)
  have hθ0 := hθ0 (mul_nonneg (abs_nonneg _) hfpos.le)
  unfold Clear at hclear
  change 10 ^ rate.decimals * (2 * 10 ^ 10 + |price| + markNotional p mark) ≤ _ at hclear
  change |p.size.value| * factorOf p rate = 10 ^ rate.decimals * marginedSize p rate + θ at hθ
  have hsum := short_excess (B := account.balance) (hfactor ▸ hθ) heq hν (hpnl ▸ he) hf hσ
  obtain ⟨hrlo, hrhi⟩ := remainders_near (c := 10 ^ 8) (by norm_num) hR hN hσb heb hfb
  rw [← hfactor, ← hpnl] at hsum
  have hνlo : 0 ≤ ν * factorOf p rate := mul_nonneg hνb.1 hfpos.le
  have hνhi : ν * factorOf p rate ≤ 10 ^ 8 * (2 * 10 ^ rate.decimals) := by
    apply mul_le_mul hνb.2.le (by omega) hfpos.le (by norm_num)
  have hθhi : |θ * price| ≤ 10 ^ rate.decimals * |price| := by
    rw [abs_mul, abs_of_nonneg hθ0]
    gcongr
  have hφhi : 10 ^ rate.decimals * |φ| ≤ 10 ^ rate.decimals * marginedSize p rate := by gcongr
  have hφabs : |10 ^ rate.decimals * φ| = 10 ^ rate.decimals * |φ| := by
    rw [abs_mul, abs_of_pos hR]
  rw [← hφabs] at hφhi
  obtain ⟨hθlo, hθhi⟩ := abs_le.mp hθhi
  obtain ⟨hφlo, hφhi⟩ := abs_le.mp hφhi
  have hcR : (0 : Int) < 100 * 10 ^ 8 * 10 ^ rate.decimals := by positivity
  unfold excess
  constructor
  · intro hle
    by_contra hwin
    rw [abs_of_nonneg (a := price - mark) (by omega)] at hclear
    have hφ0 : 0 ≤ 10 ^ rate.decimals * φ := mul_nonneg hR.le (hφ0 (by omega))
    have hpos : 0 < 100 * 10 ^ 8 * 10 ^ rate.decimals * (account.balance +
        toUsdc (p.rawPnl ⟨mark, 8⟩) - toUsdc (markMargin p rate mark)) := by
      rw [hsum]
      linarith [mul_nonneg hR.le hN, mul_nonneg (abs_nonneg p.size.value) hfpos.le]
    exact absurd hle (not_le.mpr ((mul_pos_iff_of_pos_left hcR).mp hpos))
  · intro hlose
    rw [abs_of_neg (a := price - mark) (by omega)] at hclear
    have hsmall : 100 * 10 ^ 8 * 10 ^ rate.decimals * (account.balance +
        toUsdc (p.rawPnl ⟨mark, 8⟩) - toUsdc (markMargin p rate mark)) <
          100 * 10 ^ 8 * 10 ^ rate.decimals * 1 := by
      rw [hsum]
      linarith
    have := lt_of_mul_lt_mul_left hsmall hcR.le
    omega

/-- **Liquidation price.** Of an open position at a rate within `(0, 1)`, whenever it returns, it
returns a price, and at every mark price that is clear of it the check says that the position is
liquidatable on the losing side and not on the other. The check asks for the sign of an excess
that is linear in the mark; the price is its root, up to the truncations that `Clear` leaves room
for. -/
theorem liquidation_price_threshold {o : Option Decimal} (hp : p.WF) (hopen : p.isEmpty = false)
    (hrate : 0 < rate.value ∧ rate.value < 10 ^ rate.decimals)
    (h : p.liquidationPrice ⟨account.balance, 6⟩ rate = .ok o) :
    ∃ price, o = some ⟨price, 8⟩ ∧ ∀ (market : Market) (mark : Int) (b : Bool),
      market.config.maintenanceMarginRate = rate → market.state.markPrice = ⟨mark, 8⟩ →
      0 < mark → Clear p rate price mark → isLiquidatable account p market = .ok b →
      (b = true ↔ Losing p price mark) := by
  have hsize : p.size.value ≠ 0 := by simpa [isEmpty] using hopen
  rcases lt_or_gt_of_ne hsize with hshort | hlong
  · obtain ⟨price, φ, rfl, hφ0, hφ, heq⟩ := liquidationPrice_short hp hshort hrate h
    refine ⟨price, rfl, fun market mark b hconfig hmark hpos hclear hb => ?_⟩
    rw [isLiquidatable_iff hp hsize hmark hb, hconfig]
    unfold Losing
    rw [if_neg (isLong_iff.not.mpr hshort.not_gt)]
    exact excess_short hshort hpos hrate hφ0 hφ heq hclear
  · obtain ⟨price, φ, rfl, hprice, hφ0, hφ, heq⟩ := liquidationPrice_long hp hlong hrate h
    refine ⟨price, rfl, fun market mark b hconfig hmark hpos hclear hb => ?_⟩
    rw [isLiquidatable_iff hp hsize hmark hb, hconfig]
    unfold Losing
    rw [if_pos (isLong_iff.mpr hlong)]
    exact excess_long hlong hpos hrate hprice hφ0 hφ heq hclear

end Threshold

/-! ### Two accounts -/

/-- A market at a maintenance margin rate and a mark price. -/
def marketAt (rate : Decimal) (mark : Int) : Market :=
  .new { MarketConfig.btcPerp with maintenanceMarginRate := rate } ⟨mark, 8⟩ 0

/-- A long position entered at 60000. -/
def longAt60000 (size : Int) : Position :=
  { Position.new with size := ⟨size, 8⟩, entryNotional := ⟨60000 * size, 8⟩ }

/-- A tenth of a coin with 1000 behind it: the price is `51282.05`, and at 51000 the position is
liquidatable. -/
theorem liquidation_price_threshold_tenth :
    (longAt60000 10000000).liquidationPrice ⟨1000000000, 6⟩ ⟨250000000, 10⟩ =
      .ok (some ⟨5128205128205, 8⟩) ∧
    Clear (longAt60000 10000000) ⟨250000000, 10⟩ 5128205128205 5100000000000 ∧
    isLiquidatable ⟨1000000000⟩ (longAt60000 10000000)
      (marketAt ⟨250000000, 10⟩ 5100000000000) = .ok true := by
  have hprice : (longAt60000 10000000).liquidationPrice
      ⟨(⟨1000000000⟩ : AccountState).balance, 6⟩ ⟨250000000, 10⟩ =
        .ok (some ⟨5128205128205, 8⟩) := by decide +kernel
  have hclear : Clear (longAt60000 10000000) ⟨250000000, 10⟩ 5128205128205 5100000000000 := by
    decide +kernel
  obtain ⟨b, hb, -⟩ := exists_of_test (p := fun _ => true)
    (x := isLiquidatable ⟨1000000000⟩ (longAt60000 10000000)
      (marketAt ⟨250000000, 10⟩ 5100000000000)) (by decide +kernel)
  obtain ⟨price, hsome, hthreshold⟩ := liquidation_price_threshold
    ⟨rfl, rfl, rfl, by decide⟩ (by decide) (by decide) hprice
  obtain rfl : (5128205128205 : Int) = price := by simpa using hsome
  have hiff := hthreshold (marketAt ⟨250000000, 10⟩ 5100000000000) 5100000000000 b rfl rfl
    (by decide) hclear hb
  obtain rfl : b = true := hiff.mpr (by decide)
  exact ⟨hprice, hclear, hb⟩

/-- One raw unit of size is nothing after the margin, and the division halts. One lot at a rate
of one thirtieth has a price 36 cents too high, where one micro-USDC is a tenth of a cent: twenty
cents below it the check still holds the position back. -/
theorem liquidation_price_halts_and_misses :
    (longAt60000 1).liquidationPrice ⟨0, 6⟩ ⟨250000000, 10⟩ = .error .panic ∧
    (longAt60000 100000).liquidationPrice ⟨10000000, 6⟩ ⟨333333333, 10⟩ =
      .ok (some ⟨5172449465168, 8⟩) ∧
    isLiquidatable ⟨10000000⟩ (longAt60000 100000)
      (marketAt ⟨333333333, 10⟩ 5172430000000) = .ok false ∧
    10 ^ 10 * 100 < (5172449465168 - 5172430000000) * (longAt60000 100000).size.value := by
  decide +kernel

end RiskEngine

end Hypercore
