import Hypercore.Engine.Margin
import Hypercore.Primitives.FillRun
import Mathlib.Data.Rat.Floor
/-!
# Hypercore.Engine.OrderMargin

What the margin check of an order decides, in rational numbers.

The margin half is exact: three truncations in a row are one truncation to micro-USDC, and
both sides of the comparison are on the USDC scale (`orderMargin_toRat`). The limit half
compares raw numbers: the notional on eight places with a limit on whatever scale its
configuration has. For a limit in micro-USDC the check refuses every notional from a
hundredth of the limit on (`limitAlike_usdc`).
-/

namespace Hypercore

open Exec Int128 Position

/-- Truncation towards zero. -/
def truncate (q : ℚ) : Int := if 0 ≤ q then ⌊q⌋ else ⌈q⌉

/-- Truncation towards zero on `k` decimal places. -/
def truncateAt (k : Nat) (q : ℚ) : ℚ := truncate (q * 10 ^ k) / 10 ^ k

theorem truncate_div (x : Int) {d : Nat} (hd : 0 < d) :
    truncate (x / d) = x.tdiv d := by
  have hd' : (0 : ℚ) < d := by exact_mod_cast hd
  unfold truncate
  by_cases hx : 0 ≤ x
  · have hq : (0 : ℚ) ≤ x / d := div_nonneg (by exact_mod_cast hx) hd'.le
    rw [if_pos hq, Rat.floor_intCast_div_natCast, Int.tdiv_eq_ediv_of_nonneg hx]
  · have hq : ¬ (0 : ℚ) ≤ x / d := by
      rw [not_le, div_neg_iff]
      exact .inr ⟨by exact_mod_cast not_le.mp hx, hd'⟩
    rw [if_neg hq, Rat.ceil_intCast_div_natCast, ← Int.tdiv_eq_ediv_of_nonneg (by omega),
      Int.neg_tdiv, neg_neg]

namespace RiskEngine

section Check

variable {request : OrderRequest} {account : AccountState} {position : Position}
  {market : Market} {leverage : UInt8} {r : Except Error Unit}

/-- The margin of the order, to the micro-USDC, is at most the free collateral. -/
def MarginSufficient (request : OrderRequest) (account : AccountState) (position : Position)
    (market : Market) (leverage : UInt8) : Prop :=
  After (calculateFreeCollateral account [(position, market, leverage)]) fun free =>
    truncateAt 6 (request.size.toRat * request.price.toRat / leverage.toNat) ≤ free.toRat

/-- Position notional at the mark price with the notional of the order. -/
def notionalAfter (request : OrderRequest) (position : Position) (market : Market) : ℚ :=
  |position.size.toRat| * market.state.markPrice.toRat + request.size.toRat * request.price.toRat

/-- The resulting position is within the limit of the market. -/
def WithinLimit (request : OrderRequest) (position : Position) (market : Market) : Prop :=
  notionalAfter request position market ≤ market.config.maxPositionNotional.toRat

/-- The same notional in raw units of eight places, each term truncated. -/
def rawNotionalAfter (request : OrderRequest) (position : Position) (market : Market) : Int :=
  (|position.size.value| * market.state.markPrice.value).tdiv
      (10 ^ market.state.markPrice.decimals) +
    (request.size.value * request.price.value).tdiv (10 ^ request.price.decimals)

/-- The raw notional is at most the raw limit, whatever the scale of the limit. -/
def RawWithinLimit (request : OrderRequest) (position : Position) (market : Market) : Prop :=
  (⟨rawNotionalAfter request position market, 8⟩ : Decimal) ≤ market.config.maxPositionNotional

/-- The raw comparison with the limit decides as the rational one. -/
def LimitAlike (request : OrderRequest) (position : Position) (market : Market) : Prop :=
  RawWithinLimit request position market ↔ WithinLimit request position market

theorem calculateFreeCollateral_decimals {positions : List (Position × Market × UInt8)}
    {free : Decimal} (h : calculateFreeCollateral account positions = .ok free) :
    free.decimals = 6 := by
  obtain ⟨equity, hequity, h⟩ := bind_inv h
  obtain ⟨pnl, -, hequity⟩ := bind_inv hequity
  obtain ⟨margin, -, h⟩ := bind_inv h
  obtain ⟨margin', -, h⟩ := bind_inv h
  rw [(Decimal.sub_eq_ok.mp h).2, (Decimal.add_eq_ok.mp hequity).2]

/-- **Three truncations are one**: the notional, its quotient by the leverage, and the
conversion to micro-USDC. -/
theorem orderMargin_eq {x : Int} {price : Decimal} {l : Nat} (hl : l ≠ 0) :
    ((((x * price.value).tdiv (10 ^ price.decimals) * 10 ^ 8).tdiv (l * 10 ^ 8)).tdiv
      (10 ^ 2) : Int) / (10 : ℚ) ^ 6 =
    truncateAt 6 ((⟨x, 8⟩ : Decimal).toRat * price.toRat / l) := by
  have hl' : (l : ℚ) ≠ 0 := by exact_mod_cast hl
  have hscaled : (⟨x, 8⟩ : Decimal).toRat * price.toRat / l * 10 ^ 6 =
      ((x * price.value : Int) : ℚ) / ((10 ^ price.decimals * l * 10 ^ 2 : Nat) : ℚ) := by
    unfold Decimal.toRat
    push_cast
    field_simp
    ring
  unfold truncateAt
  rw [hscaled, truncate_div _ (by positivity)]
  congr 2
  rw [Int.mul_tdiv_mul_of_pos_left _ _ (by norm_num), tdiv_tdiv (by positivity),
    tdiv_tdiv (by positivity)]
  push_cast
  ring_nf

/-- The margin of an order, as the check computes it. -/
theorem orderMargin_toRat {size price notional one margin margin6 : Decimal} {l : Nat}
    (hsize : size.decimals = 8) (hnotional : size.mul price = .ok notional)
    (hone : Decimal.fromInt l notional.decimals = .ok one) (hmargin : notional.div one = .ok margin)
    (hmargin6 : margin.toDecimals 6 = .ok margin6) :
    (margin6.value : ℚ) / 10 ^ 6 = truncateAt 6 (size.toRat * price.toRat / l) := by
  obtain ⟨x, k⟩ := size
  obtain rfl : k = 8 := hsize
  obtain rfl := (Decimal.mul_eq_ok.mp hnotional).2.2
  obtain rfl := (Decimal.fromInt_eq_ok.mp hone).2.2
  obtain ⟨hne, -, -, -, rfl⟩ := Decimal.div_eq_ok.mp hmargin
  obtain rfl := ((Decimal.toDecimals_down (show 6 < 8 by decide)).mp hmargin6).2
  have hl : l ≠ 0 := by
    rintro rfl
    exact hne (Int.zero_mul _)
  exact orderMargin_eq hl

/-- The notional that the check compares with the limit. -/
theorem rawNotional_eq {n n' new : Decimal} (hp : position.WF)
    (hnotional : request.size.mul request.price = .ok n)
    (hmark : position.notionalValue market.state.markPrice = .ok n') (hnew : n'.add n = .ok new) :
    new = ⟨rawNotionalAfter request position market, 8⟩ := by
  obtain ⟨abs, habs, hmark⟩ := bind_inv hmark
  obtain rfl := (Decimal.mul_eq_ok.mp hmark).2.2
  obtain rfl := (Decimal.abs_eq_ok.mp habs).2
  obtain rfl := (Decimal.mul_eq_ok.mp hnotional).2.2
  rw [(Decimal.add_eq_ok.mp hnew).2, hp.size]
  rfl

/-- **What the check decides.** -/
theorem checkOrderMargin_ok_iff (hp : position.WF) (hsize : request.size.decimals = 8)
    (h : checkOrderMargin request account position market leverage = .ok r) :
    r = .ok () ↔ MarginSufficient request account position market leverage ∧
      RawWithinLimit request position market := by
  obtain ⟨notional, hnotional, h⟩ := bind_inv h
  obtain ⟨one, hone, h⟩ := bind_inv h
  obtain ⟨margin, hmargin, h⟩ := bind_inv h
  obtain ⟨free, hfree, h⟩ := bind_inv h
  obtain ⟨margin6, hmargin6, h⟩ := bind_inv h
  have hscale := calculateFreeCollateral_decimals hfree
  have hscale6 := (Decimal.toDecimals_decimals hmargin6).trans hscale
  have hsufficient : MarginSufficient request account position market leverage ↔
      margin6 ≤ free := by
    unfold MarginSufficient
    rw [hfree, after_ok, ← orderMargin_toRat hsize hnotional hone hmargin (hscale ▸ hmargin6),
      Decimal.le_iff_of_decimals (hscale6.trans hscale.symm), Decimal.toRat, hscale,
      div_le_div_iff_of_pos_right (by positivity)]
    exact Int.cast_le
  split at h
  · rename_i hshort
    obtain rfl := pure_inv h
    refine iff_of_false (by simp) fun hok => ?_
    exact Decimal.not_lt.mpr (hsufficient.mp hok.1) hshort
  · rename_i hcovered
    obtain ⟨n', hmark, h⟩ := bind_inv h
    obtain ⟨new, hnew, h⟩ := bind_inv h
    obtain rfl := rawNotional_eq hp hnotional hmark hnew
    have hok := hsufficient.mpr (Decimal.not_lt.mp hcovered)
    split at h
    · rename_i hover
      obtain rfl := pure_inv h
      exact iff_of_false (by simp) fun hok => Decimal.not_lt.mpr hok.2 hover
    · rename_i hwithin
      obtain rfl := pure_inv h
      exact iff_of_true rfl ⟨hok, Decimal.not_lt.mp hwithin⟩

/-- Truncating the two notionals loses less than two raw units. -/
theorem notionalAfter_lt (market : Market) (hp : position.WF) (hsize : request.size.decimals = 8) :
    notionalAfter request position market * 10 ^ 8 <
      rawNotionalAfter request position market + 2 := by
  have hheld := abs_lt.mp (tdiv_near (|position.size.value| * market.state.markPrice.value)
    (d := 10 ^ market.state.markPrice.decimals) (by positivity))
  have hordered := abs_lt.mp (tdiv_near (request.size.value * request.price.value)
    (d := 10 ^ request.price.decimals) (by positivity))
  have hnotional : notionalAfter request position market * 10 ^ 8 =
      (|position.size.value| * market.state.markPrice.value : Int) /
          ((10 ^ market.state.markPrice.decimals : Int) : ℚ) +
        (request.size.value * request.price.value : Int) /
          ((10 ^ request.price.decimals : Int) : ℚ) := by
    unfold notionalAfter Decimal.toRat
    rw [hp.size, hsize, abs_div, abs_of_pos (show (0 : ℚ) < 10 ^ 8 by positivity)]
    push_cast
    field_simp
  rw [hnotional]
  unfold rawNotionalAfter
  push_cast at hheld hordered ⊢
  linarith [hheld.1, hordered.1]

/-- For a limit in micro-USDC the two comparisons differ on the notionals from a hundredth of
the limit up to the limit. -/
theorem limitAlike_usdc (hp : position.WF) (hsize : request.size.decimals = 8)
    (hlimit : market.config.maxPositionNotional.decimals = 6)
    (hmark : 0 ≤ market.state.markPrice.value) (hx : 0 ≤ request.size.value)
    (hprice : 0 ≤ request.price.value) :
    LimitAlike request position market ↔
      ¬ (market.config.maxPositionNotional.value ≤ rawNotionalAfter request position market ∧
        WithinLimit request position market) := by
  have hraw : RawWithinLimit request position market ↔
      rawNotionalAfter request position market < market.config.maxPositionNotional.value := by
    unfold RawWithinLimit
    rw [Decimal.le_def, hlimit]
    dsimp only
    omega
  have hnonneg : 0 ≤ rawNotionalAfter request position market :=
    add_nonneg (Int.tdiv_nonneg (mul_nonneg (abs_nonneg _) hmark) (by positivity))
      (Int.tdiv_nonneg (mul_nonneg hx hprice) (by positivity))
  have hlt := notionalAfter_lt market hp hsize
  -- a raw notional below the raw limit is far below the limit
  have hwithin : rawNotionalAfter request position market <
      market.config.maxPositionNotional.value → WithinLimit request position market := by
    intro hbelow
    have hstep : rawNotionalAfter request position market + 2 ≤
        100 * market.config.maxPositionNotional.value := by omega
    have hstep' : (rawNotionalAfter request position market : ℚ) + 2 ≤
        100 * market.config.maxPositionNotional.value := by exact_mod_cast hstep
    unfold WithinLimit
    rw [Decimal.toRat, hlimit, le_div_iff₀ (by positivity)]
    linarith
  unfold LimitAlike
  rw [hraw, ← not_lt]
  tauto

/-- **The margin check** is the rational one exactly when the margin is insufficient anyway or the
raw comparison with the limit decides as the rational one. The code accepts just when the margin
is sufficient and the raw notional within the limit, so only the second comparison can differ. -/
theorem checkOrderMargin_iff (hp : position.WF) (hsize : request.size.decimals = 8)
    (h : checkOrderMargin request account position market leverage = .ok r) :
    ((r = .ok () ↔ MarginSufficient request account position market leverage ∧
        WithinLimit request position market) ↔
      (MarginSufficient request account position market leverage →
        LimitAlike request position market)) ∧
    (market.config.maxPositionNotional.decimals = 6 →
      0 ≤ market.state.markPrice.value → 0 ≤ request.size.value → 0 ≤ request.price.value →
      (LimitAlike request position market ↔
        ¬ (market.config.maxPositionNotional.value ≤ rawNotionalAfter request position market ∧
          WithinLimit request position market))) := by
  refine ⟨?_, fun h1 h2 h3 h4 => limitAlike_usdc hp hsize h1 h2 h3 h4⟩
  rw [checkOrderMargin_ok_iff hp hsize h]
  exact and_congr_right_iff

end Check

instance {request : OrderRequest} {account : AccountState} {position : Position} {market : Market}
    {leverage : UInt8} : Decidable (MarginSufficient request account position market leverage) :=
  inferInstanceAs (Decidable (After _ _))

instance {request : OrderRequest} {position : Position} {market : Market} :
    Decidable (WithinLimit request position market) :=
  inferInstanceAs (Decidable (_ ≤ _))

instance {request : OrderRequest} {position : Position} {market : Market} :
    Decidable (RawWithinLimit request position market) :=
  inferInstanceAs (Decidable (_ ≤ _))

instance {request : OrderRequest} {position : Position} {market : Market} :
    Decidable (LimitAlike request position market) :=
  inferInstanceAs (Decidable (_ ↔ _))

/-- An order for 0.1 at 65000, on a deposit of a million, passes as it should. -/
theorem checkOrderMargin_passes : ∃ (e : Engine) (account : AccountState) (market : Market),
    Engine.Reachable e ∧ e.state.accounts[(1 : AccountAddress)]? = some account ∧
    e.state.getMarket 0 = some market ∧
    MarginSufficient (Engine.limitOrder .buy .gtc 6500000000000 10000000) account .new market 10 ∧
    WithinLimit (Engine.limitOrder .buy .gtc 6500000000000 10000000) .new market := by
  obtain ⟨e, hrun, htest⟩ := exists_of_test
    (x := Engine.btcRun none [.deposit 1 1000000000000])
    (p := fun e => decide (∃ account ∈ e.state.accounts[(1 : AccountAddress)]?,
      ∃ market ∈ e.state.getMarket 0,
        checkOrderMargin (Engine.limitOrder .buy .gtc 6500000000000 10000000) account .new market
          10 = .ok (.ok ()) ∧
        (MarginSufficient (Engine.limitOrder .buy .gtc 6500000000000 10000000) account .new market
          10 → LimitAlike (Engine.limitOrder .buy .gtc 6500000000000 10000000) .new market)))
    (by decide +kernel)
  obtain ⟨account, haccount, market, hmarket, hcheck, halike⟩ := of_decide_eq_true htest
  obtain ⟨hmargin, hwithin⟩ := ((checkOrderMargin_iff Position.new_wf rfl hcheck).1.mpr
    halike).mp rfl
  exact ⟨e, account, market, Engine.btcRun_reachable hrun, haccount, hmarket, hmargin, hwithin⟩

/-- An order for 2 at 65000 is refused with a notional of 130000 and a limit of ten million. -/
theorem checkOrderMargin_refuses : ∃ (e : Engine) (account : AccountState) (market : Market),
    Engine.Reachable e ∧ e.state.accounts[(1 : AccountAddress)]? = some account ∧
    e.state.getMarket 0 = some market ∧
    checkOrderMargin (Engine.limitOrder .buy .gtc 6500000000000 200000000) account .new market
      10 = .ok (.error (.maxPositionExceeded "10000000")) ∧
    MarginSufficient (Engine.limitOrder .buy .gtc 6500000000000 200000000) account .new market
      10 ∧
    notionalAfter (Engine.limitOrder .buy .gtc 6500000000000 200000000) .new market = 130000 ∧
    market.config.maxPositionNotional.toRat = 10000000 := by
  obtain ⟨e, hrun, htest⟩ := exists_of_test
    (x := Engine.btcRun none [.deposit 1 1000000000000])
    (p := fun e => decide (∃ account ∈ e.state.accounts[(1 : AccountAddress)]?,
      ∃ market ∈ e.state.getMarket 0,
        checkOrderMargin (Engine.limitOrder .buy .gtc 6500000000000 200000000) account .new market
          10 = .ok (.error (.maxPositionExceeded "10000000")) ∧
        MarginSufficient (Engine.limitOrder .buy .gtc 6500000000000 200000000) account .new market
          10 ∧
        notionalAfter (Engine.limitOrder .buy .gtc 6500000000000 200000000) .new market = 130000 ∧
        market.config.maxPositionNotional.toRat = 10000000)) (by decide +kernel)
  obtain ⟨account, haccount, market, hmarket, hcheck⟩ := of_decide_eq_true htest
  exact ⟨e, account, market, Engine.btcRun_reachable hrun, haccount, hmarket, hcheck⟩

end RiskEngine

end Hypercore
