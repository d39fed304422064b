import Hypercore.Primitives.DecimalText
import Hypercore.Primitives.FillValue
import Mathlib.Algebra.BigOperators.Ring.Finset
/-!
# Hypercore.Primitives.FillRun

A position over a run of fills.

**What is booked.** Realized PnL and entry notional together are a ledger of the cash
that went through a position (`booked`). One fill books its cash up to two truncations:
of its notional, and of the PnL it realizes to micro-USDC. The first rounds the cost of a
buy down and the proceeds of a sell down, so it can only help a long and only hurt a
short, and only a flip does it twice. `longSlack` and `shortSlack` carry that second unit
from the fill that opens a side to the fill that flips it, and so a run books its cash
within a micro-USDC for each fill (`applyFills_booked`).
-/

namespace Hypercore

open Exec Int128

/-- The arguments of one `apply_fill`. -/
structure PositionFill where
  size : Decimal
  price : Decimal
  isBuy : Bool
  deriving DecidableEq, Repr

namespace PositionFill

/-- A positive size, on the scale of sizes, at a price that is not negative. -/
structure Valid (f : PositionFill) : Prop where
  scale : f.size.decimals = 8
  size : 0 < f.size.value
  price : 0 ≤ f.price.value

instance (f : PositionFill) : Decidable f.Valid :=
  decidable_of_iff (f.size.decimals = 8 ∧ 0 < f.size.value ∧ 0 ≤ f.price.value)
    ⟨fun h => ⟨h.1, h.2.1, h.2.2⟩, fun h => ⟨h.scale, h.size, h.price⟩⟩

/-- The fill's raw size, with the sign of its side. -/
def side (f : PositionFill) : Int := if f.isBuy then f.size.value else -f.size.value

/-- The fill's size, with the sign of its side. -/
def signedSize (f : PositionFill) : ℚ := if f.isBuy then f.size.toRat else -f.size.toRat

/-- What the fill pays: a sell brings its notional, a buy costs it. -/
def cash (f : PositionFill) : ℚ := -(f.signedSize * f.price.toRat)

end PositionFill

/-- Cash flow of a run of fills: sells minus buys. -/
def cashFlow (fills : List PositionFill) : ℚ := (fills.map PositionFill.cash).sum

namespace Position

/-- `apply_fill` of each fill in turn. -/
def applyFills (p : Position) (fills : List PositionFill) : Exec Position :=
  fills.foldlM (fun p f => p.applyFill f.size f.price f.isBuy) p

/-! ### The preview -/

section Preview

variable {p p' : Position} {f price : Decimal} {isBuy : Bool}

theorem addRealized_eq {pnl r : Decimal} (h : p.addRealized pnl = .ok r) :
    ∃ v, pnl.toDecimals p.realizedPnl.decimals = .ok v ∧
      r = ⟨p.realizedPnl.value + v.value, p.realizedPnl.decimals⟩ := by
  obtain ⟨v, hv, h⟩ := bind_inv h
  exact ⟨v, hv, (Decimal.add_eq_ok.mp h).2⟩

/-- **The preview is what is booked.** A fill that goes through adds to `realizedPnl` what
`calculate_fill_pnl` returns for it. -/
theorem applyFill_preview (hp : p.realizedPnl.decimals = 6)
    (h : p.applyFill f price isBuy = .ok p') :
    ∃ v : Int, p.calculateFillPnl f price isBuy = .ok ⟨v, 6⟩ ∧
      p'.realizedPnl = ⟨p.realizedPnl.value + v, 6⟩ := by
  obtain ⟨side, hside, h⟩ := bind_inv h
  obtain ⟨size, hsize, h⟩ := bind_inv h
  obtain ⟨n, hn, h⟩ := bind_inv h
  obtain ⟨q, hq, h⟩ := bind_inv h
  obtain rfl := pure_inv h
  have hkept : p.realizedPnl = ⟨p.realizedPnl.value + 0, 6⟩ := by
    rw [Int.add_zero, ← hp]
  have hbooked : ∀ {pnl r : Decimal}, p.addRealized pnl = .ok r →
      ∃ v : Int, pnl.toDecimals 6 = .ok ⟨v, 6⟩ ∧ r = ⟨p.realizedPnl.value + v, 6⟩ := by
    intro pnl r hr
    obtain ⟨v, hv, rfl⟩ := addRealized_eq hr
    rw [hp] at hv ⊢
    refine ⟨v.value, ?_, rfl⟩
    rw [hv, ← Decimal.toDecimals_decimals hv]
  -- the four branches of the fill: opening, increasing, reducing, flipping
  by_cases hz : p.size.isZero = true
  · have hpreview : p.calculateFillPnl f price isBuy = .ok ⟨0, 6⟩ := if_pos hz
    rw [hz, Bool.or_true, if_pos rfl, Bool.true_or, if_pos rfl] at hq
    obtain ⟨m, -, hq⟩ := bind_inv hq
    obtain rfl := pure_inv hq
    exact ⟨_, hpreview, hkept⟩
  · have hpreview : p.calculateFillPnl f price isBuy = (
        if p.keepsSide size then
          if p.size.value.sign = side.value.sign then return ⟨0, 6⟩
          else do
            let closing ← p.closedPart f n
            closing.2.toDecimals 6
        else do (← p.unrealizedPnl price).toDecimals 6) := by
      unfold calculateFillPnl
      rw [if_neg hz, hside, ok_bind, hsize, ok_bind, hn, ok_bind]
    rw [hpreview]
    rw [Bool.eq_false_iff.mpr hz, Bool.or_false, Bool.false_or] at hq
    by_cases hkeep : p.keepsSide size = true
    · rw [if_pos hkeep] at hq ⊢
      by_cases hsign : p.size.value.sign = side.value.sign
      · rw [if_pos (decide_eq_true hsign)] at hq
        rw [if_pos hsign]
        obtain ⟨m, -, hq⟩ := bind_inv hq
        obtain rfl := pure_inv hq
        exact ⟨_, rfl, hkept⟩
      · rw [if_neg (by simpa using hsign)] at hq
        rw [if_neg hsign]
        obtain ⟨⟨closed, pnl⟩, hclosed, hq⟩ := bind_inv hq
        obtain ⟨r, hr, hq⟩ := bind_inv hq
        obtain ⟨m, -, hq⟩ := bind_inv hq
        obtain rfl := pure_inv hq
        obtain ⟨v, hv, hrealized⟩ := hbooked hr
        exact ⟨v, bind_eq_ok.mpr ⟨_, hclosed, hv⟩, hrealized⟩
    · rw [if_neg hkeep] at hq ⊢
      obtain ⟨u, hu, hq⟩ := bind_inv hq
      obtain ⟨r, hr, hq⟩ := bind_inv hq
      obtain ⟨a, -, hq⟩ := bind_inv hq
      obtain ⟨d, -, hq⟩ := bind_inv hq
      obtain ⟨rem, -, hq⟩ := bind_inv hq
      obtain ⟨m, -, hq⟩ := bind_inv hq
      obtain rfl := pure_inv hq
      obtain ⟨v, hv, hrealized⟩ := hbooked hr
      exact ⟨v, bind_eq_ok.mpr ⟨u, hu, hv⟩, hrealized⟩

/-- Realized PnL stays in micro-USDC, whatever the fills. -/
theorem applyFills_realized_decimals {fills : List PositionFill}
    (hp : p.realizedPnl.decimals = 6) (h : p.applyFills fills = .ok p') :
    p'.realizedPnl.decimals = 6 :=
  foldlM_induction (P := fun q : Position => q.realizedPnl.decimals = 6) h hp
    fun _ _ _ _ hq hfill => by
      obtain ⟨v, -, hrealized⟩ := applyFill_preview hq hfill
      rw [hrealized]

end Preview

/-! ### One fill -/

section Step

variable {p p' : Position} {f : PositionFill}

/-- The cash that went through a position, as its books have it, at price scale. -/
def booked (p : Position) : Int :=
  100 * p.realizedPnl.value - p.size.value.sign * p.entryNotional.value

/-- A unit that the fill which opened a long has not used. -/
def longSlack (p : Position) : Int := if 0 < p.size.value then 1 else 0

/-- A unit that the fill which opened a short has not used. -/
def shortSlack (p : Position) : Int := if p.size.value < 0 then 1 else 0

theorem longSlack_of_pos (h : 0 < p.size.value) : p.longSlack = 1 := if_pos h

theorem longSlack_of_nonpos (h : p.size.value ≤ 0) : p.longSlack = 0 := if_neg (by omega)

theorem shortSlack_of_neg (h : p.size.value < 0) : p.shortSlack = 1 := if_pos h

theorem shortSlack_of_nonneg (h : 0 ≤ p.size.value) : p.shortSlack = 0 := if_neg (by omega)

theorem longSlack_bounds (p : Position) : (0 : ℚ) ≤ p.longSlack ∧ (p.longSlack : ℚ) ≤ 1 := by
  unfold longSlack
  split <;> simp

theorem shortSlack_bounds (p : Position) :
    (0 : ℚ) ≤ p.shortSlack ∧ (p.shortSlack : ℚ) ≤ 1 := by
  unfold shortSlack
  split <;> simp

/-- Converting to micro-USDC drops less than one of them. -/
theorem toUsdc_bounds (u : Int) :
    (u - 99 : ℚ) ≤ 100 * toUsdc u ∧ (100 * toUsdc u : ℚ) ≤ u + 99 := by
  have hraw : u - 99 ≤ 100 * toUsdc u ∧ 100 * toUsdc u ≤ u + 99 := by
    unfold toUsdc
    obtain ⟨r, hr, -, -, hlo, hhi⟩ := tdiv_spec (x := u) (d := 100) (by norm_num)
    omega
  exact_mod_cast hraw

/-- Raw notional of a size at the fill's price. -/
def rawNotional (f : PositionFill) (size : Int) : Int :=
  (size * f.price.value).tdiv (10 ^ f.price.decimals)

/-- A truncated notional is less than a raw unit below the notional. -/
theorem rawNotional_bounds {size : Int} (hsize : 0 ≤ size) (hf : f.Valid) :
    (rawNotional f size : ℚ) ≤ size * f.price.toRat ∧
      size * f.price.toRat < (rawNotional f size : ℚ) + 1 := by
  have hD : (0 : Int) < 10 ^ f.price.decimals := by positivity
  have hDq : (0 : ℚ) < 10 ^ f.price.decimals := by positivity
  obtain ⟨r, hr, hr0, -, -, hhi⟩ := tdiv_spec (x := size * f.price.value) hD
  have hr0 := hr0 (mul_nonneg hsize hf.price)
  unfold rawNotional
  generalize (size * f.price.value).tdiv (10 ^ f.price.decimals) = q at hr ⊢
  have hcast : (size : ℚ) * f.price.value = 10 ^ f.price.decimals * q + r := by exact_mod_cast hr
  have hr0q : (0 : ℚ) ≤ r := by exact_mod_cast hr0
  have hhiq : (r : ℚ) < 10 ^ f.price.decimals := by exact_mod_cast hhi
  unfold Decimal.toRat
  rw [← mul_div_assoc, hcast]
  constructor
  · rw [le_div_iff₀ hDq]
    linarith
  · rw [div_lt_iff₀ hDq]
    linarith

theorem applyFill_realized (hp : p.WF) (hf : f.Valid)
    (h : p.applyFill f.size f.price f.isBuy = .ok p') :
    p'.realizedPnl.value =
      p.realizedPnl.value + toUsdc (p.rawFillPnl f.size f.price f.isBuy) := by
  obtain ⟨v, hv, hrealized⟩ := applyFill_preview hp.realized h
  have husdc := calculateFillPnl_usdc hp hf.scale hv
  rw [hrealized, ← husdc]

/-- What a fill does to the raw amounts of a position, by the branch it takes. -/
inductive FillCase (p p' : Position) (f : PositionFill) : Prop
  | increase (hside : p.size.value = 0 ∨ p.size.value.sign = f.side.sign)
      (hrealized : p'.realizedPnl.value = p.realizedPnl.value)
      (hentry : p'.entryNotional.value = p.entryNotional.value + rawNotional f f.size.value)
  | reduce (hside : p.size.value.sign = -f.side.sign) (hle : f.size.value ≤ |p.size.value|)
      (hrealized : p'.realizedPnl.value = p.realizedPnl.value +
        toUsdc (p.size.value.sign * (rawNotional f f.size.value - p.rawClosed f.size)))
      (hentry : p'.entryNotional.value = p.entryNotional.value - p.rawClosed f.size)
  | flip (hside : p.size.value.sign = -f.side.sign) (hlt : |p.size.value| < f.size.value)
      (hrealized : p'.realizedPnl.value = p.realizedPnl.value +
        toUsdc (p.size.value.sign * (rawNotional f |p.size.value| - p.entryNotional.value)))
      (hentry : p'.entryNotional.value = rawNotional f (f.size.value - |p.size.value|))

/-- **Inversion.** A fill takes one of the three branches. -/
theorem applyFill_cases (hp : p.WF) (hf : f.Valid)
    (h : p.applyFill f.size f.price f.isBuy = .ok p') :
    p'.WF ∧ p'.size.value = p.size.value + f.side ∧ FillCase p p' f := by
  obtain ⟨hwf, hsize, hentry⟩ := applyFill_eq hp hf.scale h
  have hrealized := applyFill_realized hp hf h
  refine ⟨hwf, hsize, ?_⟩
  have hF := hf.size
  have hside : f.side = f.size.value ∨ f.side = -f.size.value := by
    unfold PositionFill.side
    cases f.isBuy <;> simp
  have hsideEq : (if f.isBuy then f.size.value else -f.size.value) = f.side := rfl
  have hall := rawClosed_all (p := p) (f := f.size)
  unfold rawFillPnl rawPnl at hrealized
  unfold rawEntry at hentry
  rw [hsideEq] at hsize hentry hrealized
  simp only [keepsSide_iff] at hrealized hentry
  by_cases hz : p.size.value = 0
  · have hne : p'.size.value ≠ 0 := by omega
    rw [if_pos hz] at hrealized
    rw [if_neg hne, if_pos (.inr hz), if_pos (.inl hz)] at hentry
    exact .increase (.inl hz) (hrealized.trans (Int.add_zero _)) hentry
  · have hdirected : ∀ x y : Int,
        (if 0 < p.size.value then x - y else y - x) = p.size.value.sign * (x - y) := by
      intro x y
      split
      · rename_i hs
        rw [Int.sign_eq_one_of_pos hs, one_mul]
      · rename_i hs
        rw [Int.sign_eq_neg_one_of_neg (by omega)]
        ring
    rw [if_neg hz] at hrealized
    simp only [hz, if_false, or_false, false_or, hdirected] at hrealized hentry
    by_cases hsame : p.size.value.sign = f.side.sign
    · have hkeep : (0 < p.size.value ∧ 0 < p.size.value + f.side) ∨
          (p.size.value < 0 ∧ p.size.value + f.side < 0) := by
        rcases Int.lt_or_gt_of_ne hz with hs | hs
        · have := (sign_eq_iff_of_neg hs).mp hsame
          omega
        · have := (sign_eq_iff_of_pos hs).mp hsame
          omega
      have hne : p'.size.value ≠ 0 := by omega
      have hkeep' := or_assoc.mp (Or.inl (b := p.size.value + f.side = 0) hkeep)
      rw [if_pos hkeep', if_pos hsame] at hrealized
      rw [if_neg hne, if_pos hkeep', if_pos hsame] at hentry
      exact .increase (.inr hsame) (hrealized.trans (Int.add_zero _)) hentry
    · have hpos : 0 < |p.size.value| := abs_pos.mpr hz
      have hopposite : p.size.value = |p.size.value| ∧ f.side = -f.size.value ∨
          p.size.value = -|p.size.value| ∧ f.side = f.size.value := by
        rcases Int.lt_or_gt_of_ne hz with hs | hs
        · have hnot := mt (sign_eq_iff_of_neg hs).mpr hsame
          rw [abs_of_neg hs]
          omega
        · have hnot := mt (sign_eq_iff_of_pos hs).mpr hsame
          rw [abs_of_pos hs]
          omega
      have hsigns : p.size.value.sign = -f.side.sign := by
        rcases hopposite with ⟨hs, hf⟩ | ⟨hs, hf⟩
        · rw [Int.sign_eq_one_of_pos (by omega), Int.sign_eq_neg_one_of_neg (by omega), neg_neg]
        · rw [Int.sign_eq_neg_one_of_neg (by omega), Int.sign_eq_one_of_pos (by omega)]
      by_cases hle : f.size.value ≤ |p.size.value|
      · have hkeep : (0 < p.size.value ∧ 0 < p.size.value + f.side) ∨
            (p.size.value < 0 ∧ p.size.value + f.side < 0) ∨ p.size.value + f.side = 0 := by
          omega
        rw [if_pos hkeep, if_neg hsame] at hrealized
        rw [if_pos hkeep, if_neg hsame] at hentry
        refine .reduce hsigns hle hrealized ?_
        -- a position closed to flat loses all of its entry notional
        by_cases hflat : p'.size.value = 0
        · rw [if_pos hflat] at hentry
          rw [hentry, hall hz (by omega), Int.sub_self]
        · rw [hentry, if_neg hflat]
      · have hkeep : ¬((0 < p.size.value ∧ 0 < p.size.value + f.side) ∨
            (p.size.value < 0 ∧ p.size.value + f.side < 0) ∨ p.size.value + f.side = 0) := by
          omega
        have hne : p'.size.value ≠ 0 := by omega
        rw [if_neg hkeep] at hrealized
        rw [if_neg hne, if_neg hkeep, abs_of_nonneg (by omega)] at hentry
        exact .flip hsigns (by omega) hrealized hentry

/-- **One fill.** It books its cash within a micro-USDC, less the unit of a side it opens,
plus the unit of a side it leaves. A fill that opens a position rounds only once. -/
theorem applyFill_booked (hp : p.WF) (hf : f.Valid)
    (h : p.applyFill f.size f.price f.isBuy = .ok p') :
    ((p'.longSlack - p.longSlack - 100 : ℚ) ≤ p'.booked - p.booked + f.side * f.price.toRat ∧
      p'.booked - p.booked + f.side * f.price.toRat ≤ 100 - (p'.shortSlack - p.shortSlack : ℚ)) ∧
    (p.size.value = 0 →
      (p'.longSlack - 1 : ℚ) ≤ p'.booked - p.booked + f.side * f.price.toRat ∧
        p'.booked - p.booked + f.side * f.price.toRat ≤ 1 - (p'.shortSlack : ℚ)) := by
  obtain ⟨hwf, hsize, hcase⟩ := applyFill_cases hp hf h
  have hF := hf.size
  have hneg : -f.size.value < 0 := by omega
  have hflat := hp.flat
  have hflat' := hwf.flat
  have hdir : f.side = f.size.value ∨ f.side = -f.size.value := by
    unfold PositionFill.side
    cases f.isBuy <;> simp
  obtain ⟨hlo, hhi⟩ := rawNotional_bounds hF.le hf
  obtain ⟨hlong, hlong'⟩ := longSlack_bounds p
  obtain ⟨hshort, hshort'⟩ := shortSlack_bounds p
  unfold booked
  cases hcase with
  | increase hside hrealized hentry =>
    -- both signs are the fill's, an empty position having nothing to sign
    have hbase :
        p.size.value.sign * p.entryNotional.value = f.side.sign * p.entryNotional.value := by
      rcases hside with hz | hsame
      · rw [hflat hz, mul_zero, mul_zero]
      · rw [hsame]
    rcases hdir with hbuy | hsell
    · have hs : 0 < p'.size.value := by
        rcases hside with hz | hsame
        · omega
        · rw [hbuy, Int.sign_eq_one_of_pos hF, Int.sign_eq_one_iff_pos] at hsame
          omega
      rw [hbase, hrealized, hentry, hbuy, Int.sign_eq_one_of_pos hF, Int.sign_eq_one_of_pos hs,
        longSlack_of_pos hs, shortSlack_of_nonneg hs.le]
      push_cast
      exact ⟨⟨by linarith, by linarith⟩, fun _ => ⟨by linarith, by linarith⟩⟩
    · have hs : p'.size.value < 0 := by
        rcases hside with hz | hsame
        · omega
        · rw [hsell, Int.sign_eq_neg_one_of_neg hneg, Int.sign_eq_neg_one_iff_neg] at hsame
          omega
      rw [hbase, hrealized, hentry, hsell, Int.sign_eq_neg_one_of_neg hneg,
        Int.sign_eq_neg_one_of_neg hs, longSlack_of_nonpos hs.le, shortSlack_of_neg hs]
      push_cast
      exact ⟨⟨by linarith, by linarith⟩, fun _ => ⟨by linarith, by linarith⟩⟩
  | reduce hside hle hrealized hentry =>
    -- what the closed part takes out of the entry notional goes into the PnL
    obtain ⟨hulo, huhi⟩ := toUsdc_bounds
      (p.size.value.sign * (rawNotional f f.size.value - p.rawClosed f.size))
    generalize toUsdc (p.size.value.sign * _) = u at hrealized hulo huhi
    -- a position closed to flat has no sign and no entry notional
    have hbase : p'.size.value.sign * (p.entryNotional.value - p.rawClosed f.size) =
        p.size.value.sign * (p.entryNotional.value - p.rawClosed f.size) := by
      rw [← hentry]
      by_cases hz : p'.size.value = 0
      · rw [hflat' hz, mul_zero, mul_zero]
      · rcases hdir with hbuy | hsell
        · rw [hbuy, Int.sign_eq_one_of_pos hF, Int.sign_eq_neg_one_iff_neg] at hside
          rw [abs_of_neg hside] at hle
          rw [Int.sign_eq_neg_one_of_neg hside,
            Int.sign_eq_neg_one_of_neg (show p'.size.value < 0 by omega)]
        · rw [hsell, Int.sign_eq_neg_one_of_neg hneg, neg_neg, Int.sign_eq_one_iff_pos] at hside
          rw [abs_of_pos hside] at hle
          rw [Int.sign_eq_one_of_pos hside,
            Int.sign_eq_one_of_pos (show 0 < p'.size.value by omega)]
    rw [hrealized, hentry, hbase]
    rcases hdir with hbuy | hsell
    · rw [hbuy, Int.sign_eq_one_of_pos hF, Int.sign_eq_neg_one_iff_neg] at hside
      rw [abs_of_neg hside] at hle
      obtain ⟨hshort₁, hshort₁'⟩ := shortSlack_bounds p'
      rw [Int.sign_eq_neg_one_of_neg hside] at hulo huhi ⊢
      rw [hbuy, longSlack_of_nonpos hside.le, shortSlack_of_neg hside,
        longSlack_of_nonpos (show p'.size.value ≤ 0 by omega)]
      push_cast at hulo huhi ⊢
      exact ⟨⟨by linarith, by linarith⟩, fun hz => absurd hz hside.ne⟩
    · rw [hsell, Int.sign_eq_neg_one_of_neg hneg, neg_neg, Int.sign_eq_one_iff_pos] at hside
      rw [abs_of_pos hside] at hle
      obtain ⟨hlong₁, hlong₁'⟩ := longSlack_bounds p'
      rw [Int.sign_eq_one_of_pos hside] at hulo huhi ⊢
      rw [hsell, longSlack_of_pos hside, shortSlack_of_nonneg hside.le,
        shortSlack_of_nonneg (show 0 ≤ p'.size.value by omega)]
      push_cast at hulo huhi ⊢
      exact ⟨⟨by linarith, by linarith⟩, fun hz => absurd hz hside.ne'⟩
  | flip hside hlt hrealized hentry =>
    obtain ⟨hulo, huhi⟩ := toUsdc_bounds
      (p.size.value.sign * (rawNotional f |p.size.value| - p.entryNotional.value))
    generalize toUsdc (p.size.value.sign * _) = u at hrealized hulo huhi
    obtain ⟨hclo, hchi⟩ := rawNotional_bounds (abs_nonneg p.size.value) hf
    obtain ⟨holo, hohi⟩ := rawNotional_bounds (sub_nonneg.mpr hlt.le) hf
    rw [hrealized, hentry]
    rcases hdir with hbuy | hsell
    · rw [hbuy, Int.sign_eq_one_of_pos hF, Int.sign_eq_neg_one_iff_neg] at hside
      rw [abs_of_neg hside] at *
      have hs : 0 < p'.size.value := by omega
      rw [Int.sign_eq_neg_one_of_neg hside] at hulo huhi ⊢
      rw [hbuy, Int.sign_eq_one_of_pos hs, longSlack_of_nonpos hside.le, longSlack_of_pos hs,
        shortSlack_of_neg hside, shortSlack_of_nonneg hs.le]
      push_cast at hulo huhi hclo hchi holo hohi ⊢
      exact ⟨⟨by linarith, by linarith⟩, fun hz => absurd hz hside.ne⟩
    · rw [hsell, Int.sign_eq_neg_one_of_neg hneg, neg_neg, Int.sign_eq_one_iff_pos] at hside
      rw [abs_of_pos hside] at *
      have hs : p'.size.value < 0 := by omega
      rw [Int.sign_eq_one_of_pos hside] at hulo huhi ⊢
      rw [hsell, Int.sign_eq_neg_one_of_neg hs, longSlack_of_pos hside, longSlack_of_nonpos hs.le,
        shortSlack_of_nonneg hside.le, shortSlack_of_neg hs]
      push_cast at hulo huhi hclo hchi holo hohi ⊢
      exact ⟨⟨by linarith, by linarith⟩, fun hz => absurd hz hside.ne'⟩

/-- A fill closes no more than the entry notional there is. -/
theorem rawClosed_bounds (hentry : 0 ≤ p.entryNotional.value) (hf : f.Valid)
    (hle : f.size.value ≤ |p.size.value|) :
    0 ≤ p.rawClosed f.size ∧ p.rawClosed f.size ≤ p.entryNotional.value := by
  have hF := hf.size
  have hscale : (0 : Int) ≤ 10 ^ 8 := by norm_num
  have hratio : 0 ≤ (f.size.value * 10 ^ 8).tdiv |p.size.value| :=
    Int.tdiv_nonneg (by positivity) (abs_nonneg _)
  have hratio' : (f.size.value * 10 ^ 8).tdiv |p.size.value| ≤ 10 ^ 8 := by
    have hle' : f.size.value * 10 ^ 8 ≤ |p.size.value| * 10 ^ 8 :=
      Int.mul_le_mul_of_nonneg_right hle hscale
    have h := Int.tdiv_le_tdiv (c := |p.size.value|) (by omega) hle'
    rwa [Int.mul_tdiv_cancel_left _ (by omega)] at h
  unfold rawClosed
  refine ⟨Int.tdiv_nonneg (mul_nonneg hentry hratio) hscale, ?_⟩
  have hle' : p.entryNotional.value * (f.size.value * 10 ^ 8).tdiv |p.size.value| ≤
      p.entryNotional.value * 10 ^ 8 := Int.mul_le_mul_of_nonneg_left hratio' hentry
  have h := Int.tdiv_le_tdiv (c := 10 ^ 8) (by norm_num) hle'
  rwa [Int.mul_tdiv_cancel _ (by norm_num)] at h

/-- Fills at prices that are not negative leave no negative entry notional. -/
theorem applyFill_entry_nonneg (hp : p.WF) (hf : f.Valid) (hentry : 0 ≤ p.entryNotional.value)
    (h : p.applyFill f.size f.price f.isBuy = .ok p') : 0 ≤ p'.entryNotional.value := by
  obtain ⟨-, -, hcase⟩ := applyFill_cases hp hf h
  have hnotional : ∀ {size : Int}, 0 ≤ size → 0 ≤ rawNotional f size := fun hsize =>
    Int.tdiv_nonneg (mul_nonneg hsize hf.price) (by positivity)
  cases hcase with
  | increase _ _ hentry' =>
    rw [hentry']
    exact add_nonneg hentry (hnotional hf.size.le)
  | reduce _ hle _ hentry' =>
    rw [hentry']
    exact sub_nonneg.mpr (rawClosed_bounds hentry hf hle).2
  | flip _ hlt _ hentry' =>
    rw [hentry']
    exact hnotional (sub_nonneg.mpr hlt.le)

end Step

/-! ### Runs of fills -/

section Run

variable {p p' : Position} {fills : List PositionFill}

theorem applyFills_wf (hp : p.WF) (hvalid : ∀ f ∈ fills, f.Valid)
    (h : p.applyFills fills = .ok p') : p'.WF := by
  induction fills generalizing p with
  | nil =>
    obtain rfl := foldlM_nil_eq_ok.mp h
    exact hp
  | cons f fills ih =>
    obtain ⟨q, hq, h⟩ := foldlM_cons_eq_ok.mp h
    exact ih (applyFill_cases hp (hvalid f (.head _)) hq).1 (fun g hg => hvalid g (.tail _ hg)) h

/-- The size is the signed sum of the sizes of the fills. -/
theorem applyFills_size (hp : p.WF) (hvalid : ∀ f ∈ fills, f.Valid)
    (h : p.applyFills fills = .ok p') :
    p'.size.value = p.size.value + (fills.map PositionFill.side).sum := by
  induction fills generalizing p with
  | nil =>
    obtain rfl := foldlM_nil_eq_ok.mp h
    simp
  | cons f fills ih =>
    obtain ⟨q, hq, h⟩ := foldlM_cons_eq_ok.mp h
    obtain ⟨hwf, hsize, -⟩ := applyFill_cases hp (hvalid f (.head _)) hq
    rw [ih hwf (fun g hg => hvalid g (.tail _ hg)) h, hsize, List.map_cons, List.sum_cons]
    ring

theorem applyFills_entry_nonneg (hp : p.WF) (hvalid : ∀ f ∈ fills, f.Valid)
    (hentry : 0 ≤ p.entryNotional.value) (h : p.applyFills fills = .ok p') :
    0 ≤ p'.entryNotional.value := by
  induction fills generalizing p with
  | nil =>
    obtain rfl := foldlM_nil_eq_ok.mp h
    exact hentry
  | cons f fills ih =>
    obtain ⟨q, hq, h⟩ := foldlM_cons_eq_ok.mp h
    have hf := hvalid f (.head _)
    exact ih (applyFill_cases hp hf hq).1 (fun g hg => hvalid g (.tail _ hg))
      (applyFill_entry_nonneg hp hf hentry hq) h

/-- The cash of a run at price scale. -/
def rawCash (fills : List PositionFill) : ℚ :=
  (fills.map fun f => -((f.side : ℚ) * f.price.toRat)).sum

/-- **A run of fills** books its cash within a micro-USDC for each fill. -/
theorem applyFills_booked (hp : p.WF) (hvalid : ∀ f ∈ fills, f.Valid)
    (h : p.applyFills fills = .ok p') :
    (p'.longSlack - p.longSlack - 100 * fills.length : ℚ) ≤
        p'.booked - p.booked - rawCash fills ∧
      p'.booked - p.booked - rawCash fills ≤
        100 * fills.length - (p'.shortSlack - p.shortSlack : ℚ) := by
  induction fills generalizing p with
  | nil =>
    obtain rfl := foldlM_nil_eq_ok.mp h
    simp [rawCash]
  | cons f fills ih =>
    obtain ⟨q, hq, h⟩ := foldlM_cons_eq_ok.mp h
    have hf := hvalid f (.head _)
    obtain ⟨hlo, hhi⟩ := ih (applyFill_cases hp hf hq).1 (fun g hg => hvalid g (.tail _ hg)) h
    obtain ⟨⟨hlo', hhi'⟩, -⟩ := applyFill_booked hp hf hq
    have hcash : rawCash (f :: fills) = -(f.side * f.price.toRat) + rawCash fills := by
      unfold rawCash
      rw [List.map_cons, List.sum_cons]
    rw [hcash, List.length_cons]
    push_cast
    constructor <;> linarith

/-- From a new position the first fill opens, and ninety-eight raw units are left over. -/
theorem applyFills_new_booked (hvalid : ∀ f ∈ fills, f.Valid)
    (h : Position.new.applyFills fills = .ok p') :
    |(p'.booked : ℚ) - rawCash fills| ≤ 100 * fills.length - (if fills = [] then 0 else 98) := by
  cases fills with
  | nil =>
    obtain rfl := foldlM_nil_eq_ok.mp h
    simp [rawCash, booked, new]
  | cons f fills =>
    obtain ⟨q, hq, h⟩ := foldlM_cons_eq_ok.mp h
    have hf := hvalid f (.head _)
    have hwf := (applyFill_cases new_wf hf hq).1
    obtain ⟨hlo, hhi⟩ := applyFills_booked hwf (fun g hg => hvalid g (.tail _ hg)) h
    obtain ⟨-, hfirst⟩ := applyFill_booked new_wf hf hq
    obtain ⟨hlo', hhi'⟩ := hfirst rfl
    have hnew : new.booked = 0 := rfl
    have hcash : rawCash (f :: fills) = -(f.side * f.price.toRat) + rawCash fills := by
      unfold rawCash
      rw [List.map_cons, List.sum_cons]
    obtain ⟨hlong, -⟩ := longSlack_bounds p'
    obtain ⟨hshort, -⟩ := shortSlack_bounds p'
    rw [hcash, List.length_cons, if_neg (List.cons_ne_nil _ _), abs_le]
    rw [hnew] at hlo' hhi'
    push_cast at hlo' hhi' ⊢
    constructor <;> linarith

/-- Truncating a quotient moves it by less than one. -/
theorem tdiv_near (x : Int) {d : Int} (hd : 0 < d) : |(x.tdiv d : ℚ) - x / d| < 1 := by
  obtain ⟨r, hr, -, -, hlo, hhi⟩ := tdiv_spec (x := x) hd
  have hdq : (0 : ℚ) < d := by exact_mod_cast hd
  have hloq : (-d : ℚ) < r := by exact_mod_cast hlo
  have hhiq : (r : ℚ) < d := by exact_mod_cast hhi
  have hcast : (x : ℚ) = d * x.tdiv d + r := by exact_mod_cast hr
  have hquot : (x : ℚ) / d = x.tdiv d + r / d := by
    rw [div_eq_iff hdq.ne', add_mul, div_mul_cancel₀ _ hdq.ne']
    linarith
  have hlow : -1 < (r : ℚ) / d := by
    rw [lt_div_iff₀ hdq]
    linarith
  have hhigh : (r : ℚ) / d < 1 := by
    rw [div_lt_iff₀ hdq]
    linarith
  rw [hquot, abs_lt]
  constructor <;> linarith

/-- Unrealized PnL at a mark price, up to the truncation of the notional at that price. -/
theorem booked_unrealized {mark u : Decimal} (hp : p.WF) (h : p.unrealizedPnl mark = .ok u) :
    |(100 * p.realizedPnl.value + 10 ^ 8 * u.toRat) - (p.booked + p.size.value * mark.toRat)| ≤
      if p.size.value = 0 then 0 else 1 := by
  unfold booked
  by_cases hz : p.size.value = 0
  · unfold unrealizedPnl at h
    rw [if_pos (by simpa using hz)] at h
    obtain rfl := pure_inv h
    rw [if_pos hz, hz]
    simp [Decimal.toRat]
  · obtain rfl := unrealizedPnl_eq hp hz h
    have hnear := tdiv_near (|p.size.value| * mark.value) (d := 10 ^ mark.decimals) (by positivity)
    have hmark : (p.size.value : ℚ) * mark.toRat =
        p.size.value.sign * ((|p.size.value| * mark.value : Int) / (10 ^ mark.decimals : Int)) := by
      have habs : (p.size.value : ℚ) = p.size.value.sign * |p.size.value| := by
        exact_mod_cast (Int.sign_mul_abs p.size.value).symm
      unfold Decimal.toRat
      push_cast at habs ⊢
      nth_rewrite 1 [habs]
      ring
    rw [if_neg hz, hmark]
    unfold Decimal.toRat rawPnl
    rw [if_neg hz]
    generalize ((|p.size.value| * mark.value : Int) / (10 ^ mark.decimals : Int) : ℚ) = x at hnear ⊢
    generalize (|p.size.value| * mark.value).tdiv (10 ^ mark.decimals) = n at hnear ⊢
    rw [abs_lt] at hnear
    rw [abs_le]
    rcases Int.lt_or_gt_of_ne hz with hs | hs
    · rw [Int.sign_eq_neg_one_of_neg hs, if_neg (by omega)]
      push_cast
      constructor <;> linarith
    · rw [Int.sign_eq_one_of_pos hs, if_pos hs]
      push_cast
      constructor <;> linarith

theorem toRat_of_scale {d : Decimal} (h : d.decimals = 8) : d.toRat = d.value / 10 ^ 8 := by
  unfold Decimal.toRat
  rw [h]

theorem signedSize_eq {f : PositionFill} (hf : f.Valid) : f.signedSize = f.side / 10 ^ 8 := by
  unfold PositionFill.signedSize PositionFill.side
  rw [toRat_of_scale hf.scale]
  split
  · rfl
  · push_cast
    ring

theorem cashFlow_eq (hvalid : ∀ f ∈ fills, f.Valid) : 10 ^ 8 * cashFlow fills = rawCash fills := by
  unfold cashFlow rawCash
  rw [← List.sum_map_mul_left]
  refine congrArg List.sum (List.map_congr_left fun f hf => ?_)
  unfold PositionFill.cash
  rw [signedSize_eq (hvalid f hf)]
  ring

/-- **Position accounting.** Over any fills of a new position, the size is their signed sum,
the entry notional is not negative and is zero for a flat position, and at every mark price
realized and unrealized PnL are the cash flow and the value of the size, within a micro-USDC
for each fill. -/
theorem applyFills_accounting (hvalid : ∀ f ∈ fills, f.Valid)
    (h : Position.new.applyFills fills = .ok p) :
    p.size.toRat = (fills.map PositionFill.signedSize).sum ∧
      0 ≤ p.entryNotional.toRat ∧ (p.isEmpty = true → p.entryNotional.toRat = 0) ∧
      ∀ mark u, p.unrealizedPnl mark = .ok u →
        |p.realizedPnl.toRat + u.toRat - (cashFlow fills + p.size.toRat * mark.toRat)| ≤
          fills.length / 10 ^ 6 := by
  have hwf := applyFills_wf new_wf hvalid h
  have hentry := applyFills_entry_nonneg new_wf hvalid le_rfl h
  refine ⟨?_, ?_, fun hflat => ?_, fun mark u hu => ?_⟩
  · have hsize := applyFills_size new_wf hvalid h
    have hsum : (fills.map PositionFill.signedSize).sum =
        ((fills.map PositionFill.side).sum : Int) / 10 ^ 8 := by
      rw [eq_div_iff (by positivity), ← List.sum_map_mul_right, Int.cast_list_sum, List.map_map]
      refine congrArg List.sum (List.map_congr_left fun f hf => ?_)
      rw [signedSize_eq (hvalid f hf), div_mul_cancel₀ _ (by positivity)]
      rfl
    rw [toRat_of_scale hwf.size, hsize, hsum]
    simp [new]
  · rw [toRat_of_scale hwf.entry]
    exact div_nonneg (by exact_mod_cast hentry) (by positivity)
  · rw [toRat_of_scale hwf.entry, hwf.flat (Decimal.isZero_iff.mp hflat)]
    simp
  · have hbooked := applyFills_new_booked hvalid h
    have hmarked := booked_unrealized hwf hu
    have hcash := cashFlow_eq hvalid
    have hrealized : (100 * p.realizedPnl.value : ℚ) = 10 ^ 8 * p.realizedPnl.toRat := by
      unfold Decimal.toRat
      rw [hwf.realized]
      ring
    have hsize : (p.size.value : ℚ) = 10 ^ 8 * p.size.toRat := by
      rw [toRat_of_scale hwf.size]
      ring
    -- the truncation at the mark price is covered by what the first fill leaves over
    have hcover : (if p.size.value = 0 then 0 else 1 : ℚ) ≤ if fills = [] then 0 else 98 := by
      split <;> split <;> rename_i hz hnil
      · norm_num
      · norm_num
      · subst hnil
        obtain rfl := foldlM_nil_eq_ok.mp h
        exact absurd rfl hz
      · norm_num
    rw [hrealized, hsize] at hmarked
    rw [← hcash] at hbooked
    rw [abs_le] at hbooked hmarked ⊢
    rw [← neg_div, div_le_iff₀ (by positivity), le_div_iff₀ (by positivity)]
    constructor <;> linarith

/-- One bought at 100 and three sold at 110, marked at 105. -/
theorem applyFills_accounting_flip : ∃ p u, Position.new.applyFills
      [⟨⟨100000000, 8⟩, ⟨10000000000, 8⟩, true⟩,
        ⟨⟨300000000, 8⟩, ⟨11000000000, 8⟩, false⟩] = .ok p ∧
    p.unrealizedPnl ⟨10500000000, 8⟩ = .ok u ∧
    |p.realizedPnl.toRat + u.toRat - (cashFlow [⟨⟨100000000, 8⟩, ⟨10000000000, 8⟩, true⟩,
      ⟨⟨300000000, 8⟩, ⟨11000000000, 8⟩, false⟩] +
        p.size.toRat * (⟨10500000000, 8⟩ : Decimal).toRat)| ≤
        (2 : Nat) / 10 ^ 6 := by
  have hrun : Position.new.applyFills [⟨⟨100000000, 8⟩, ⟨10000000000, 8⟩, true⟩,
      ⟨⟨300000000, 8⟩, ⟨11000000000, 8⟩, false⟩] =
        .ok ⟨⟨-200000000, 8⟩, ⟨22000000000, 8⟩, ⟨10000000, 6⟩, ⟨0, 10⟩⟩ := by decide +kernel
  have hmark : (⟨⟨-200000000, 8⟩, ⟨22000000000, 8⟩, ⟨10000000, 6⟩, ⟨0, 10⟩⟩ :
      Position).unrealizedPnl ⟨10500000000, 8⟩ = .ok ⟨1000000000, 8⟩ := by decide +kernel
  exact ⟨_, _, hrun, hmark, (applyFills_accounting (by decide) hrun).2.2.2 _ _ hmark⟩

end Run

end Position

end Hypercore
