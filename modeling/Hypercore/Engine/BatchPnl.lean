import Hypercore.Engine.Screening
import Hypercore.Primitives.FillRun
import Mathlib.Tactic.LinearCombination
/-!
# Hypercore.Engine.BatchPnl

Unrealized PnL of many positions at once, against the precise one.

The batch multiplies the size by the distance of the mark price from the average entry price,
which is truncated to a raw unit, so what it says of a position is off by one raw unit for each
whole unit of size (`batchTerm_near`). It sums at price scale and converts the sum to USDC; the
precise computation converts each term and sums what is left.
-/

namespace Hypercore

open Exec Int128

namespace RiskEngine

open Engine Position

/-! ### The batch -/

/-- `batch_ops::batch_unrealized_pnl`: the product wraps, the difference does not. -/
def batchUnrealizedPnl (entryPrices markPrices sizes : List Int) (priceScale : Int) :
    Exec (List Int) :=
  ((entryPrices.zip markPrices).zip sizes).mapM fun x => do
    let priceDiff ← i128 (x.1.2 - x.1.1)
    return (wrappingMul priceDiff x.2).tdiv priceScale

/-- Entry price, mark price and size of a position, raw at price scale. An empty position has
its market's mark price for an entry price. -/
def batchRow (x : Position × Market) : Exec (Int × Int × Int) := do
  let entry ← ((← x.1.entryPrice).getD x.2.state.markPrice).toDecimals 8
  let mark ← x.2.state.markPrice.toDecimals 8
  let size ← x.1.size.toDecimals 8
  return (entry.value, mark.value, size.value)

/-- Batch compute the unrealized PnL of all positions. -/
def batchUnrealizedPnlTotal (positions : List (Position × Market)) : Exec Decimal :=
  if positions = [] then return ⟨0, 6⟩
  else do
    let priceScale ← Decimal.pow10 8
    let rows ← positions.mapM batchRow
    let pnlOut ← batchUnrealizedPnl (rows.map (·.1)) (rows.map (·.2.1)) (rows.map (·.2.2))
      priceScale
    let total ← pnlOut.foldlM (fun total pnl => i128 (total + pnl)) 0
    (⟨total, 8⟩ : Decimal).toDecimals 6

/-! ### One position -/

/-- The entry price of a position in the batch, raw. -/
def batchEntry (p : Position) (mark : Int) : Int :=
  if p.size.value = 0 then mark else (p.entryNotional.value * 10 ^ 8).tdiv |p.size.value|

/-- What the batch says of a position, raw at price scale. -/
def batchTerm (x : Position × Market) : Int :=
  let mark := x.2.state.markPrice.value
  ((mark - batchEntry x.1 mark) * x.1.size.value).tdiv (10 ^ 8)

/-- The product that the batch takes for a position is within `i128`. -/
def ProductFits (x : Position × Market) : Prop :=
  let mark := x.2.state.markPrice.value
  InRange ((mark - batchEntry x.1 mark) * x.1.size.value)

instance : DecidablePred ProductFits := fun _ => inferInstanceAs (Decidable (InRange _))

section One

variable {p : Position} {x : Position × Market}

theorem wrappingMul_eq {a b : Int} (h : InRange (a * b)) : wrappingMul a b = a * b :=
  ofU128_toU128 h

/-- Three remainders of which one is below `s` and two are below `c`. -/
theorem near_of_remainders {c d s u v w : Int} (hc : 0 < c) (hd : c * d = u + v + w)
    (hu : |u| < s) (hv : |v| < c) (hw : |w| < c) : |d| ≤ 2 + s / c := by
  have hbound : |c * d| < s + 2 * c := by
    rw [hd]
    calc |u + v + w| ≤ |u + v| + |w| := abs_add_le _ _
      _ ≤ |u| + |v| + |w| := by gcongr; exact abs_add_le _ _
      _ < s + 2 * c := by omega
  rw [abs_mul, abs_of_pos hc] at hbound
  by_contra hlt
  have hstep : c * (3 + s / c) ≤ c * |d| := by
    have : 3 + s / c ≤ |d| := by omega
    gcongr
  have hfloor := Int.lt_mul_ediv_self_add (x := s) hc
  rw [mul_add] at hstep
  omega

/-- **One position.** The batch is off by two raw units and one for each whole unit of size. -/
theorem batchTerm_near (hmark : x.2.state.markPrice.decimals = 8) :
    |batchTerm x - x.1.rawPnl x.2.state.markPrice| ≤ 2 + |x.1.size.value| / 10 ^ 8 := by
  obtain ⟨p, market⟩ := x
  have hc : (0 : Int) < 10 ^ 8 := by norm_num
  unfold batchTerm rawPnl
  dsimp only at hmark ⊢
  rw [hmark]
  rcases lt_trichotomy p.size.value 0 with hs | hs | hs
  · rw [if_neg hs.ne, if_neg hs.not_gt]
    unfold batchEntry
    rw [if_neg hs.ne]
    have habs : |p.size.value| = -p.size.value := abs_of_neg hs
    obtain ⟨ε, hε, -, -, hεlo, hεhi⟩ :=
      tdiv_spec (x := p.entryNotional.value * 10 ^ 8) (abs_pos.mpr hs.ne)
    set entry := (p.entryNotional.value * 10 ^ 8).tdiv |p.size.value|
    obtain ⟨ν, hν, -, -, hνlo, hνhi⟩ :=
      tdiv_spec (x := |p.size.value| * market.state.markPrice.value) hc
    obtain ⟨τ, hτ, -, -, hτlo, hτhi⟩ :=
      tdiv_spec (x := (market.state.markPrice.value - entry) * p.size.value) hc
    refine near_of_remainders (u := -ε) (v := -τ) (w := -ν) hc ?_ ?_ ?_ ?_
    · rw [habs] at hε hν
      rw [habs]
      linear_combination -hε - hν - hτ
    · rw [abs_neg, abs_lt]
      exact ⟨hεlo, hεhi⟩
    · rw [abs_neg, abs_lt]
      exact ⟨hτlo, hτhi⟩
    · rw [abs_neg, abs_lt]
      exact ⟨hνlo, hνhi⟩
  · rw [if_pos hs, hs]
    simp
  · rw [if_neg hs.ne', if_pos hs]
    unfold batchEntry
    rw [if_neg hs.ne']
    have habs : |p.size.value| = p.size.value := abs_of_pos hs
    obtain ⟨ε, hε, -, -, hεlo, hεhi⟩ :=
      tdiv_spec (x := p.entryNotional.value * 10 ^ 8) (abs_pos.mpr hs.ne')
    set entry := (p.entryNotional.value * 10 ^ 8).tdiv |p.size.value|
    obtain ⟨ν, hν, -, -, hνlo, hνhi⟩ :=
      tdiv_spec (x := |p.size.value| * market.state.markPrice.value) hc
    obtain ⟨τ, hτ, -, -, hτlo, hτhi⟩ :=
      tdiv_spec (x := (market.state.markPrice.value - entry) * p.size.value) hc
    refine near_of_remainders (u := ε) (v := -τ) (w := ν) hc ?_ ?_ ?_ ?_
    · rw [habs] at hε hν
      rw [habs]
      linear_combination hε + hν - hτ
    · rw [abs_lt]
      exact ⟨hεlo, hεhi⟩
    · rw [abs_neg, abs_lt]
      exact ⟨hτlo, hτhi⟩
    · rw [abs_lt]
      exact ⟨hνlo, hνhi⟩

/-- The row of a well-formed position. -/
theorem batchRow_eq {row : Int × Int × Int} (hp : x.1.WF)
    (hmark : x.2.state.markPrice.decimals = 8) (h : batchRow x = .ok row) :
    row = (batchEntry x.1 x.2.state.markPrice.value, x.2.state.markPrice.value,
      x.1.size.value) := by
  obtain ⟨price, hprice, h⟩ := bind_inv h
  obtain ⟨entry, hentry, h⟩ := bind_inv h
  obtain ⟨mark, hmark', h⟩ := bind_inv h
  obtain ⟨size, hsize, h⟩ := bind_inv h
  obtain rfl := pure_inv h
  have hkept : ∀ {d d' : Decimal}, d.decimals = 8 → d.toDecimals 8 = .ok d' → d' = d := by
    intro d d' h8 hd
    rw [← h8, Decimal.toDecimals_self] at hd
    exact (Except.ok.inj hd).symm
  rw [hkept hmark hmark', hkept hp.size hsize]
  unfold batchEntry
  by_cases hz : x.1.size.value = 0
  · rw [if_pos hz]
    unfold entryPrice at hprice
    rw [if_pos (Decimal.isZero_iff.mpr hz)] at hprice
    obtain rfl := pure_inv hprice
    rw [hkept hmark hentry]
  · rw [if_neg hz]
    obtain rfl := entryPrice_eq hp hz hprice
    rw [hkept rfl hentry]
    rfl

end One

/-! ### All positions -/

section All

variable {positions : List (Position × Market)} {rows : List (Int × Int × Int)}

/-- The two sides of a fill-reachable position with a market at price scale. -/
structure Priced (x : Position × Market) : Prop where
  wf : x.1.WF
  mark : x.2.state.markPrice.decimals = 8

theorem batchRows_eq (hpriced : ∀ x ∈ positions, Priced x)
    (h : positions.mapM batchRow = .ok rows) : rows = positions.map fun x =>
      (batchEntry x.1 x.2.state.markPrice.value, x.2.state.markPrice.value, x.1.size.value) := by
  induction positions generalizing rows with
  | nil =>
    obtain rfl := pure_inv h
    rfl
  | cons x positions ih =>
    obtain ⟨row, hrow, rest, hrest, rfl⟩ := mapM_cons_eq_ok.mp h
    rw [batchRow_eq (hpriced x (.head _)).wf (hpriced x (.head _)).mark hrow,
      ih (fun y hy => hpriced y (.tail _ hy)) hrest]
    rfl

/-- What the batch says of each position, as long as no product wraps. -/
theorem batchUnrealizedPnl_eq {out : List Int} (hfits : ∀ x ∈ positions, ProductFits x)
    (h : batchUnrealizedPnl
      (positions.map fun x => batchEntry x.1 x.2.state.markPrice.value)
      (positions.map fun x => x.2.state.markPrice.value)
      (positions.map fun x => x.1.size.value) (10 ^ 8) = .ok out) :
    out = positions.map batchTerm := by
  unfold batchUnrealizedPnl at h
  induction positions generalizing out with
  | nil =>
    obtain rfl := pure_inv h
    rfl
  | cons x positions ih =>
    simp only [List.map_cons, List.zip_cons_cons] at h
    obtain ⟨y, hy, rest, hrest, rfl⟩ := mapM_cons_eq_ok.mp h
    obtain ⟨diff, hdiff, hy⟩ := bind_inv hy
    obtain ⟨-, rfl⟩ := i128_eq_ok.mp hdiff
    obtain rfl := pure_inv hy
    rw [ih (fun y hy => hfits y (.tail _ hy)) hrest, List.map_cons,
      wrappingMul_eq (hfits x (.head _))]
    rfl

theorem sum_i128 {l : List Int} {acc total : Int}
    (h : l.foldlM (fun total pnl => i128 (total + pnl)) acc = .ok total) :
    total = acc + l.sum := by
  induction l generalizing acc with
  | nil =>
    obtain rfl := foldlM_nil_eq_ok.mp h
    simp
  | cons x l ih =>
    obtain ⟨u, hu, h⟩ := foldlM_cons_eq_ok.mp h
    obtain ⟨-, rfl⟩ := i128_eq_ok.mp hu
    rw [ih h, List.sum_cons, add_assoc]

/-- The batch, as a number. -/
theorem batchUnrealizedPnlTotal_eq {b : Decimal} (hpriced : ∀ x ∈ positions, Priced x)
    (hfits : ∀ x ∈ positions, ProductFits x) (h : batchUnrealizedPnlTotal positions = .ok b) :
    b = ⟨toUsdc (positions.map batchTerm).sum, 6⟩ := by
  unfold batchUnrealizedPnlTotal at h
  split at h
  · rename_i hnil
    obtain rfl := pure_inv h
    rw [hnil]
    rfl
  · obtain ⟨scale, hscale, h⟩ := bind_inv h
    obtain ⟨rows, hrows, h⟩ := bind_inv h
    obtain ⟨out, hout, h⟩ := bind_inv h
    obtain ⟨total, htotal, hb⟩ := bind_inv h
    obtain ⟨-, rfl⟩ := Decimal.pow10_eq_ok.mp hscale
    rw [batchRows_eq hpriced hrows] at hout
    simp only [List.map_map] at hout
    rw [batchUnrealizedPnl_eq hfits hout] at htotal
    obtain ⟨-, rfl⟩ := (Decimal.toDecimals_down (show 6 < 8 by decide)).mp hb
    rw [sum_i128 htotal, Int.zero_add]
    rfl

/-- The precise sum, as a number. -/
theorem sumUnrealized_eq {t : Decimal} (hpriced : ∀ x ∈ positions, Priced x)
    (h : sumUsdc unrealized positions = .ok t) :
    t = ⟨(positions.map fun x => toUsdc (x.1.rawPnl x.2.state.markPrice)).sum, 6⟩ :=
  sumUsdc_value (fun x hx _ _ hv hu => unrealizedPnl_usdc (hpriced x hx).wf hv hu) h

theorem toUsdc_remainder (v : Int) : |v - 100 * toUsdc v| ≤ 99 := by
  obtain ⟨r, hr, -, -, hlo, hhi⟩ := tdiv_spec (x := v) (show (0 : Int) < 100 by norm_num)
  unfold toUsdc
  rw [abs_le]
  omega

/-- The sum of the batch against the converted terms, raw at price scale. -/
theorem batchTerms_near (hpriced : ∀ x ∈ positions, Priced x) :
    |(positions.map batchTerm).sum -
      100 * (positions.map fun x => toUsdc (x.1.rawPnl x.2.state.markPrice)).sum| ≤
        (positions.map fun x => 101 + |x.1.size.value| / 10 ^ 8).sum := by
  induction positions with
  | nil => simp
  | cons x positions ih =>
    have hrest := ih fun y hy => hpriced y (.tail _ hy)
    have hone := batchTerm_near (hpriced x (.head _)).mark
    have hconvert := toUsdc_remainder (x.1.rawPnl x.2.state.markPrice)
    simp only [List.map_cons, List.sum_cons]
    rw [abs_le] at hrest hone hconvert ⊢
    constructor <;> omega

/-- Two micro-USDC for each position pay for what its conversion and the last one cut off. -/
theorem sum_allowance (positions : List (Position × Market)) :
    (positions.map fun x => (200 + |x.1.size.value| / 10 ^ 8 : Int)).sum =
      (positions.map fun x => 101 + |x.1.size.value| / 10 ^ 8).sum + 99 * positions.length := by
  induction positions with
  | nil => rfl
  | cons x positions ih =>
    simp only [List.map_cons, List.sum_cons, List.length_cons, ih]
    push_cast
    omega

end All

/-- **Batch PnL.** For positions reached by fills, the batch differs from the sum of the precise
PnL, each converted to USDC, by at most two micro-USDC for each position and `10 ^ -8` USDC for
each whole unit of its size. Both sides of the bound are counted in `10 ^ -8` USDC. -/
theorem batch_pnl_near {positions : List (Position × Market)} {b t : Decimal}
    (hfills : ∀ x ∈ positions, ∃ fills : List PositionFill, (∀ f ∈ fills, f.Valid) ∧
      Position.new.applyFills fills = .ok x.1)
    (hmarks : ∀ x ∈ positions, x.2.state.markPrice.decimals = 8 ∧ 0 < x.2.state.markPrice.value)
    (hfits : ∀ x ∈ positions, ProductFits x)
    (hb : batchUnrealizedPnlTotal positions = .ok b)
    (ht : sumUsdc unrealized positions = .ok t) :
    b.decimals = 6 ∧ t.decimals = 6 ∧ 100 * |b.value - t.value| ≤
      (positions.map fun x => 200 + |x.1.size.value| / 10 ^ 8).sum := by
  have hpriced : ∀ x ∈ positions, Priced x := by
    intro x hx
    obtain ⟨fills, hvalid, happly⟩ := hfills x hx
    exact ⟨applyFills_wf new_wf hvalid happly, (hmarks x hx).1⟩
  obtain rfl := batchUnrealizedPnlTotal_eq hpriced hfits hb
  obtain rfl := sumUnrealized_eq hpriced ht
  refine ⟨rfl, rfl, ?_⟩
  have hsum := batchTerms_near hpriced
  have hconvert := toUsdc_remainder (positions.map batchTerm).sum
  have hallowed := sum_allowance positions
  rcases List.eq_nil_or_concat positions with rfl | ⟨_, _, hlast⟩
  · simp [toUsdc]
  · have hlength : 1 ≤ positions.length := by simp [hlast]
    rw [abs_le] at hsum hconvert
    have habs : ∀ v w : Int, 100 * |v| ≤ w ↔ -w ≤ 100 * v ∧ 100 * v ≤ w := by
      intro v w
      rcases abs_cases v with ⟨h, h0⟩ | ⟨h, h0⟩ <;> omega
    rw [habs, hallowed]
    dsimp only
    omega

/-- The BTC market at a mark price of five raw units. -/
def cheapMarket : Market := .new .btcPerp ⟨5, 8⟩ 0

/-- Fills of 100000 and 200000 units at three and four raw units. -/
def cheapFills : List PositionFill :=
  [⟨⟨10000000000000, 8⟩, ⟨3, 8⟩, true⟩, ⟨⟨20000000000000, 8⟩, ⟨4, 8⟩, true⟩]

/-- The position of these fills, what the batch says of it, and its precise PnL. -/
def cheapPosition : Exec (Position × Decimal × Decimal) := do
  let p ← Position.new.applyFills cheapFills
  let b ← batchUnrealizedPnlTotal [(p, cheapMarket)]
  let t ← sumUsdc unrealized [(p, cheapMarket)]
  return (p, b, t)

/-- The average entry price of three and two thirds counts as three, so that the batch says 6000
micro-USDC of a position that has made 4000. -/
theorem batch_pnl_near_cheap : ∃ (p : Position) (b t : Decimal),
    batchUnrealizedPnlTotal [(p, cheapMarket)] = .ok b ∧
    sumUsdc unrealized [(p, cheapMarket)] = .ok t ∧ b.value = 6000 ∧ t.value = 4000 ∧
    100 * |b.value - t.value| ≤
      ([(p, cheapMarket)].map fun x => 200 + |x.1.size.value| / 10 ^ 8).sum := by
  obtain ⟨⟨p, b, t⟩, hrun, htest⟩ := exists_of_test (x := cheapPosition)
    (p := fun x => decide (ProductFits (x.1, cheapMarket) ∧ x.2.1.value = 6000 ∧
      x.2.2.value = 4000)) (by decide +kernel)
  obtain ⟨hfits, hbv, htv⟩ := of_decide_eq_true htest
  obtain ⟨q, hq, hrun⟩ := bind_inv hrun
  obtain ⟨b', hb, hrun⟩ := bind_inv hrun
  obtain ⟨t', ht, hrun⟩ := bind_inv hrun
  obtain ⟨rfl, hvalues⟩ := pair_inv hrun
  obtain ⟨rfl, rfl⟩ := Prod.mk.inj hvalues
  have hfills : ∀ x ∈ [(q, cheapMarket)], ∃ fills : List PositionFill, (∀ f ∈ fills, f.Valid) ∧
      Position.new.applyFills fills = .ok x.1 :=
    List.forall_mem_singleton.mpr ⟨cheapFills, by decide, hq⟩
  have hmarks : ∀ x ∈ [(q, cheapMarket)],
      x.2.state.markPrice.decimals = 8 ∧ 0 < x.2.state.markPrice.value :=
    List.forall_mem_singleton.mpr ⟨rfl, show (0 : Int) < 5 by decide⟩
  have hnear := batch_pnl_near hfills hmarks (List.forall_mem_singleton.mpr hfits) hb ht
  exact ⟨q, b', t', hb, ht, hbv, htv, hnear.2.2⟩

end RiskEngine

end Hypercore
