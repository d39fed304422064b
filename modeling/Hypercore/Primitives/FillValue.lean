import Hypercore.Primitives.Position
/-!
# Hypercore.Primitives.FillValue

What a fill does to the value of a position.

**Accounting identity.** Valued at the fill price, a position changes by minus the
PnL that the fill realizes, up to one raw unit for the two truncated products
(`applyFill_rawPnl`). An increasing fill realizes nothing, a reducing fill the PnL
of the part it closes, a flipping fill the PnL of the whole position. The raw
quantities are at price scale; `toUsdc_near` bounds what their conversion to
micro-USDC adds.
-/

namespace Hypercore

open Exec Int128

namespace Position

/-! ### Well-formed positions -/

/-- The scales every position keeps, and no entry notional without a size. -/
structure WF (p : Position) : Prop where
  size : p.size.decimals = 8
  entry : p.entryNotional.decimals = 8
  realized : p.realizedPnl.decimals = 6
  flat : p.size.value = 0 → p.entryNotional.value = 0

theorem new_wf : new.WF := ⟨rfl, rfl, rfl, fun _ => rfl⟩

variable {p p' : Position} {v price f : Decimal} {isBuy : Bool}

theorem addRealized_decimals {pnl r : Decimal} (h : p.addRealized pnl = .ok r) :
    r.decimals = p.realizedPnl.decimals := by
  obtain ⟨q, -, h⟩ := bind_inv h
  rw [(Decimal.add_eq_ok.mp h).2]

theorem settleFunding_wf {acc payment : Decimal} (hp : p.WF)
    (h : p.settleFunding acc = .ok (payment, p')) : p'.WF := by
  obtain ⟨_, -, h⟩ := bind_inv h
  obtain ⟨_, -, h⟩ := bind_inv h
  obtain ⟨_, -, h⟩ := bind_inv h
  obtain ⟨-, rfl⟩ := pair_inv h
  exact ⟨hp.size, hp.entry, hp.realized, hp.flat⟩

/-! ### Raw values -/

/-- Raw unrealized PnL at a price, at price scale. -/
def rawPnl (p : Position) (price : Decimal) : Int :=
  let notional := (|p.size.value| * price.value).tdiv (10 ^ price.decimals)
  if p.size.value = 0 then 0
  else if 0 < p.size.value then notional - p.entryNotional.value
  else p.entryNotional.value - notional

/-- Raw entry notional of the part of a position that a fill closes. -/
def rawClosed (p : Position) (f : Decimal) : Int :=
  (p.entryNotional.value * (f.value * 10 ^ 8).tdiv |p.size.value|).tdiv (10 ^ 8)

/-- Raw PnL that a fill realizes, at price scale. -/
def rawFillPnl (p : Position) (f price : Decimal) (isBuy : Bool) : Int :=
  let side := if isBuy then f.value else -f.value
  let fillNotional := (f.value * price.value).tdiv (10 ^ price.decimals)
  if p.size.value = 0 then 0
  else if p.keepsSide ⟨p.size.value + side, 8⟩ then
    if p.size.value.sign = side.sign then 0
    else if 0 < p.size.value then fillNotional - p.rawClosed f
    else p.rawClosed f - fillNotional
  else p.rawPnl price

/-- Price scale to micro-USDC. -/
def toUsdc (raw : Int) : Int := raw.tdiv 100

/-- Converting two values that differ by `q` up to one raw unit. -/
theorem toUsdc_near {u u' q : Int} (h : |u' - u + q| ≤ 1) :
    |toUsdc u' - toUsdc u + toUsdc q| ≤ 1 := by
  unfold toUsdc
  have hpos : (0 : Int) < 100 := by norm_num
  obtain ⟨r, hr, hr0, hr1, hrlo, hrhi⟩ := tdiv_spec (x := u) hpos
  obtain ⟨s, hs, hs0, hs1, hslo, hshi⟩ := tdiv_spec (x := u') hpos
  obtain ⟨t, ht, ht0, ht1, htlo, hthi⟩ := tdiv_spec (x := q) hpos
  rw [abs_le] at h ⊢
  omega

/-- From price scale to USDC scale. -/
theorem toDecimals_usdc {u : Decimal} (hv : v.decimals = 8) (h : v.toDecimals 6 = .ok u) :
    u.value = toUsdc v.value := by
  rw [(Decimal.toDecimals_down (by omega)).mp h |>.2, hv]
  rfl

theorem unrealizedPnl_eq (hp : p.WF) (hz : p.size.value ≠ 0) (h : p.unrealizedPnl price = .ok v) :
    v = ⟨p.rawPnl price, 8⟩ := by
  unfold unrealizedPnl at h
  rw [if_neg (by simpa using hz)] at h
  obtain ⟨a, ha, h⟩ := bind_inv h
  obtain ⟨n, hn, h⟩ := bind_inv h
  have ha' := (Decimal.abs_eq_ok.mp ha).2
  have hn' := (Decimal.mul_eq_ok.mp hn).2.2
  rw [ha', hp.size] at hn'
  unfold rawPnl
  rw [if_neg hz]
  split at h
  · rename_i hlong
    rw [isLong, Decimal.isPositive_iff] at hlong
    rw [if_pos hlong, (Decimal.sub_eq_ok.mp h).2, hn']
  · rename_i hlong
    rw [isLong, Decimal.isPositive_iff] at hlong
    rw [if_neg hlong, (Decimal.sub_eq_ok.mp h).2, hn', hp.entry]

/-- Unrealized PnL in micro-USDC. -/
theorem unrealizedPnl_usdc {u : Decimal} (hp : p.WF) (hv : p.unrealizedPnl price = .ok v)
    (hu : v.toDecimals 6 = .ok u) :
    u.value = toUsdc (p.rawPnl price) := by
  by_cases hz : p.size.value = 0
  · unfold unrealizedPnl at hv
    rw [if_pos (by simpa using hz)] at hv
    obtain rfl := pure_inv hv
    cases hu
    unfold rawPnl
    rw [if_pos hz]
    rfl
  · obtain rfl := unrealizedPnl_eq hp hz hv
    exact toDecimals_usdc rfl hu

/-- Entry notional and PnL of the part a fill closes. -/
theorem closedPart_eq {n c pnl : Decimal} (hp : p.WF) (hf : f.decimals = 8) (hn : n.decimals = 8)
    (h : p.closedPart f n = .ok (c, pnl)) :
    c = ⟨p.rawClosed f, 8⟩ ∧ pnl = ⟨if 0 < p.size.value then n.value - p.rawClosed f
      else p.rawClosed f - n.value, 8⟩ := by
  obtain ⟨a, ha, h⟩ := bind_inv h
  obtain ⟨r, hr, h⟩ := bind_inv h
  obtain ⟨c', hc, h⟩ := bind_inv h
  obtain ⟨q, hq, h⟩ := bind_inv h
  obtain ⟨rfl, rfl⟩ := pair_inv h
  have ha' := (Decimal.abs_eq_ok.mp ha).2
  have hr' := (Decimal.div_eq_ok.mp hr).2.2.2.2
  have hc' := (Decimal.mul_eq_ok.mp hc).2.2
  rw [ha', hp.size] at hr'
  rw [hr', hf, hp.entry] at hc'
  have hcv : c' = ⟨p.rawClosed f, 8⟩ := hc'
  refine ⟨hcv, ?_⟩
  split at hq
  · rename_i hlong
    rw [isLong, Decimal.isPositive_iff] at hlong
    rw [if_pos hlong, (Decimal.sub_eq_ok.mp hq).2, hcv, hn]
  · rename_i hlong
    rw [isLong, Decimal.isPositive_iff] at hlong
    rw [if_neg hlong, (Decimal.sub_eq_ok.mp hq).2, hcv]

/-- Whether a position keeps its side only depends on the raw sizes. -/
theorem keepsSide_iff {d : Decimal} : p.keepsSide d = true ↔
    (0 < p.size.value ∧ 0 < d.value) ∨ (p.size.value < 0 ∧ d.value < 0) ∨ d.value = 0 := by
  unfold keepsSide
  simp only [Bool.or_eq_true, Bool.and_eq_true, Decimal.isPositive_iff, Decimal.isNegative_iff,
    Decimal.isZero_iff]
  tauto

/-- The PnL a fill would realize, in micro-USDC. -/
theorem calculateFillPnl_usdc (hp : p.WF) (hf : f.decimals = 8)
    (h : p.calculateFillPnl f price isBuy = .ok v) :
    v.value = toUsdc (p.rawFillPnl f price isBuy) := by
  unfold calculateFillPnl at h
  unfold rawFillPnl
  dsimp only
  by_cases hz : p.size.value = 0
  · rw [if_pos (by simpa using hz)] at h
    rw [if_pos hz, ← pure_inv h]
    rfl
  · rw [if_neg (by simpa using hz)] at h
    rw [if_neg hz]
    obtain ⟨side, hside, h⟩ := bind_inv h
    obtain ⟨size, hsize, h⟩ := bind_inv h
    obtain ⟨n, hn, h⟩ := bind_inv h
    obtain rfl := fillSideSize_eq_ok hside
    have hsize' := (Decimal.add_eq_ok.mp hsize).2
    rw [hp.size] at hsize'
    have hn' := (Decimal.mul_eq_ok.mp hn).2.2
    rw [hf] at hn'
    generalize (if isBuy then f.value else -f.value) = x at hsize' h ⊢
    rw [← hsize']
    split at h
    · rename_i hkeep
      rw [if_pos hkeep]
      split at h
      · rename_i hsign
        rw [if_pos hsign, ← pure_inv h]
        rfl
      · rename_i hsign
        rw [if_neg hsign]
        obtain ⟨⟨c, pnl⟩, hc, h⟩ := bind_inv h
        obtain ⟨-, rfl⟩ := closedPart_eq hp hf (by rw [hn']) hc
        rw [toDecimals_usdc rfl h, hn']
    · rename_i hkeep
      rw [if_neg hkeep]
      obtain ⟨u, hu, h⟩ := bind_inv h
      exact unrealizedPnl_usdc hp hu h

/-! ### The position after a fill -/

/-- Raw entry notional after a fill, of a position that does not end flat. -/
def rawEntry (p : Position) (f price : Decimal) (isBuy : Bool) : Int :=
  let side := if isBuy then f.value else -f.value
  let notional (size : Int) := (size * price.value).tdiv (10 ^ price.decimals)
  if p.keepsSide ⟨p.size.value + side, 8⟩ ∨ p.size.value = 0 then
    if p.size.value = 0 ∨ p.size.value.sign = side.sign then
      p.entryNotional.value + notional f.value
    else p.entryNotional.value - p.rawClosed f
  else notional (|f.value - (|p.size.value|)|)

/-- Size and entry notional that a fill leaves, the other fields as they were. -/
def afterFill (p : Position) (f price : Decimal) (isBuy : Bool) : Position :=
  let size := p.size.value + if isBuy then f.value else -f.value
  { p with
    size := ⟨size, 8⟩
    entryNotional := ⟨if size = 0 then 0 else p.rawEntry f price isBuy, 8⟩ }

/-- A fill keeps the scales, and writes size and entry notional. -/
theorem applyFill_eq (hp : p.WF) (hf : f.decimals = 8) (h : p.applyFill f price isBuy = .ok p') :
    p'.WF ∧ p'.size.value = p.size.value + (if isBuy then f.value else -f.value) ∧
      p'.entryNotional.value =
        if p'.size.value = 0 then 0 else p.rawEntry f price isBuy := by
  have hsize := applyFill_size h
  rw [hp.size] at hsize
  obtain ⟨side, hside, h⟩ := bind_inv h
  obtain ⟨size, hsz, h⟩ := bind_inv h
  obtain ⟨n, hn, h⟩ := bind_inv h
  obtain ⟨q, hq, h⟩ := bind_inv h
  obtain rfl := pure_inv h
  obtain rfl := fillSideSize_eq_ok hside
  have hn' := (Decimal.mul_eq_ok.mp hn).2.2
  rw [hf] at hn'
  have hsz' : size = ⟨p.size.value + (if isBuy then f.value else -f.value), 8⟩ := hsize
  have hsettled : q.entryNotional = ⟨p.rawEntry f price isBuy, 8⟩ ∧ q.realizedPnl.decimals = 6 := by
    unfold rawEntry
    dsimp only
    generalize (if isBuy then f.value else -f.value) = x at hsz' hq ⊢
    rw [← hsz']
    split at hq
    · rename_i hkeep
      rw [Bool.or_eq_true, Decimal.isZero_iff] at hkeep
      rw [if_pos hkeep]
      split at hq
      · rename_i hinc
        simp only [Decimal.isZero_iff, Bool.or_eq_true, decide_eq_true_eq] at hinc
        rw [if_pos hinc]
        obtain ⟨m, hm, hq⟩ := bind_inv hq
        obtain rfl := pure_inv hq
        rw [(Decimal.add_eq_ok.mp hm).2, hp.entry, hn']
        exact ⟨rfl, hp.realized⟩
      · rename_i hinc
        simp only [Decimal.isZero_iff, Bool.or_eq_true, decide_eq_true_eq] at hinc
        rw [if_neg hinc]
        obtain ⟨⟨c, pnl⟩, hc, hq⟩ := bind_inv hq
        obtain ⟨r, hr, hq⟩ := bind_inv hq
        obtain ⟨m, hm, hq⟩ := bind_inv hq
        obtain rfl := pure_inv hq
        obtain ⟨rfl, -⟩ := closedPart_eq hp hf (by rw [hn']) hc
        rw [(Decimal.sub_eq_ok.mp hm).2, hp.entry]
        exact ⟨rfl, (addRealized_decimals hr).trans hp.realized⟩
    · rename_i hkeep
      rw [Bool.or_eq_true, Decimal.isZero_iff] at hkeep
      rw [if_neg hkeep]
      obtain ⟨u, -, hq⟩ := bind_inv hq
      obtain ⟨r, hr, hq⟩ := bind_inv hq
      obtain ⟨a, ha, hq⟩ := bind_inv hq
      obtain ⟨d, hd, hq⟩ := bind_inv hq
      obtain ⟨rem, hrem, hq⟩ := bind_inv hq
      obtain ⟨m, hm, hq⟩ := bind_inv hq
      obtain rfl := pure_inv hq
      have hrem' := (Decimal.abs_eq_ok.mp hrem).2
      rw [(Decimal.sub_eq_ok.mp hd).2, (Decimal.abs_eq_ok.mp ha).2, hf] at hrem'
      rw [(Decimal.mul_eq_ok.mp hm).2.2, hrem']
      exact ⟨rfl, (addRealized_decimals hr).trans hp.realized⟩
  obtain ⟨hentry, hreal⟩ := hsettled
  have hentry' : (q.setSize size).entryNotional =
      ⟨if size.value = 0 then 0 else p.rawEntry f price isBuy, 8⟩ := by
    unfold setSize
    by_cases hz : size.value = 0
    · rw [if_pos hz]
      dsimp only
      rw [if_pos (Decimal.isZero_iff.mpr hz), hentry]
    · rw [if_neg hz]
      dsimp only
      rw [if_neg (by simpa using hz), hentry]
  refine ⟨⟨?_, ?_, hreal, fun hz => ?_⟩, ?_, ?_⟩
  · rw [hsize]
  · rw [hentry']
  · rw [hentry']
    exact if_pos hz
  · rw [hsize]
  · rw [hentry']
    rfl

/-- What the position after a fill is worth at any price. -/
theorem applyFill_worth (hp : p.WF) (hf : f.decimals = 8) (h : p.applyFill f price isBuy = .ok p')
    (mark : Decimal) :
    p'.rawPnl mark = (p.afterFill f price isBuy).rawPnl mark := by
  obtain ⟨-, hsize, hentry⟩ := applyFill_eq hp hf h
  unfold rawPnl afterFill
  rw [hentry, hsize]

/-! ### The accounting identity -/

/-- Closing all of a position closes all of its entry notional. -/
theorem rawClosed_all (hz : p.size.value ≠ 0) (h : f.value = |p.size.value|) :
    p.rawClosed f = p.entryNotional.value := by
  have hpos : 0 < |p.size.value| := abs_pos.mpr hz
  unfold rawClosed
  rw [h, Int.mul_tdiv_cancel_left _ (by omega), Int.mul_tdiv_cancel _ (by norm_num)]

/-- The truncated products of two sizes of one position and of the fill between them. -/
theorem notional_near {x y f P D : Int} (hD : 0 < D) (h : y = x + f) :
    |(y * P).tdiv D - (x * P).tdiv D - (f * P).tdiv D| ≤ 1 := by
  have := tdiv_add_near (a := x * P) (b := f * P) hD
  rw [← add_mul, ← h] at this
  rw [abs_le] at this ⊢
  omega

theorem sign_eq_iff_of_pos {x y : Int} (hx : 0 < x) : x.sign = y.sign ↔ 0 < y := by
  rw [Int.sign_eq_one_of_pos hx, eq_comm, Int.sign_eq_one_iff_pos]

theorem sign_eq_iff_of_neg {x y : Int} (hx : x < 0) : x.sign = y.sign ↔ y < 0 := by
  rw [Int.sign_eq_neg_one_of_neg hx, eq_comm, Int.sign_eq_neg_one_iff_neg]

/-- **Accounting identity.** At the fill price, a fill takes from the value of the
position what it realizes. -/
theorem applyFill_rawPnl (hp : p.WF) (hf : f.decimals = 8) (hpos : 0 ≤ f.value)
    (h : p.applyFill f price isBuy = .ok p') :
    |p'.rawPnl price - p.rawPnl price + p.rawFillPnl f price isBuy| ≤ 1 := by
  obtain ⟨-, hsize, hentry⟩ := applyFill_eq hp hf h
  have hD : (0 : Int) < 10 ^ price.decimals := by positivity
  unfold rawFillPnl rawPnl
  unfold rawEntry at hentry
  rw [hentry, hsize]
  dsimp only
  have hside : (if isBuy then f.value else -f.value) = f.value ∨
      (if isBuy then f.value else -f.value) = -f.value := by
    cases isBuy <;> simp
  have hall := rawClosed_all (p := p) (f := f)
  have hflat := hp.flat
  simp only [keepsSide_iff]
  generalize (if isBuy then f.value else -f.value) = side at hside ⊢
  generalize p.rawClosed f = C at hall ⊢
  generalize p.entryNotional.value = N at hall hflat ⊢
  generalize p.size.value = x at hall hflat ⊢
  generalize f.value = F at hpos hside hall ⊢
  rcases lt_trichotomy x 0 with hx | hx | hx
  · -- a short position
    have hxne : x ≠ 0 := by omega
    simp only [hxne, if_false, or_false, false_or, sign_eq_iff_of_neg hx, abs_of_neg hx,
      show ¬ 0 < x by omega, false_and, hx, true_and]
    rw [abs_of_neg hx] at hall
    by_cases hkeep : x + side < 0 ∨ x + side = 0
    · simp only [hkeep, if_true]
      by_cases hinc : side < 0
      · have hne : x + side ≠ 0 := by omega
        simp only [hinc, hne, if_true, if_false, show ¬ 0 < x + side by omega,
          abs_of_neg (show x + side < 0 by omega)]
        have := notional_near (x := -x) (y := -(x + side)) (f := F) (P := price.value) hD (by omega)
        rw [abs_le] at this ⊢
        omega
      · simp only [hinc, if_false]
        by_cases hz : x + side = 0
        · have hC := hall hxne (by omega)
          have hFx : F = -x := by omega
          simp only [hz, if_true, hC, hFx]
          rw [abs_le]
          omega
        · simp only [hz, if_false, show ¬ 0 < x + side by omega,
            abs_of_neg (show x + side < 0 by omega)]
          have := notional_near (x := -(x + side)) (y := -x) (f := F) (P := price.value) hD
            (by omega)
          rw [abs_le] at this ⊢
          omega
    · have hpos' : 0 < x + side := by omega
      simp only [hkeep, if_false]
      simp only [hpos', if_true, if_false, show x + side ≠ 0 by omega, abs_of_pos hpos']
      have habs : |F - -x| = x + side := by
        rw [abs_of_nonneg (by omega)]
        omega
      rw [habs, abs_le]
      omega
  · -- no position
    subst hx
    have hN := hflat rfl
    subst hN
    simp only [if_true, zero_add, or_true, true_or]
    by_cases hz : side = 0
    · simp [hz]
    · have habs : |side| = F := by
        rcases hside with rfl | rfl
        · exact abs_of_nonneg hpos
        · rw [abs_neg, abs_of_nonneg hpos]
      simp only [hz, if_false, habs]
      split <;> simp
  · -- a long position
    have hxne : x ≠ 0 := by omega
    simp only [hxne, if_false, or_false, false_or, sign_eq_iff_of_pos hx, abs_of_pos hx,
      show ¬ x < 0 by omega, false_and, hx, true_and, if_true]
    rw [abs_of_pos hx] at hall
    by_cases hkeep : 0 < x + side ∨ x + side = 0
    · simp only [hkeep, if_true]
      by_cases hinc : 0 < side
      · have hne : x + side ≠ 0 := by omega
        simp only [hinc, hne, if_true, if_false, show 0 < x + side by omega,
          abs_of_pos (show 0 < x + side by omega)]
        have := notional_near (x := x) (y := x + side) (f := F) (P := price.value) hD (by omega)
        rw [abs_le] at this ⊢
        omega
      · simp only [hinc, if_false]
        by_cases hz : x + side = 0
        · have hC := hall hxne (by omega)
          have hFx : F = x := by omega
          simp only [hz, if_true, hC, hFx]
          rw [abs_le]
          omega
        · simp only [hz, if_false, show 0 < x + side by omega, if_true,
            abs_of_pos (show 0 < x + side by omega)]
          have := notional_near (x := x + side) (y := x) (f := F) (P := price.value) hD (by omega)
          rw [abs_le] at this ⊢
          omega
    · have hneg' : x + side < 0 := by omega
      simp only [hkeep, if_false]
      simp only [if_false, show ¬ 0 < x + side by omega, show x + side ≠ 0 by omega,
        abs_of_neg hneg']
      have habs : |F - x| = -(x + side) := by
        rw [abs_of_nonneg (by omega)]
        omega
      rw [habs, abs_le]
      omega

end Position

end Hypercore
