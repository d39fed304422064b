import Hypercore.Engine.Winners
/-!
# Hypercore.Engine.LiquidationProgress

When liquidating a position gets it anywhere.

A step closes the partial ratio of the size, rounded down to a raw unit, and possibly what
auto-deleverage, triggered by the step's own deficit, takes from the very position that is
liquidated (`liquidate_size`). So a step makes progress exactly when these two are together
at least one unit and no more than the position (`PartCloses`); and when auto-deleverage
spares the position, only a ratio of one ever closes it.
-/

namespace Hypercore

open Exec Int128 Position

namespace LiquidationEngine

/-- The partial ratio is above zero and at most one. -/
def Partial (l : LiquidationEngine) : Prop :=
  0 < l.partialRatio.value ∧ l.partialRatio.value ≤ 10 ^ l.partialRatio.decimals

/-- The partial ratio on the eight places of a size, rounded down. -/
def sizeRatio (l : LiquidationEngine) : Int :=
  l.partialRatio.value * 10 ^ 8 / 10 ^ l.partialRatio.decimals

section Partial

variable {l : LiquidationEngine}

theorem sizeRatio_bounds (hl : l.Partial) : 0 ≤ l.sizeRatio ∧ l.sizeRatio ≤ 10 ^ 8 := by
  obtain ⟨h0, h1⟩ := hl
  unfold sizeRatio
  refine ⟨by positivity, Int.ediv_le_of_le_mul (by positivity) ?_⟩
  rw [Int.mul_comm]
  exact mul_le_mul_of_nonneg_left h1 (by positivity)

/-- Rounding hides no ratio below one. -/
theorem sizeRatio_one (hl : l.Partial) :
    l.sizeRatio = 10 ^ 8 ↔ l.partialRatio.value = 10 ^ l.partialRatio.decimals := by
  have hpos : (0 : Int) < 10 ^ l.partialRatio.decimals := by positivity
  unfold sizeRatio
  constructor
  · intro h
    have hmul := Int.ediv_mul_le (l.partialRatio.value * 10 ^ 8) hpos.ne'
    rw [h, Int.mul_comm] at hmul
    exact le_antisymm hl.2 (le_of_mul_le_mul_right hmul (by norm_num))
  · intro h
    rw [h, Int.mul_ediv_cancel_left _ hpos.ne']

theorem toDecimals_sizeRatio {r : Decimal} (hl : l.Partial)
    (h : l.partialRatio.toDecimals 8 = .ok r) : r = ⟨l.sizeRatio, 8⟩ := by
  obtain ⟨h0, -⟩ := hl
  unfold sizeRatio
  generalize l.partialRatio = d at *
  rcases Nat.lt_trichotomy 8 d.decimals with hk | hk | hk
  · rw [((Decimal.toDecimals_down hk).mp h).2, Int.tdiv_eq_ediv_of_nonneg h0.le]
    have hsplit : (10 : Int) ^ d.decimals = 10 ^ 8 * 10 ^ (d.decimals - 8) := by
      rw [← pow_add]
      congr 1
      omega
    rw [hsplit, Int.mul_comm d.value, Int.mul_ediv_mul_of_pos _ _ (by positivity)]
  · rw [hk, Decimal.toDecimals_self] at h
    cases h
    rw [← hk, Int.mul_ediv_cancel _ (by positivity), hk]
  · rw [((Decimal.toDecimals_up hk).mp h).2.2]
    have hsplit : (10 : Int) ^ 8 = 10 ^ (8 - d.decimals) * 10 ^ d.decimals := by
      rw [← pow_add]
      congr 1
      omega
    rw [hsplit, ← Int.mul_assoc, Int.mul_ediv_cancel _ (by positivity)]

/-- **The liquidated size** is the ratio of the position, rounded down. -/
theorem calculateLiquidationSize_eq {p : Position} {size : Decimal} (hp : p.WF) (hl : l.Partial)
    (h : l.calculateLiquidationSize p = .ok size) :
    size = ⟨|p.size.value| * l.sizeRatio / 10 ^ 8, 8⟩ := by
  obtain ⟨hr0, hr1⟩ := sizeRatio_bounds hl
  obtain ⟨abs, habs, h⟩ := bind_inv h
  obtain ⟨r, hr, h⟩ := bind_inv h
  obtain ⟨part, hpart, h⟩ := bind_inv h
  obtain rfl := pure_inv h
  have habs' := (Decimal.abs_eq_ok.mp habs).2
  rw [hp.size] at habs'
  subst habs'
  obtain rfl := toDecimals_sizeRatio hl hr
  have hpart' := (Decimal.mul_eq_ok.mp hpart).2.2
  dsimp only at hpart'
  rw [Int.tdiv_eq_ediv_of_nonneg (by positivity)] at hpart'
  subst hpart'
  refine if_pos (Int.ediv_le_of_le_mul (by norm_num) ?_)
  exact mul_le_mul_of_nonneg_left hr1 (abs_nonneg _)

end Partial

end LiquidationEngine

namespace Engine

open EngineState LiquidationEngine

/-! ### One step -/

/-- Raw size that a walk of auto-deleverage closes of one account's position. -/
def takenFrom (a : AccountAddress) (price : Decimal) (rs : List Reached) : Int :=
  ((rs.find? (·.account = a)).map fun r => adlSize r.position price r.deficit).getD 0

/-- Raw size that settling a residual closes of one account's position: none unless it
triggers auto-deleverage. -/
def residualTaken (ord : HashOrder) (e : Engine) (a : AccountAddress) (m : MarketId)
    (size price : Decimal) (isBuy : Bool) : Option Decimal → Exec Int
  | none => return 0
  | some bankruptcy => do
    let residual ← residualUsdc bankruptcy size price isBuy
    if residual.value < 0 ∧ e.state.insuranceFund + residual.value < 0 then
      let counters ← adlCandidates ord e m
      return takenFrom a price
        (reached e.state m price (-residual.value) (counters.map Prod.fst))
    else return 0

/-- Raw size that the auto-deleverage triggered by liquidating a position closes of that
position itself. -/
def selfDeleveraged (ord : HashOrder) (e : Engine) (a : AccountAddress) (m : MarketId) :
    Exec Int :=
  match e.state.getMarket m, e.state.getPosition a m with
  | some market, some p => do
    match ← e.liquidation.processLiquidation p market with
    | none => return 0
    | some (size, price) =>
      residualTaken ord e a m size price p.isShort
        (← calculateBankruptcyPrice p (e.state.getBalance a))
  | _, _ => return 0

/-- The position has become smaller and not changed sides. -/
def MadeProgress (s s' : EngineState) (a : AccountAddress) (m : MarketId) : Prop :=
  |s'.sizeAt a m| < |s.sizeAt a m| ∧ 0 ≤ s'.sizeAt a m * s.sizeAt a m

/-- The part to liquidate, with what auto-deleverage takes from the same position, is at
least one raw unit and at most the position. -/
def PartCloses (ord : HashOrder) (e : Engine) (a : AccountAddress) (m : MarketId) : Prop :=
  After (selfDeleveraged ord e a m) fun taken =>
    let size := |e.state.sizeAt a m|
    let part := taken + size * e.liquidation.sizeRatio / 10 ^ 8
    0 < part ∧ part ≤ size

/-- Auto-deleverage leaves the liquidated position alone. -/
def Spared (ord : HashOrder) (e : Engine) (a : AccountAddress) (m : MarketId) : Prop :=
  selfDeleveraged ord e a m = .ok 0

section Step

variable {e e' : Engine} {ord : HashOrder} {a : AccountAddress} {m : MarketId}
  {l l' : Liquidations} {p : Position} {market : Market}

/-- Signed size after closing a part of a position. -/
def sizeLess (p : Position) (part : Int) : Int :=
  if p.isShort then p.size.value + part else p.size.value - part

variable {price : Decimal}

theorem applyFill_sizeLess {p' : Position} {x : Int} {isShort : Bool}
    (h : p.applyFill ⟨x, 8⟩ price isShort = .ok p') :
    p'.size.value = if isShort then p.size.value + x else p.size.value - x := by
  rw [applyFill_size h]
  cases isShort with
  | true => rfl
  | false => exact (sub_eq_add_neg _ _).symm

theorem takenFrom_of_mem {rs : List Reached} {r : Reached} (hnodup : (rs.map (·.account)).Nodup)
    (h : r ∈ rs) :
    takenFrom r.account price rs = adlSize r.position price r.deficit := by
  unfold takenFrom
  induction rs with
  | nil => exact absurd h List.not_mem_nil
  | cons r' rs ih =>
    obtain ⟨hnot, hnodup⟩ := List.nodup_cons.mp hnodup
    rcases List.mem_cons.mp h with rfl | h
    · rw [List.find?_cons_of_pos (by simp)]
      rfl
    · have hne : r'.account ≠ r.account := fun heq =>
        hnot (List.mem_map.mpr ⟨r, h, heq.symm⟩)
      rw [List.find?_cons_of_neg (by simpa using hne)]
      exact ih hnodup h

theorem takenFrom_of_not_mem {rs : List Reached} (h : a ∉ rs.map (·.account)) :
    takenFrom a price rs = 0 := by
  unfold takenFrom
  rw [List.find?_eq_none.mpr fun r hr => ?_]
  · rfl
  · have : r.account ≠ a := fun heq => h (List.mem_map.mpr ⟨r, hr, heq⟩)
    simpa using this

/-- A deficit that the insurance fund does not cover triggers auto-deleverage. -/
theorem settleResidual_uncovered {bankruptcy size r : Decimal} {isBuy : Bool}
    (hr : residualUsdc bankruptcy size price isBuy = .ok r) (hneg : r.value < 0)
    (hfund : e.state.insuranceFund + r.value < 0)
    (h : settleResidual ord e m bankruptcy size price isBuy = .ok e') :
    triggerAdl ord e m ⟨-r.value, 6⟩ price = .ok e' := by
  obtain ⟨r', hr', h⟩ := bind_inv h
  obtain rfl := ok_unique hr hr'
  rw [if_neg (by simpa using hneg.le), if_pos (by simpa using hneg)] at h
  obtain ⟨d, hd, h⟩ := bind_inv h
  obtain ⟨-, rfl⟩ := Decimal.neg_eq_ok.mp hd
  obtain ⟨⟨covered, s₁⟩, h1, h⟩ := bind_inv h
  unfold useInsuranceFund at h1
  dsimp only at h1
  rw [if_neg (by omega)] at h1
  obtain ⟨rfl, rfl⟩ := pair_inv h1
  exact h

/-- Auto-deleverage takes from one position what its walk closes of it. -/
theorem triggerAdl_taken {cs : List (AccountAddress × Decimal)} {d : Int}
    (hwf : PositionsWF e.state) (hp : e.state.getPosition a m = some p)
    (hranked : adlCandidates ord e m = .ok cs) (h : triggerAdl ord e m ⟨d, 6⟩ price = .ok e') :
    ∃ p', e'.state.getPosition a m = some p' ∧
      p'.size.value =
        sizeLess p (takenFrom a price (reached e.state m price d (cs.map Prod.fst))) := by
  obtain ⟨hclosed, hkept⟩ := triggerAdl_run hwf rfl hranked h
  have hnodup := (reached_accounts e.state m price d (cs.map Prod.fst)).nodup
    (adlCandidates_accounts hranked).1
  dsimp only at hclosed hkept
  by_cases hin : a ∈ (reached e.state m price d (cs.map Prod.fst)).map (·.account)
  · obtain ⟨r, hr, rfl⟩ := List.mem_map.mp hin
    obtain ⟨p', hfill, hp'⟩ := hclosed r hr
    obtain rfl := Option.some.inj (hp.symm.trans (mem_reached hr).1)
    exact ⟨p', hp', by rw [takenFrom_of_mem hnodup hr]; exact applyFill_sizeLess hfill⟩
  · refine ⟨p, (hkept a m fun _ => hin).trans hp, ?_⟩
    rw [takenFrom_of_not_mem hin]
    unfold sizeLess
    split <;> omega

theorem takenFrom_nonneg (price : Decimal) (rs : List Reached) : 0 ≤ takenFrom a price rs := by
  unfold takenFrom
  cases rs.find? (·.account = a) with
  | none => exact le_refl _
  | some r => exact (adlSize_bounds _ _ _).1

/-- After settling a residual, only what auto-deleverage took is missing. -/
theorem settle_taken {b : Option Decimal} {size : Decimal} (hwf : PositionsWF e.state)
    (hp : e.state.getPosition a m = some p) (h : (match b with
      | none => return e
      | some bankruptcy => settleResidual ord e m bankruptcy size price p.isShort) = .ok e') :
    ∃ taken, residualTaken ord e a m size price p.isShort b = .ok taken ∧ 0 ≤ taken ∧
      ∃ p', e'.state.getPosition a m = some p' ∧ p'.size.value = sizeLess p taken := by
  have hnothing : p.size.value = sizeLess p 0 := by
    unfold sizeLess
    split <;> omega
  cases b with
  | none =>
    obtain rfl := pure_inv h
    exact ⟨0, rfl, le_refl _, p, hp, hnothing⟩
  | some bankruptcy =>
    obtain ⟨r, hr, hcase⟩ := settleResidual_cases h
    simp only [residualTaken, hr, ok_bind]
    by_cases hun : r.value < 0 ∧ e.state.insuranceFund + r.value < 0
    · have hadl := settleResidual_uncovered hr hun.1 hun.2 h
      obtain ⟨cs, hranked, -⟩ := bind_inv (show _ >>= _ = _ from hadl)
      rw [if_pos hun, hranked]
      exact ⟨_, rfl, takenFrom_nonneg _ _, triggerAdl_taken hwf hp hranked hadl⟩
    · rw [if_neg hun]
      refine ⟨0, rfl, le_refl _, p, ?_, hnothing⟩
      rcases hcase with rfl | ⟨h1, h2, -⟩
      · exact hp
      · exact absurd ⟨h1, h2⟩ hun

/-- **Step lemma.** The position loses what auto-deleverage takes from it and the part to
liquidate, both towards the other side. -/
theorem liquidate_size (hwf : PositionsWF e.state) (hl : e.liquidation.Partial)
    (hm : e.state.getMarket m = some market) (hp : e.state.getPosition a m = some p)
    (hne : p.size.value ≠ 0) (h : liquidate ord (l, e) (a, m) = .ok (l', e')) :
    ∃ taken, selfDeleveraged ord e a m = .ok taken ∧ 0 ≤ taken ∧
      e'.state.sizeAt a m =
        sizeLess p (taken + |p.size.value| * e.liquidation.sizeRatio / 10 ^ 8) := by
  unfold liquidate at h
  unfold selfDeleveraged
  simp only [hm, hp] at h ⊢
  obtain ⟨res, hres, h⟩ := bind_inv h
  rw [hres]
  unfold processLiquidation at hres
  rw [if_neg (by simpa [isEmpty] using hne)] at hres
  obtain ⟨size, hsize, hres⟩ := bind_inv hres
  obtain ⟨price, -, hres⟩ := bind_inv hres
  obtain rfl := pure_inv hres
  obtain rfl := calculateLiquidationSize_eq (hwf _ _ _ hp) hl hsize
  obtain ⟨e₁, happly, h⟩ := bind_inv h
  obtain ⟨-, rfl⟩ := pair_inv h
  unfold applyLiquidation at happly
  simp only [hp] at happly
  obtain ⟨b, hb, happly⟩ := bind_inv happly
  obtain ⟨e₂, hsettle, happly⟩ := bind_inv happly
  obtain ⟨s₂, hfill, happly⟩ := bind_inv happly
  obtain rfl := pure_inv happly
  simp only [ok_bind, hb]
  obtain ⟨taken, htaken, hnonneg, p₂, hp₂, hsize₂⟩ := settle_taken hwf hp hsettle
  refine ⟨taken, htaken, hnonneg, ?_⟩
  rcases modifyPosition_eq_ok hfill with ⟨hnone, -⟩ | ⟨q, p', hq, hfilled, rfl⟩
  · rw [hp₂] at hnone
    cases hnone
  · obtain rfl := Option.some.inj (hp₂.symm.trans hq)
    obtain ⟨_, _, _, honly⟩ := cancelTriggerOrdersForPosition_only
      (s := e₂.state.setPosition a m p') (a := a) (m := m)
    rw [honly]
    show (e₂.state.setPosition a m p').sizeAt a m = _
    rw [sizeAt_setPosition, if_pos ⟨rfl, rfl⟩, applyFill_sizeLess hfilled, hsize₂]
    unfold sizeLess
    split <;> omega

/-- Closing a part moves the size towards zero exactly when the part is positive and within
the position. -/
theorem sizeLess_iff {part : Int} (hne : p.size.value ≠ 0) (hpart : 0 ≤ part) :
    |sizeLess p part| < |p.size.value| ∧ 0 ≤ sizeLess p part * p.size.value ↔
      0 < part ∧ part ≤ |p.size.value| := by
  unfold sizeLess
  cases hshort : p.isShort with
  | true =>
    have hneg : p.size.value < 0 := by simpa [isShort] using hshort
    rw [if_pos rfl, ← neg_mul_neg, mul_nonneg_iff_of_pos_right (neg_pos.mpr hneg),
      abs_of_neg hneg, abs_lt]
    omega
  | false =>
    have hpos : 0 < p.size.value := by
      have : 0 ≤ p.size.value := by simpa [isShort] using hshort
      omega
    rw [if_neg (by simp), mul_nonneg_iff_of_pos_right hpos, abs_of_pos hpos, abs_lt]
    omega

/-- **One step** makes progress exactly when its part closes. -/
theorem progress_iff (hwf : PositionsWF e.state) (hl : e.liquidation.Partial)
    (hm : e.state.getMarket m = some market) (hp : e.state.getPosition a m = some p)
    (hne : p.size.value ≠ 0) (h : liquidate ord (l, e) (a, m) = .ok (l', e')) :
    MadeProgress e.state e'.state a m ↔ PartCloses ord e a m := by
  obtain ⟨taken, htaken, hnonneg, hsize⟩ := liquidate_size hwf hl hm hp hne h
  have hratio := (sizeRatio_bounds hl).1
  have hpart : 0 ≤ |p.size.value| * e.liquidation.sizeRatio / 10 ^ 8 := by positivity
  unfold MadeProgress PartCloses
  rw [htaken, after_ok, hsize, sizeAt_of_position hp]
  exact sizeLess_iff hne (by omega)

end Step

/-! ### Repeated liquidation -/

/-- A position is liquidated `n` times, with other changes in between that leave its size;
every step meets a condition. -/
inductive Repeated (C : HashOrder → Engine → Prop) (a : AccountAddress) (m : MarketId)
    (e₀ : Engine) : Nat → Engine → Prop
  | start : Repeated C a m e₀ 0 e₀
  | step {n : Nat} {e e' : Engine} {ord : HashOrder} {l l' : Liquidations} {market : Market}
      (h : Repeated C a m e₀ n e) (hC : C ord e) (hm : e.state.getMarket m = some market)
      (hstep : liquidate ord (l, e) (a, m) = .ok (l', e')) : Repeated C a m e₀ (n + 1) e'
  | idle {n : Nat} {e e' : Engine} (h : Repeated C a m e₀ n e) (hwf : PositionsWF e'.state)
      (hsize : e'.state.sizeAt a m = e.state.sizeAt a m) (hl : e'.liquidation = e.liquidation) :
      Repeated C a m e₀ n e'

section Runs

variable {C : HashOrder → Engine → Prop} {a : AccountAddress} {m : MarketId} {e₀ e e' : Engine}
  {n : Nat} {ord : HashOrder} {l l' : Liquidations}

theorem liquidate_liquidation (h : liquidate ord (l, e) (a, m) = .ok (l', e')) :
    e'.liquidation = e.liquidation := by
  obtain ⟨_, _, _, _, _, rfl⟩ := liquidate_only h
  rfl

/-- A flat position is not liquidated. -/
theorem liquidate_flat (hflat : e.state.sizeAt a m = 0)
    (h : liquidate ord (l, e) (a, m) = .ok (l', e')) :
    e' = e ∧ selfDeleveraged ord e a m = .ok 0 := by
  unfold liquidate at h
  unfold selfDeleveraged
  cases hm : e.state.getMarket m with
  | none =>
    simp only [hm] at h
    exact ⟨(pair_inv h).2.symm, rfl⟩
  | some market =>
    cases hp : e.state.getPosition a m with
    | none =>
      simp only [hm, hp] at h
      exact ⟨(pair_inv h).2.symm, rfl⟩
    | some p =>
      have hnone : e.liquidation.processLiquidation p market = .ok none := by
        rw [sizeAt_of_position hp] at hflat
        exact if_pos (Decimal.isZero_iff.mpr hflat)
      simp only [hm, hp, hnone, ok_bind] at h ⊢
      exact ⟨(pair_inv h).2.symm, rfl⟩

theorem position_of_sizeAt (h : e.state.sizeAt a m ≠ 0) :
    ∃ p, e.state.getPosition a m = some p ∧ p.size.value ≠ 0 := by
  unfold sizeAt at h
  cases hp : e.state.getPosition a m with
  | none =>
    rw [hp] at h
    exact absurd rfl h
  | some p =>
    rw [hp] at h
    exact ⟨p, rfl, h⟩

/-- What does not change between liquidations. -/
theorem Repeated.kept (hwf : PositionsWF e₀.state) (h : Repeated C a m e₀ n e) :
    PositionsWF e.state ∧ e.liquidation = e₀.liquidation := by
  induction h with
  | start => exact ⟨hwf, rfl⟩
  | step _ _ _ hstep ih =>
    exact ⟨(liquidate_posWrites ih.1 hstep).wf ih.1, (liquidate_liquidation hstep).trans ih.2⟩
  | idle _ hwf' _ hl ih => exact ⟨hwf', hl.trans ih.2⟩

/-- **Run lemma.** When the part of every step closes, each step takes at least one unit, and
the position keeps its side: there are at most as many steps as units. -/
theorem Repeated.closing (hwf : PositionsWF e₀.state) (hl : e₀.liquidation.Partial)
    (h : Repeated (fun ord e => PartCloses ord e a m) a m e₀ n e) :
    |e.state.sizeAt a m| + n ≤ |e₀.state.sizeAt a m| ∧
      0 ≤ e.state.sizeAt a m * e₀.state.sizeAt a m := by
  induction h with
  | start => exact ⟨by omega, mul_self_nonneg _⟩
  | @step n e e' ord l l' market h hC hm hstep ih =>
    obtain ⟨hwf', hl'⟩ := h.kept hwf
    by_cases hflat : e.state.sizeAt a m = 0
    · have hself := (liquidate_flat hflat hstep).2
      unfold PartCloses at hC
      rw [hself, after_ok, hflat] at hC
      simp at hC
    · obtain ⟨p, hp, hne⟩ := position_of_sizeAt hflat
      obtain ⟨hless, hside⟩ := (progress_iff hwf' (hl' ▸ hl) hm hp hne hstep).mpr hC
      refine ⟨by push_cast; omega, ?_⟩
      -- two steps on one side, as the size between them is not zero
      have hsquare : 0 < e.state.sizeAt a m * e.state.sizeAt a m := mul_self_pos.mpr hflat
      have hprod := mul_nonneg hside ih.2
      have hassoc : e'.state.sizeAt a m * e.state.sizeAt a m *
          (e.state.sizeAt a m * e₀.state.sizeAt a m) =
          e'.state.sizeAt a m * e₀.state.sizeAt a m *
            (e.state.sizeAt a m * e.state.sizeAt a m) := by ring
      rw [hassoc] at hprod
      exact nonneg_of_mul_nonneg_left hprod hsquare
  | idle _ _ hsize _ ih =>
    rw [hsize]
    exact ih

/-- A part of the ratio is all of a position only for a ratio of one. -/
theorem sizeLess_ratio {p : Position} {r : Int} (hne : p.size.value ≠ 0) (hr : r ≤ 10 ^ 8) :
    sizeLess p (0 + |p.size.value| * r / 10 ^ 8) = 0 ↔ r = 10 ^ 8 := by
  have hpos : 0 < |p.size.value| := abs_pos.mpr hne
  have hpart : |p.size.value| * r / 10 ^ 8 = |p.size.value| ↔ r = 10 ^ 8 := by
    constructor
    · intro h
      have hmul := Int.ediv_mul_le (|p.size.value| * r) (show (10 : Int) ^ 8 ≠ 0 by norm_num)
      rw [h] at hmul
      exact le_antisymm hr (le_of_mul_le_mul_left hmul hpos)
    · rintro rfl
      exact Int.mul_ediv_cancel _ (by norm_num)
  rw [← hpart]
  unfold sizeLess
  cases hshort : p.isShort with
  | true =>
    have hneg : p.size.value < 0 := by simpa [isShort] using hshort
    rw [if_pos rfl, abs_of_neg hneg]
    omega
  | false =>
    have hpos : 0 ≤ p.size.value := by simpa [isShort] using hshort
    rw [if_neg (by simp), abs_of_nonneg hpos]
    omega

/-- **Run lemma.** When auto-deleverage spares the position, only a ratio of one ever closes
it, in the first step. -/
theorem Repeated.flat_iff (hwf : PositionsWF e₀.state) (hl : e₀.liquidation.Partial)
    (hne : e₀.state.sizeAt a m ≠ 0) (h : Repeated (fun ord e => Spared ord e a m) a m e₀ n e) :
    e.state.sizeAt a m = 0 ↔ 0 < n ∧ e₀.liquidation.sizeRatio = 10 ^ 8 := by
  induction h with
  | start => exact iff_of_false hne fun h => absurd h.1 (lt_irrefl _)
  | @step n e e' ord l l' market h hC hm hstep ih =>
    obtain ⟨hwf', hl'⟩ := h.kept hwf
    by_cases hflat : e.state.sizeAt a m = 0
    · obtain ⟨rfl, -⟩ := liquidate_flat hflat hstep
      exact iff_of_true hflat ⟨n.succ_pos, (ih.mp hflat).2⟩
    · obtain ⟨p, hp, hne'⟩ := position_of_sizeAt hflat
      obtain ⟨taken, htaken, -, hsize⟩ := liquidate_size hwf' (hl' ▸ hl) hm hp hne' hstep
      obtain rfl := ok_unique hC htaken
      rw [hsize, hl', sizeLess_ratio hne' (sizeRatio_bounds hl).2]
      exact ⟨fun h => ⟨n.succ_pos, h⟩, fun h => h.2⟩
  | idle _ _ hsize _ ih =>
    rw [hsize]
    exact ih

/-- **Progress of liquidation.** A step makes progress exactly when its part closes. A run of
such steps has at most as many as the position has units. A run in which auto-deleverage
spares the position gets it flat exactly when the ratio is one. -/
theorem liquidation_progress {p : Position} {market : Market} (hwf : PositionsWF e₀.state)
    (hl : e₀.liquidation.Partial) (hm : e₀.state.getMarket m = some market)
    (hp : e₀.state.getPosition a m = some p) (hne : p.size.value ≠ 0) :
    (∀ ord l l' e, liquidate ord (l, e₀) (a, m) = .ok (l', e) →
      (MadeProgress e₀.state e.state a m ↔ PartCloses ord e₀ a m)) ∧
    (∀ n e, Repeated (fun ord e => PartCloses ord e a m) a m e₀ n e →
      |e.state.sizeAt a m| + n ≤ |e₀.state.sizeAt a m| ∧
        0 ≤ e.state.sizeAt a m * e₀.state.sizeAt a m) ∧
    ∀ n e, Repeated (fun ord e => Spared ord e a m) a m e₀ n e →
      (e.state.sizeAt a m = 0 ↔
        0 < n ∧ e₀.liquidation.partialRatio.value = 10 ^ e₀.liquidation.partialRatio.decimals) := by
  refine ⟨fun ord l l' e h => progress_iff hwf hl hm hp hne h,
    fun n e h => h.closing hwf hl, fun n e h => ?_⟩
  rw [h.flat_iff hwf hl (by rwa [sizeAt_of_position hp]), sizeRatio_one hl]

end Runs

instance {s s' : EngineState} {a : AccountAddress} {m : MarketId} :
    Decidable (MadeProgress s s' a m) :=
  inferInstanceAs (Decidable (_ ∧ _))

instance {ord : HashOrder} {e : Engine} {a : AccountAddress} {m : MarketId} :
    Decidable (PartCloses ord e a m) :=
  inferInstanceAs (Decidable (After _ _))

instance {l : LiquidationEngine} : Decidable l.Partial :=
  inferInstanceAs (Decidable (_ ∧ _))

/-- The BTC market with sizes down to one raw unit. -/
def rawConfig : MarketConfig :=
  { MarketConfig.btcPerp with lotSize := ⟨1, 8⟩, minOrderSize := ⟨1, 8⟩ }

/-- A run in the market `rawConfig`, and one liquidation of account 1 after it. -/
def rawLiquidation (ops : List Op) : Exec (Engine × Engine) := do
  let e ← (Engine.new .default).addMarket rawConfig ⟨6500000000000, 8⟩ 0
  let e ← ops.foldlM (fun e op => step op e) e
  let (_, e') ← liquidate .sorted ([], e) (1, 0)
  return (e, e')

theorem rawLiquidation_eq_ok {ops : List Op} {e e' : Engine}
    (h : rawLiquidation ops = .ok (e, e')) :
    Reachable e ∧ ∃ l, liquidate .sorted ([], e) (1, 0) = .ok (l, e') := by
  obtain ⟨e₀, h0, h⟩ := bind_inv h
  obtain ⟨e₁, h1, h⟩ := bind_inv h
  obtain ⟨⟨l, e₂⟩, h2, h⟩ := bind_inv h
  obtain ⟨rfl, rfl⟩ := pair_inv h
  exact ⟨⟨e₀, .addMarket _ _ _ (.new .default) h0, .of_foldlM (fun _ _ _ => trivial) h1⟩, l, h2⟩

/-- A quarter of a position of ten million raw units is closed. -/
theorem liquidation_progress_quarter : ∃ (e e' : Engine) (l : Liquidations), Reachable e ∧
    liquidate .sorted ([], e) (1, 0) = .ok (l, e') ∧ e'.state.sizeAt 1 0 = 7500000 ∧
    MadeProgress e.state e'.state 1 0 := by
  obtain ⟨⟨e, e'⟩, hrun, htest⟩ := exists_of_test
    (x := rawLiquidation [.deposit 1 700000000, .deposit 2 1000000000000,
      .deposit 3 1000000000000,
      .placeOrder 2 (limitOrder .sell .gtc 6500000000000 10000000) 5,
      .placeOrder 1 (limitOrder .buy .gtc 6500000000000 10000000) 6,
      .placeOrder 2 (limitOrder .sell .gtc 100000000 100000) 7,
      .placeOrder 3 (limitOrder .buy .gtc 100000000 100000) 8])
    (p := fun x => decide (x.1.liquidation.Partial ∧ (x.1.state.getMarket 0).isSome ∧
      (∃ p ∈ x.1.state.getPosition 1 0, p.size.value ≠ 0) ∧ PartCloses .sorted x.1 1 0 ∧
      x.2.state.sizeAt 1 0 = 7500000)) (by decide +kernel)
  obtain ⟨hcut, hmarket, ⟨p, hp, hne⟩, hcloses, hsize⟩ := of_decide_eq_true htest
  obtain ⟨market, hm⟩ := Option.isSome_iff_exists.mp hmarket
  obtain ⟨hreach, l, hliq⟩ := rawLiquidation_eq_ok hrun
  exact ⟨e, e', l, hreach, hliq, hsize,
    ((liquidation_progress hreach.positionsWF hcut hm hp hne).1 _ _ _ _ hliq).mpr hcloses⟩

/-- A quarter of three raw units is none: the account is liquidated, its position stays, and
it is found underwater again. -/
theorem liquidation_stuck : ∃ (e e' : Engine) (l : Liquidations), Reachable e ∧
    e.liquidation.Partial ∧ e.state.sizeAt 1 0 = 3 ∧
    findUnderwaterAccounts .sorted e = .ok [(1, 0)] ∧
    liquidate .sorted ([], e) (1, 0) = .ok (l, e') ∧ ¬ MadeProgress e.state e'.state 1 0 ∧
    findUnderwaterAccounts .sorted e' = .ok [(1, 0)] := by
  obtain ⟨⟨e, e'⟩, hrun, htest⟩ := exists_of_test
    (x := rawLiquidation [.deposit 1 210, .deposit 2 1000000000000, .deposit 3 1000000000000,
      .placeOrder 2 (limitOrder .sell .gtc 6500000000000 3) 5,
      .placeOrder 1 (limitOrder .buy .gtc 6500000000000 3) 6,
      .placeOrder 2 (limitOrder .sell .gtc 200000000 100000) 7,
      .placeOrder 3 (limitOrder .buy .gtc 200000000 100000) 8])
    (p := fun x => decide (x.1.liquidation.Partial ∧ x.1.state.sizeAt 1 0 = 3 ∧
      findUnderwaterAccounts .sorted x.1 = .ok [(1, 0)] ∧ ¬ MadeProgress x.1.state x.2.state 1 0 ∧
      findUnderwaterAccounts .sorted x.2 = .ok [(1, 0)])) (by decide +kernel)
  obtain ⟨hcut, hsize, hunder, hstuck, hagain⟩ := of_decide_eq_true htest
  obtain ⟨hreach, l, hliq⟩ := rawLiquidation_eq_ok hrun
  exact ⟨e, e', l, hreach, hcut, hsize, hunder, hliq, hstuck, hagain⟩

end Engine

end Hypercore
