import Hypercore.Engine.Balances
/-!
# Hypercore.Engine.Margin

Whether the margin check of a placement keeps accounts above their initial margin.

`checkOrderMargin` compares the margin of one order with the free collateral of the balance
and of one market's position. It knows neither the account's other markets nor its resting
orders, and nothing is checked again when a resting order fills, so several orders can each
pass and together exceed the equity.

**What keeps an account safe.** With the mark prices fixed, placing and cancelling move no
equity and no margin; only a fill does. What one fill costs a party is known before it is
applied (`marginCost`), and if the free collateral over all markets covers it in every fill,
it stays non-negative along the run.
-/

namespace Hypercore

open Exec Int128 RiskEngine

namespace Engine

open EngineState

/-! ### Free collateral over all markets -/

/-- The open positions of an account, with their markets and leverage. -/
def marginPositions (s : EngineState) (a : AccountAddress) :
    List (Position × Market × UInt8) :=
  (s.getAllPositions a).filterMap fun (m, p) =>
    if p.isEmpty then none
    else (s.getMarket m).map fun market => (p, market, s.getLeverage a m)

/-- Initial margin of a position, as `calculateInitialMargin` takes it. -/
def marginTerm (x : Position × Market × UInt8) : Exec Decimal :=
  x.2.1.config.initialMargin x.1.size x.2.1.state.markPrice x.2.2

/-- Unrealized PnL of a position less its initial margin, in micro-USDC. -/
def slack (x : Position × Market × UInt8) : Int :=
  usdcTerm unrealized (x.1, x.2.1) - usdcTerm marginTerm x

/-- The same in the market `m` of a state; a position without a market counts nothing. -/
def slackAt (s : EngineState) (a : AccountAddress) (m : MarketId) (p : Position) : Int :=
  ((s.getMarket m).map fun market => slack (p, market, s.getLeverage a m)).getD 0

/-- What the positions of an account add to its free collateral. -/
def sumSlack (s : EngineState) (a : AccountAddress) : Int :=
  FinMap.total (slackAt s a) ((s.positions[a]?).getD ∅)

/-- What an account has for sure: the smaller of its balance and its shared core view. -/
def funds (e : Engine) (a : AccountAddress) : Int :=
  match e.unifiedState with
  | none => (balanceOf e.state a).getD 0
  | some u => min ((balanceOf e.state a).getD 0) (u.coreRaw a 0)

/-- Free collateral of an account over all its markets. -/
def freeFunds (e : Engine) (a : AccountAddress) : Int := funds e a + sumSlack e.state a

/-- What a fill takes from the free collateral of a party: its fee, and what the position
loses in unrealized PnL or gains in initial margin. A rebate is not counted on. -/
def marginCost (e : Engine) (fill : Fill) (r : Role) : Exec Int :=
  let fee := max (r.fee fill) 0
  match e.state.getPosition (r.party fill) fill.marketId with
  | none => return fee
  | some p => do
    let p' ← p.applyFill (fillSize fill) (fillPrice fill) (r.isBuy fill)
    return fee + slackAt e.state (r.party fill) fill.marketId p -
      slackAt e.state (r.party fill) fill.marketId p'

/-- The mark price of a market. -/
def markOf (s : EngineState) (m : MarketId) : Option Decimal :=
  (s.getMarket m).map (·.state.markPrice)

/-- A fill leaves the mark price of its market where it is. -/
def MarkKept (e : Engine) (fill : Fill) : Prop :=
  After (e.applyFill fill) fun e' => markOf e'.state fill.marketId = markOf e.state fill.marketId

/-- A fill leaves the mark price, and the free collateral of both parties covers it. -/
def MarginCovered : FillCond := fun e fill =>
  MarkKept e fill ∧ After (marginCost e fill .maker) (· ≤ freeFunds e fill.maker) ∧
    After (marginCost e fill .taker) (· ≤ freeFunds e fill.taker)

instance (e : Engine) (fill : Fill) : Decidable (MarginCovered e fill) :=
  inferInstanceAs (Decidable (After _ _ ∧ After _ _ ∧ After _ _))

/-! ### Sums over positions -/

section Sums

variable {s s' : EngineState} {a b : AccountAddress} {m : MarketId} {p : Position}

theorem usdcTerm_eq_zero {α : Type} {f : α → Exec Decimal} {x : α}
    (h : ∀ d, f x = .ok d → d.value = 0) : usdcTerm f x = 0 := by
  unfold usdcTerm
  split
  · rename_i d hd
    obtain ⟨c, hc, hd⟩ := bind_inv hd
    exact Decimal.toDecimals_zero_value hd (h c hc)
  · rfl

/-- A flat position counts nothing. -/
theorem slack_empty {market : Market} {l : UInt8} (hp : p.isEmpty = true) :
    slack (p, market, l) = 0 := by
  have hsize : p.size.value = 0 := by simpa [Position.isEmpty] using hp
  have hpnl : usdcTerm unrealized (p, market) = 0 := usdcTerm_eq_zero fun d hd => by
    unfold unrealized Position.unrealizedPnl at hd
    dsimp only at hd
    rw [if_pos (show p.size.isZero = true from hp)] at hd
    rw [← pure_inv hd]
  have hmargin : usdcTerm marginTerm (p, market, l) = 0 := usdcTerm_eq_zero fun d hd => by
    have hd' : market.config.initialMargin p.size market.state.markPrice l = .ok d := hd
    obtain ⟨size, habs, hd'⟩ := bind_inv hd'
    obtain ⟨notional, hn, hd'⟩ := bind_inv hd'
    obtain ⟨leverage, -, hd'⟩ := bind_inv hd'
    obtain ⟨-, rfl⟩ := Decimal.abs_eq_ok.mp habs
    obtain ⟨-, -, rfl⟩ := Decimal.mul_eq_ok.mp hn
    obtain ⟨-, -, -, -, rfl⟩ := Decimal.div_eq_ok.mp hd'
    simp [hsize]
  unfold slack
  rw [hpnl, hmargin, sub_zero]

/-- Only the mark price and the leverage matter. -/
theorem slackAt_congr (hmark : markOf s' m = markOf s m) (hlev : s'.leverage = s.leverage) :
    slackAt s' a m p = slackAt s a m p := by
  have hterm : ∀ mk mk' : Market, mk'.state.markPrice = mk.state.markPrice → ∀ l,
      slack (p, mk', l) = slack (p, mk, l) := by
    intro mk mk' h l
    have hpnl : unrealized (p, mk') = unrealized (p, mk) := by
      unfold unrealized
      rw [h]
    have hmargin : marginTerm (p, mk', l) = marginTerm (p, mk, l) := by
      unfold marginTerm MarketConfig.initialMargin
      dsimp only
      rw [h]
    unfold slack usdcTerm
    rw [hpnl, hmargin]
  unfold markOf at hmark
  unfold slackAt getLeverage
  rw [hlev]
  cases hm : s.getMarket m with
  | none =>
    rw [hm] at hmark
    rw [Option.map_eq_none_iff.mp hmark]
  | some mk =>
    rw [hm] at hmark
    obtain ⟨mk', hm', heq⟩ := Option.map_eq_some_iff.mp hmark
    rw [hm']
    exact hterm mk mk' heq _

theorem sumSlack_congr (hpos : s'.positions = s.positions)
    (hmark : ∀ m, markOf s' m = markOf s m) (hlev : s'.leverage = s.leverage)
    (a : AccountAddress) : sumSlack s' a = sumSlack s a := by
  unfold sumSlack
  rw [hpos]
  exact FinMap.total_congr fun m p _ => slackAt_congr (hmark m) hlev

/-- **Update rule.** Writing a position moves the sum of its account by the difference it
makes, and no other. -/
theorem sumSlack_setPosition : sumSlack (s.setPosition a m p) b = sumSlack s b +
    if a = b then slackAt s a m p - ((s.getPosition a m).map (slackAt s a m)).getD 0 else 0 := by
  have hterm : ∀ c, slackAt (s.setPosition a m p) c = slackAt s c := fun _ => rfl
  unfold sumSlack
  rw [hterm]
  unfold setPosition
  rw [FinMap.get_insert]
  split
  · rename_i hab
    subst hab
    rw [Option.getD_some, FinMap.total_insert]
    have hweight : FinMap.weight (slackAt s a) ((s.positions[a]?).getD ∅) m =
        ((s.getPosition a m).map (slackAt s a m)).getD 0 := by
      unfold FinMap.weight getPosition
      cases s.positions[a]? <;> simp
    rw [hweight]
    omega
  · omega

theorem sumSlack_getOrCreatePosition :
    sumSlack (s.getOrCreatePosition a m) b = sumSlack s b := by
  unfold getOrCreatePosition
  cases hp : s.getPosition a m with
  | some p => rfl
  | none =>
    dsimp only
    rw [sumSlack_setPosition, hp]
    have hnew : slackAt s a m .new = 0 := by
      unfold slackAt
      cases s.getMarket m with
      | none => rfl
      | some market => exact slack_empty rfl
    rw [hnew]
    simp

/-- A sum over the open positions, as a total over the positions of the account. -/
theorem marginPositions_sum {g : Position × Market × UInt8 → Int}
    (hg : ∀ p market l, p.isEmpty = true → g (p, market, l) = 0) :
    ((marginPositions s a).map g).sum = FinMap.total (fun m p =>
      ((s.getMarket m).map fun market => g (p, market, s.getLeverage a m)).getD 0)
        ((s.positions[a]?).getD ∅) := by
  have hall : ∀ l : List (MarketId × Position),
      ((l.filterMap fun x => if x.2.isEmpty then none
        else (s.getMarket x.1).map fun market => (x.2, market, s.getLeverage a x.1)).map g).sum =
      (l.map fun x => ((s.getMarket x.1).map fun market =>
        g (x.2, market, s.getLeverage a x.1)).getD 0).sum := by
    intro l
    induction l with
    | nil => rfl
    | cons x l ih =>
      rw [List.map_cons, List.sum_cons, List.filterMap_cons, ← ih]
      cases s.getMarket x.1 with
      | none => cases hx : x.2.isEmpty <;> simp
      | some market =>
        cases hx : x.2.isEmpty with
        | true => simp [hg _ _ _ hx]
        | false => simp
  exact hall _

/-- The sum over the open positions. -/
theorem marginPositions_slack :
    ((marginPositions s a).map slack).sum = sumSlack s a :=
  marginPositions_sum fun _ _ _ => slack_empty

/-- **Free collateral.** Where it is not negative, the margin is within the equity. -/
theorem margin_le_equity {acc : AccountState} {margin equity : Decimal}
    (hfree : 0 ≤ acc.balance + sumSlack s a)
    (hmargin : calculateInitialMargin (marginPositions s a) = .ok margin)
    (hequity : calculateEquity acc (forEquity (marginPositions s a)) = .ok equity) :
    margin.value ≤ equity.value := by
  obtain ⟨pnl, hpnl, hequity⟩ := bind_inv hequity
  obtain ⟨-, rfl⟩ := Decimal.add_eq_ok.mp hequity
  have hm : margin.value = ((marginPositions s a).map (usdcTerm marginTerm)).sum := by
    rw [sumUsdc_eq hmargin]
    rfl
  have hp : pnl.value =
      ((marginPositions s a).map fun x => usdcTerm unrealized (x.1, x.2.1)).sum := by
    rw [sumUsdc_eq hpnl, forEquity, List.map_map]
    rfl
  have hslack : ((marginPositions s a).map slack).sum = pnl.value - margin.value := by
    rw [hm, hp]
    induction marginPositions s a with
    | nil => rfl
    | cons x l ih =>
      simp only [List.map_cons, List.sum_cons, ih, slack]
      omega
  rw [marginPositions_slack] at hslack
  dsimp only
  omega

end Sums

/-! ### What operations do to free collateral -/

section Steps

variable {e e' : Engine} {a b : AccountAddress}

theorem balanceOf_getOrCreateAccount (s : EngineState) (a b : AccountAddress) :
    (balanceOf (s.getOrCreateAccount a) b).getD 0 = (balanceOf s b).getD 0 := by
  unfold getOrCreateAccount
  cases ha : s.accounts[a]? with
  | some acc => rfl
  | none =>
    unfold balanceOf getAccount
    dsimp only
    rw [FinMap.get_insert]
    split
    · rename_i hab
      rw [← hab, ha]
      rfl
    · rfl

/-- Opening an account and a position takes nothing away. -/
theorem freeFunds_openAccount (e : Engine) (a : AccountAddress) (m : MarketId)
    (b : AccountAddress) : freeFunds e b ≤ freeFunds (e.openAccount a m) b := by
  have hslack : sumSlack (e.openAccount a m).state b = sumSlack e.state b := by
    obtain ⟨_, hsync⟩ := syncAccount_only e a
    unfold openAccount
    dsimp only
    rw [sumSlack_getOrCreatePosition, hsync]
    rfl
  have haccounts : balanceOf (e.openAccount a m).state b = balanceOf (e.syncAccount a).state b := by
    obtain ⟨_, hp⟩ := getOrCreatePosition_only (s := (e.syncAccount a).state) (a := a) (m := m)
    refine balanceOf_congr ?_ b
    show ((e.syncAccount a).state.getOrCreatePosition a m).accounts = _
    rw [hp]
  have hshared : (e.openAccount a m).unifiedState = e.unifiedState := syncAccount_unified e a
  unfold freeFunds funds
  rw [hslack, hshared, haccounts]
  cases hu : e.unifiedState with
  | none =>
    have hbal : (balanceOf (e.syncAccount a).state b).getD 0 = (balanceOf e.state b).getD 0 := by
      have hsync : (e.syncAccount a).state = e.state.getOrCreateAccount a := by
        unfold syncAccount
        rw [hu]
      rw [hsync, balanceOf_getOrCreateAccount]
    exact (add_le_add_iff_right _).mpr hbal.ge
  | some u =>
    dsimp only
    rw [syncAccount_balance hu]
    split
    · rename_i hab
      subst hab
      simp
    · exact le_rfl

variable {fill : Fill}

theorem chargeUnified_core_ge {u u' : UnifiedState} (h : chargeUnified u fill = .ok u')
    (b : AccountAddress) :
    u.coreRaw b 0 - ((if fill.maker = b then max fill.makerFee 0 else 0) +
      if fill.taker = b then max (ofU128 fill.takerFee) 0 else 0) ≤ u'.coreRaw b 0 := by
  have hdebit : ∀ {u u' : UnifiedState} {r : Bool} {a : AccountAddress} {fee : Int},
      u.debitCore a 0 ⟨fee, 6⟩ = .ok (r, u') →
      u.coreRaw b 0 - (if a = b then max fee 0 else 0) ≤ u'.coreRaw b 0 := by
    intro u u' r a fee h
    rcases UnifiedState.debitCore_cases h with ⟨-, rfl, -⟩ | ⟨-, -, heq⟩
    · split <;> omega
    · rw [heq]
      by_cases hab : a = b
      · simp only [hab, and_self, if_true]
        omega
      · simp [hab]
  rw [chargeUnified_eq] at h
  obtain ⟨u₁, h1, h⟩ := bind_inv h
  have hmaker : u.coreRaw b 0 - (if fill.maker = b then max fill.makerFee 0 else 0) ≤
      u₁.coreRaw b 0 := by
    unfold chargeMaker at h1
    split at h1
    · obtain ⟨⟨r, u₂⟩, hd, h1⟩ := bind_inv h1
      obtain rfl := pure_inv h1
      exact hdebit hd
    · split at h1
      · obtain ⟨rebate, hrebate, h1⟩ := bind_inv h1
        obtain ⟨-, rfl⟩ := i128_eq_ok.mp hrebate
        rw [UnifiedState.credit_core h1]
        split <;> split <;> simp_all
      · obtain rfl := pure_inv h1
        split <;> omega
  have htaker : u₁.coreRaw b 0 - (if fill.taker = b then max (ofU128 fill.takerFee) 0 else 0) ≤
      u'.coreRaw b 0 := by
    unfold chargeTaker at h
    split at h
    · obtain ⟨⟨r, u₂⟩, hd, h⟩ := bind_inv h
      obtain rfl := pure_inv h
      exact hdebit hd
    · obtain rfl := pure_inv h
      split <;> omega
  omega

/-- What an account has falls by its fees at most. -/
theorem funds_applyFill (h : e.applyFill fill = .ok e') (b : AccountAddress) :
    funds e b - ((if fill.maker = b then max fill.makerFee 0 else 0) +
      if fill.taker = b then max (ofU128 fill.takerFee) 0 else 0) ≤ funds e' b := by
  have hbal : (balanceOf e.state b).getD 0 -
      ((if fill.maker = b then max fill.makerFee 0 else 0) +
        if fill.taker = b then max (ofU128 fill.takerFee) 0 else 0) ≤
      (balanceOf e'.state b).getD 0 := by
    rw [applyFill_balance h]
    cases balanceOf e.state b with
    | none =>
      simp only [Option.map_none, Option.getD_none]
      split <;> split <;> omega
    | some x =>
      simp only [Option.map_some, Option.getD_some]
      split <;> split <;> omega
  unfold funds
  rcases onUnified_eq_ok (applyFill_unified h) with ⟨hu, hu'⟩ | ⟨u, u', hu, hu', hcharge⟩
  · rw [hu, hu']
    exact hbal
  · rw [hu, hu']
    have hcore := chargeUnified_core_ge hcharge b
    dsimp only
    omega

theorem modifyMarket_other {s s' : EngineState} {m k : MarketId}
    {f : MarketState → Exec MarketState} (hk : k ≠ m) (h : s.modifyMarket m f = .ok s') :
    s'.getMarket k = s.getMarket k := by
  rcases modifyMarket_eq_ok h with ⟨-, rfl⟩ | ⟨mk, st, -, -, rfl⟩
  · rfl
  · simp only [getMarket, FinMap.get_insert, if_neg (Ne.symm hk)]

/-- A fill moves no market but its own. -/
theorem applyFill_otherMarkets {k : MarketId} (hk : k ≠ fill.marketId)
    (h : e.applyFill fill = .ok e') : e'.state.getMarket k = e.state.getMarket k := by
  obtain ⟨s₁, s₂, s₃, s₄, u, h1, h2, h3, h4, rfl⟩ := applyFill_steps h
  obtain ⟨t₁, t₂, _, _, g1, g2, h1⟩ := fillPositions_steps h1
  obtain ⟨t₃, h4, h5⟩ := bind_inv h4
  have hlegs : t₂.getMarket k = e.state.getMarket k := by
    obtain ⟨_, rfl⟩ := modifyPosition_only g1
    obtain ⟨_, rfl⟩ := modifyPosition_only g2
    rfl
  have hfees : s₃.getMarket k = s₁.getMarket k := by
    obtain ⟨_, rfl⟩ := modifyAccount_only h2
    obtain ⟨_, rfl⟩ := modifyAccount_only h3
    rfl
  obtain ⟨_, _, _, _, _, hrecord⟩ := fillRecord_writes s₄ fill
  dsimp only
  rw [hrecord]
  calc s₄.getMarket k = t₃.getMarket k := modifyMarket_other hk h5
    _ = s₃.getMarket k := modifyMarket_other hk h4
    _ = s₁.getMarket k := hfees
    _ = t₂.getMarket k := modifyMarket_other hk h1
    _ = e.state.getMarket k := hlegs

/-- A leg of a fill takes its cost, less the fee, from what the positions of its party add. -/
theorem sumSlack_leg {s s' : EngineState} {r : Role}
    (hpos : s.getPosition (r.party fill) fill.marketId =
      e.state.getPosition (r.party fill) fill.marketId) (hslack : slackAt s = slackAt e.state)
    (h : s.modifyPosition (r.party fill) fill.marketId (fun p =>
      p.applyFill (fillSize fill) (fillPrice fill) (r.isBuy fill)) = .ok s') :
    ∃ cost, marginCost e fill r = .ok cost ∧ ∀ b, sumSlack s' b = sumSlack s b -
      if r.party fill = b then cost - max (r.fee fill) 0 else 0 := by
  unfold marginCost
  rcases modifyPosition_eq_ok h with ⟨hp, rfl⟩ | ⟨p, p', hp, hfill, rfl⟩
  · rw [← hpos, hp]
    exact ⟨_, rfl, fun b => by simp⟩
  · rw [← hpos, hp]
    refine ⟨_, bind_eq_ok.mpr ⟨p', hfill, rfl⟩, fun b => ?_⟩
    rw [sumSlack_setPosition, hp, ← hslack]
    simp only [Option.map_some, Option.getD_some]
    split <;> omega

/-- Where the mark price stays, a fill takes its costs, less the fees, from what the positions
of its parties add. -/
theorem sumSlack_applyFill (hparties : fill.maker ≠ fill.taker) (hmark : MarkKept e fill)
    (h : e.applyFill fill = .ok e') :
    ∃ makerCost takerCost, marginCost e fill .maker = .ok makerCost ∧
      marginCost e fill .taker = .ok takerCost ∧
      ∀ b, sumSlack e'.state b = sumSlack e.state b -
        ((if fill.maker = b then makerCost - max fill.makerFee 0 else 0) +
          if fill.taker = b then takerCost - max (ofU128 fill.takerFee) 0 else 0) := by
  obtain ⟨s₁, s₂, h1, h2, hpos⟩ := applyFill_legs h
  have hpos₁ : s₁.getPosition fill.taker fill.marketId =
      e.state.getPosition fill.taker fill.marketId := modifyPosition_other hparties h1
  obtain ⟨makerCost, hmaker, hslack₁⟩ := sumSlack_leg (r := .maker) rfl rfl h1
  obtain ⟨_, rfl⟩ := modifyPosition_only h1
  obtain ⟨takerCost, htaker, hslack₂⟩ := sumSlack_leg (r := .taker) hpos₁ rfl h2
  obtain ⟨_, rfl⟩ := modifyPosition_only h2
  refine ⟨makerCost, takerCost, hmaker, htaker, fun b => ?_⟩
  have hmarks : ∀ m, markOf e'.state m = markOf e.state m := by
    intro m
    by_cases hm : m = fill.marketId
    · rw [hm]
      exact hmark e' h
    · unfold markOf
      rw [applyFill_otherMarkets hm h]
  have hlev : e'.state.leverage = e.state.leverage := by
    obtain ⟨_, _, _, _, _, _, _, _, heq⟩ := (applyFill_only h).1
    rw [heq]
  rw [sumSlack_congr hpos hmarks hlev, hslack₂, hslack₁]
  simp only [Role.party, Role.fee]
  exact sub_sub _ _ _

/-- **One fill.** Where the mark price stays, it takes its cost from the free collateral of a
party at most, and nothing from other accounts. -/
theorem freeFunds_applyFill (hparties : fill.maker ≠ fill.taker) (hmark : MarkKept e fill)
    (h : e.applyFill fill = .ok e') :
    ∃ makerCost takerCost, marginCost e fill .maker = .ok makerCost ∧
      marginCost e fill .taker = .ok takerCost ∧
      ∀ b, freeFunds e b - ((if fill.maker = b then makerCost else 0) +
        if fill.taker = b then takerCost else 0) ≤ freeFunds e' b := by
  obtain ⟨makerCost, takerCost, hmaker, htaker, hslack⟩ := sumSlack_applyFill hparties hmark h
  refine ⟨makerCost, takerCost, hmaker, htaker, fun b => ?_⟩
  have hfunds := funds_applyFill h b
  unfold freeFunds
  rw [hslack]
  by_cases hm : fill.maker = b <;> by_cases ht : fill.taker = b <;>
    simp only [hm, ht, if_true, if_false] at hfunds ⊢ <;> omega

end Steps

/-! ### Runs -/

/-- No account's free collateral is negative. -/
def Backed (e : Engine) : Prop := ∀ a, 0 ≤ freeFunds e a

/-- **Orders.** Opening accounts, writing books and covered fills leave accounts backed. -/
theorem backed_keeps : KeepsFills MarginCovered Backed where
  terms {e e'} h hsame a := by
    have hmarks : ∀ m, markOf e'.state m = markOf e.state m := by
      intro m
      unfold markOf getMarket
      rw [hsame.markets]
    have hfunds : funds e' a = funds e a := by
      unfold funds
      rw [hsame.unifiedState, balanceOf_congr hsame.accounts]
    unfold freeFunds
    rw [hfunds, sumSlack_congr hsame.positions hmarks hsame.leverage]
    exact h a
  openAccount {e} b m h a := (h a).trans (freeFunds_openAccount e b m a)
  fill {e e' f₀ f config} h hparties hprice hcov happly a := by
    have hparties' : f.maker ≠ f.taker := by
      obtain ⟨_, _, _, _, rfl⟩ := priceFill_spec hprice
      exact hparties
    obtain ⟨hmark, hmaker, htaker⟩ := hcov
    obtain ⟨makerCost, takerCost, hm, ht, hfree⟩ := freeFunds_applyFill hparties' hmark happly
    have hmaker' := hmaker makerCost hm
    have htaker' := htaker takerCost ht
    have ha := h a
    have hfree' := hfree a
    by_cases ham : f.maker = a
    · have hat : f.taker ≠ a := fun h => hparties' (ham.trans h.symm)
      rw [if_pos ham, if_neg hat] at hfree'
      rw [ham] at hmaker'
      omega
    · rw [if_neg ham] at hfree'
      by_cases hat : f.taker = a
      · rw [if_pos hat] at hfree'
        rw [hat] at htaker'
        omega
      · rw [if_neg hat] at hfree'
        omega

/-- Placements and trigger checks with covered fills, cancellations, changes of margin mode
and deposits. -/
def MarginStep (e : Engine) (op : Op) : Prop :=
  match op with
  | .deposit _ n => 0 ≤ ofU128 n
  | op => OrderOp op ∧ StepSubmits (SubmitFills MarginCovered) e op

instance (e : Engine) : ∀ op, Decidable (MarginStep e op)
  | .deposit _ n => inferInstanceAs (Decidable (0 ≤ ofU128 n))
  | .placeOrder a q t => decidable_of_iff
    (StepSubmits (SubmitFills MarginCovered) e (.placeOrder a q t)) (and_iff_right trivial).symm
  | .checkTriggers m p t => decidable_of_iff
    (StepSubmits (SubmitFills MarginCovered) e (.checkTriggers m p t))
    (and_iff_right trivial).symm
  | .cancelOrder .. | .cancelAllOrders .. | .cancelTrigger .. | .setMarginMode .. =>
    .isTrue ⟨trivial, trivial⟩
  | .updateLeverage .. | .processFunding .. | .processLiquidations .. | .withdraw ..
  | .setUnified .. => .isFalse fun h => h.1

/-- A deposit adds to what an account has. -/
theorem freeFunds_deposit {e : Engine} {s : EngineState} {a : AccountAddress} {n : Nat}
    (hn : 0 ≤ ofU128 n) (h : e.state.deposit a n = .ok s) (b : AccountAddress) :
    freeFunds e b ≤ freeFunds { e with state := s } b := by
  have hbal : (balanceOf e.state b).getD 0 ≤ (balanceOf s b).getD 0 := by
    have hmod := modifyAccount_balance (d := ofU128 n) (fun x y hxy => by
      obtain ⟨v, hv, hxy⟩ := bind_inv hxy
      obtain rfl := pure_inv hxy
      exact (i128_eq_ok.mp hv).2.symm) h b
    rw [hmod, ← balanceOf_getOrCreateAccount e.state a b]
    cases balanceOf (e.state.getOrCreateAccount a) b with
    | none => exact le_rfl
    | some x =>
      simp only [Option.map_some, Option.getD_some]
      split <;> omega
  have hslack : sumSlack s b = sumSlack e.state b := by
    obtain ⟨_, rfl⟩ := deposit_only h
    rfl
  unfold freeFunds funds
  dsimp only
  rw [hslack]
  cases e.unifiedState with
  | none => exact (add_le_add_iff_right _).mpr hbal
  | some u =>
    dsimp only
    omega

/-- **Step lemma.** -/
theorem step_backed {e e' : Engine} {op : Op} (h : Backed e) (hok : MarginStep e op)
    (hstep : step op e = .ok e') : Backed e' := by
  cases op with
  | deposit a n =>
    obtain ⟨s, h1, rfl⟩ := onState_eq_ok (f := (·.deposit a n)) hstep
    exact fun b => (h b).trans (freeFunds_deposit hok h1 b)
  | _ => exact backed_keeps.step_induction h hok.1 hok.2 hstep

/-- A fresh engine has accounts without positions. -/
theorem Fresh.backed {e : Engine} (h : Fresh e)
    (hviews : ∀ u, e.unifiedState = some u → ∀ a, 0 ≤ u.coreRaw a 0) : Backed e := by
  intro a
  have hslack : sumSlack e.state a = 0 := by
    unfold sumSlack
    rw [h.no_positions]
    simp
  have hbal : balanceOf e.state a = none := by
    unfold balanceOf getAccount
    rw [h.no_accounts]
    simp
  unfold freeFunds funds
  rw [hslack, hbal]
  cases hu : e.unifiedState with
  | none => exact le_rfl
  | some u =>
    have := hviews u hu a
    simp only [Option.getD_none, add_zero]
    omega

/-- **Run theorem.** In a run of placements, cancellations and deposits in which every fill leaves
the mark price where it is and is covered by the free collateral that its parties have over all
their markets, the initial margin of no account exceeds its equity. Only fills move margin or
equity, and what one costs is known before it is applied (`marginCost`). -/
theorem margin_safe_of_covered_run {e₀ e : Engine} (h0 : Fresh e₀)
    (hviews : ∀ u, e₀.unifiedState = some u → ∀ a, 0 ≤ u.coreRaw a 0)
    (hrun : Run.Reaches step MarginStep e₀ e) {a : AccountAddress} {acc : AccountState}
    {margin equity : Decimal} (hacc : e.state.getAccount a = some acc)
    (hmargin : calculateInitialMargin (marginPositions e.state a) = .ok margin)
    (hequity : calculateEquity acc (forEquity (marginPositions e.state a)) = .ok equity) :
    margin.value ≤ equity.value := by
  have hbacked : Backed e := hrun.invariant (h0.backed hviews)
    fun _ _ _ h hok hstep => step_backed h hok hstep
  have hbal : balanceOf e.state a = some acc.balance := by
    unfold balanceOf
    rw [hacc]
    rfl
  refine margin_le_equity ?_ hmargin hequity
  have hfree := hbacked a
  unfold freeFunds funds at hfree
  rw [hbal] at hfree
  cases hu : e.unifiedState with
  | none =>
    rw [hu] at hfree
    exact hfree
  | some u =>
    rw [hu] at hfree
    simp only [Option.getD_some] at hfree
    omega

/-- Margin and equity of an account over all its positions. -/
def marginAndEquity (s : EngineState) (a : AccountAddress) :
    Exec (Option (Decimal × Decimal)) :=
  match s.getAccount a with
  | none => return none
  | some acc => do
    let margin ← calculateInitialMargin (marginPositions s a)
    let equity ← calculateEquity acc (forEquity (marginPositions s a))
    return some (margin, equity)

theorem marginAndEquity_eq_ok {s : EngineState} {a : AccountAddress} {margin equity : Decimal}
    (h : marginAndEquity s a = .ok (some (margin, equity))) :
    ∃ acc, s.getAccount a = some acc ∧
      calculateInitialMargin (marginPositions s a) = .ok margin ∧
      calculateEquity acc (forEquity (marginPositions s a)) = .ok equity := by
  unfold marginAndEquity at h
  split at h
  · exact absurd (pure_inv h) (by simp)
  · rename_i acc hacc
    obtain ⟨m, hm, h⟩ := bind_inv h
    obtain ⟨q, hq, h⟩ := bind_inv h
    obtain ⟨rfl, rfl⟩ := Prod.mk.inj (Option.some.inj (pure_inv h))
    exact ⟨acc, hacc, hm, hq⟩

/-- An order of account 1 is filled by account 2 within the margin. -/
theorem margin_safe_after_fill : ∃ (e₀ e : Engine) (acc : AccountState)
    (margin equity : Decimal), Fresh e₀ ∧ Run.Reaches step MarginStep e₀ e ∧
    e.state.getAccount 1 = some acc ∧
    calculateInitialMargin (marginPositions e.state 1) = .ok margin ∧
    calculateEquity acc (forEquity (marginPositions e.state 1)) = .ok equity ∧
    margin.value = 650000000 ∧ margin.value ≤ equity.value := by
  obtain ⟨⟨e₀, e⟩, hrun, htest⟩ := exists_of_test
    (x := btcCheckedFrom MarginStep [.deposit 1 2000000000, .deposit 2 2000000000,
      .placeOrder 1 (limitOrder .buy .gtc 6500000000000 10000000) 5,
      .placeOrder 2 (limitOrder .sell .gtc 6500000000000 10000000) 6])
    (p := fun x => yields (marginAndEquity x.2.state 1) fun r => decide (r.1.value = 650000000))
    (by decide +kernel)
  obtain ⟨h0, hnone, hreach⟩ := btcCheckedFrom_eq_ok hrun
  obtain ⟨⟨margin, equity⟩, hboth, hvalue⟩ := of_yields htest
  obtain ⟨acc, hacc, hmargin, hequity⟩ := marginAndEquity_eq_ok hboth
  refine ⟨e₀, e, acc, margin, equity, h0, hreach, hacc, hmargin, hequity,
    of_decide_eq_true hvalue, ?_⟩
  refine margin_safe_of_covered_run h0 (fun u hu => ?_) hreach hacc hmargin hequity
  rw [hnone] at hu
  cases hu

/-- Two orders of account 1, each within its free collateral of 660 USDC, are filled at the
mark price and leave it with a margin of 1300 USDC. -/
def overcommitted : List Op := [.deposit 1 660000000, .deposit 2 2000000000,
  .placeOrder 1 (limitOrder .buy .gtc 6500000000000 10000000) 5,
  .placeOrder 1 (limitOrder .buy .gtc 6500000000000 10000000) 6,
  .placeOrder 2 (limitOrder .sell .gtc 6500000000000 20000000) 7]

theorem margin_exceeds_equity : ∃ (e : Engine) (acc : AccountState) (margin equity : Decimal),
    btcRun none overcommitted = .ok e ∧ e.state.getAccount 1 = some acc ∧
    markOf e.state 0 = some ⟨6500000000000, 8⟩ ∧
    calculateInitialMargin (marginPositions e.state 1) = .ok margin ∧
    calculateEquity acc (forEquity (marginPositions e.state 1)) = .ok equity ∧
    margin.value = 1300000000 ∧ equity.value = 657400000 := by
  obtain ⟨e, hrun, htest⟩ := exists_of_test (x := btcRun none overcommitted)
    (p := fun e => yields (marginAndEquity e.state 1) fun r => decide (r.1.value = 1300000000 ∧
      r.2.value = 657400000 ∧ markOf e.state 0 = some ⟨6500000000000, 8⟩)) (by decide +kernel)
  obtain ⟨⟨margin, equity⟩, hboth, hvalues⟩ := of_yields htest
  obtain ⟨acc, hacc, hmargin, hequity⟩ := marginAndEquity_eq_ok hboth
  obtain ⟨h1, h2, h3⟩ := of_decide_eq_true hvalues
  exact ⟨e, acc, margin, equity, hrun, hacc, h3, hmargin, hequity, h1, h2⟩

end Engine

end Hypercore
