import Hypercore.Engine.Margin
/-!
# Hypercore.Engine.LeverageChange

What a change of leverage does to the margin of an account.

`update_leverage` compares the margin that one position will need with the engine's own copy of
the balance and the PnL of that position. Placing an order copies the balance from the unified
state first; this does not, and neither looks at the other markets. So a change that passes can
raise the total initial margin above the equity. It does not exactly when what it adds is within
the free collateral over all markets (`ChangeCovered`).
-/

namespace Hypercore

open Exec Int128

namespace RiskEngine

open Engine Position

/-! ### Margin in numbers -/

/-- Initial margin of a position, in micro-USDC. -/
def marginValue (p : Position) (mark : Decimal) (leverage : UInt8) : Int :=
  toUsdc (((|p.size.value| * mark.value).tdiv (10 ^ mark.decimals) * 10 ^ 8).tdiv
    (leverage.toNat * 10 ^ 8))

/-- Initial margin of a position at the leverage it has. -/
def marginOf (x : Position × Market × UInt8) : Int :=
  marginValue x.1 x.2.1.state.markPrice x.2.2

/-- Unrealized PnL of a position, in micro-USDC. -/
def pnlOf (x : Position × Market × UInt8) : Int := toUsdc (x.1.rawPnl x.2.1.state.markPrice)

section Numbers

variable {p : Position} {market : Market} {l : UInt8}

theorem initialMargin_value {margin c : Decimal} (hp : p.WF)
    (h : market.config.initialMargin p.size market.state.markPrice l = .ok margin)
    (hc : margin.toDecimals 6 = .ok c) : c.value = marginValue p market.state.markPrice l := by
  obtain ⟨size, hsize, h⟩ := bind_inv h
  obtain ⟨notional, hnotional, h⟩ := bind_inv h
  obtain ⟨leverage, hleverage, h⟩ := bind_inv h
  obtain ⟨-, rfl⟩ := Decimal.abs_eq_ok.mp hsize
  obtain ⟨-, -, rfl⟩ := Decimal.mul_eq_ok.mp hnotional
  obtain ⟨-, -, rfl⟩ := Decimal.fromInt_eq_ok.mp hleverage
  have hmargin := (Decimal.div_eq_ok.mp h).2.2.2.2
  dsimp only at hmargin
  rw [hp.size] at hmargin
  rw [toDecimals_usdc (by rw [hmargin]) hc, hmargin]
  rfl

theorem marginOf_empty (hp : p.isEmpty = true) : marginOf (p, market, l) = 0 := by
  have hsize : p.size.value = 0 := by simpa [isEmpty] using hp
  simp [marginOf, marginValue, toUsdc, hsize]

theorem pnlOf_empty (hp : p.isEmpty = true) : pnlOf (p, market, l) = 0 := by
  have hsize : p.size.value = 0 := by simpa [isEmpty] using hp
  simp [pnlOf, rawPnl, toUsdc, hsize]

end Numbers

end RiskEngine

namespace Engine

open EngineState RiskEngine Position

/-- Total initial margin over the open positions of an account, in micro-USDC. -/
def totalMargin (s : EngineState) (a : AccountAddress) : Int :=
  ((marginPositions s a).map marginOf).sum

/-- Total unrealized PnL over the open positions of an account, in micro-USDC. -/
def totalPnl (s : EngineState) (a : AccountAddress) : Int :=
  ((marginPositions s a).map pnlOf).sum

section Totals

variable {s : EngineState} {a : AccountAddress} {m : MarketId}

/-- Positions that enter a margin are well formed. -/
theorem marginPositions_wf (hwf : PositionsWF s) {x : Position × Market × UInt8}
    (hx : x ∈ marginPositions s a) : x.1.WF := by
  obtain ⟨⟨k, p⟩, hp, hx⟩ := List.mem_filterMap.mp hx
  dsimp only at hx
  split at hx
  · cases hx
  · obtain ⟨market, -, rfl⟩ := Option.map_eq_some_iff.mp hx
    exact hwf a k p (mem_getAllPositions.mp hp)

/-- The initial margin that the risk engine computes. -/
theorem calculateInitialMargin_total {margin : Decimal} (hwf : PositionsWF s)
    (h : calculateInitialMargin (marginPositions s a) = .ok margin) :
    margin.value = totalMargin s a := by
  obtain rfl := sumUsdc_value (g := marginOf)
    (fun x hx v c hv hc => initialMargin_value (marginPositions_wf hwf hx) hv hc) h
  rfl

/-- The equity that the risk engine computes. -/
theorem calculateEquity_total {acc : AccountState} {equity : Decimal} (hwf : PositionsWF s)
    (h : calculateEquity acc (forEquity (marginPositions s a)) = .ok equity) :
    equity.value = acc.balance + totalPnl s a := by
  obtain ⟨pnl, hpnl, h⟩ := bind_inv h
  obtain ⟨-, rfl⟩ := Decimal.add_eq_ok.mp h
  obtain rfl := sumUsdc_value (g := fun x => toUsdc (x.1.rawPnl x.2.state.markPrice))
    (fun x hx v c hv hc => by
      obtain ⟨y, hy, rfl⟩ := List.mem_map.mp hx
      exact unrealizedPnl_usdc (marginPositions_wf hwf hy) hv hc) hpnl
  rw [forEquity, List.map_map]
  rfl

/-- What a new leverage adds to the margin of the position in its market. -/
def marginChange (s : EngineState) (a : AccountAddress) (m : MarketId) (l : UInt8) : Int :=
  ((s.getPosition a m).bind fun p => (s.getMarket m).map fun market =>
    marginValue p market.state.markPrice l -
      marginValue p market.state.markPrice (s.getLeverage a m)).getD 0

/-- A new leverage leaves the PnL. -/
theorem totalPnl_setLeverage {l : UInt8} : totalPnl (s.setLeverage a m l) a = totalPnl s a := by
  unfold totalPnl
  rw [marginPositions_sum fun _ _ _ => pnlOf_empty, marginPositions_sum fun _ _ _ => pnlOf_empty]
  rfl

theorem getLeverage_setLeverage {l : UInt8} (k : MarketId) :
    (s.setLeverage a m l).getLeverage a k = if m = k then l else s.getLeverage a k := by
  unfold getLeverage setLeverage
  dsimp only
  rw [FinMap.get_insert_self, Option.bind_some, FinMap.get_insert]
  split
  · rfl
  · cases s.leverage[a]? <;> simp

/-- **Update rule.** A new leverage moves the total margin by what it does to the position in
its market. -/
theorem totalMargin_setLeverage {l : UInt8} :
    totalMargin (s.setLeverage a m l) a = totalMargin s a + marginChange s a m l := by
  unfold totalMargin marginChange
  rw [marginPositions_sum fun _ _ _ => marginOf_empty,
    marginPositions_sum fun _ _ _ => marginOf_empty]
  have hpositions : (s.setLeverage a m l).positions = s.positions := rfl
  have hmarkets : ∀ k, (s.setLeverage a m l).getMarket k = s.getMarket k := fun _ => rfl
  have hhere : ((s.positions[a]?).getD ∅)[m]? = s.getPosition a m := by
    unfold getPosition
    cases s.positions[a]? <;> simp
  rw [hpositions, FinMap.total_elsewhere (k := m)
    (g := fun k p => ((s.getMarket k).map fun market =>
      marginOf (p, market, s.getLeverage a k)).getD 0) fun k p hk => by
    rw [hmarkets, getLeverage_setLeverage, if_neg hk]]
  unfold FinMap.weight
  simp only [hhere, hmarkets, getLeverage_setLeverage, if_true]
  cases s.getPosition a m with
  | none => rfl
  | some p =>
    cases s.getMarket m with
    | none => rfl
    | some market => rfl

end Totals

/-! ### The change -/

/-- The total initial margin of an account is within its equity, on the live core balance: what
the risk engine computes (`calculateInitialMargin_total`, `calculateEquity_total`) for that
balance. -/
def Solvent (e : Engine) (u : UnifiedState) (a : AccountAddress) : Prop :=
  totalMargin e.state a ≤ u.coreRaw a 0 + totalPnl e.state a

instance (e : Engine) (u : UnifiedState) (a : AccountAddress) : Decidable (Solvent e u a) :=
  inferInstanceAs (Decidable (_ ≤ _))

/-- The call is refused: there is no such market, the leverage is out of its bounds, or the
account holds an open position there and is unknown, or the margin of that position would exceed
what the engine's copy of the balance and its PnL come to. -/
def LeverageRefused (e : Engine) (a : AccountAddress) (m : MarketId) (l : UInt8) : Prop :=
  ∀ market, e.state.getMarket m = some market →
    (l < 1 ∨ market.config.maxLeverage < l) ∨
    ∃ p, e.state.getPosition a m = some p ∧ p.isEmpty = false ∧
      ∀ account, e.state.getAccount a = some account →
        account.balance + toUsdc (p.rawPnl market.state.markPrice) <
          marginValue p market.state.markPrice l

/-- What the change adds to the margin is within the free collateral over all markets, on the
live core balance. -/
def ChangeCovered (e : Engine) (u : UnifiedState) (a : AccountAddress) (m : MarketId)
    (l : UInt8) : Prop :=
  marginChange e.state a m l ≤ u.coreRaw a 0 + totalPnl e.state a - totalMargin e.state a

instance (e : Engine) (u : UnifiedState) (a : AccountAddress) (m : MarketId) (l : UInt8) :
    Decidable (ChangeCovered e u a m l) := inferInstanceAs (Decidable (_ ≤ _))

section Change

variable {e e' : Engine} {u : UnifiedState} {a : AccountAddress} {m : MarketId} {l : UInt8}

/-- The check of one position. -/
theorem checkLeverageChange_cases {account : AccountState} {p : Position} {market : Market}
    {r : Except Error Unit} (hp : p.WF) (h : checkLeverageChange account p market l = .ok r) :
    (r = .error .leverageWouldCauseLiquidation ∧
      account.balance + toUsdc (p.rawPnl market.state.markPrice) <
        marginValue p market.state.markPrice l) ∨
    (r = .ok () ∧ marginValue p market.state.markPrice l ≤
      account.balance + toUsdc (p.rawPnl market.state.markPrice)) := by
  obtain ⟨margin, hmargin, h⟩ := bind_inv h
  obtain ⟨equity, hequity, h⟩ := bind_inv h
  obtain ⟨c, hc, h⟩ := bind_inv h
  obtain ⟨pnl, hpnl, hequity⟩ := bind_inv hequity
  obtain ⟨-, rfl⟩ := Decimal.add_eq_ok.mp hequity
  obtain rfl := sumUsdc_value (g := fun x => toUsdc (x.1.rawPnl x.2.state.markPrice))
    (fun x hx v w hv hw => by
      obtain rfl := List.mem_singleton.mp hx
      exact unrealizedPnl_usdc hp hv hw) hpnl
  have hvalue := initialMargin_value hp hmargin hc
  have hscale : c.decimals = 6 := Decimal.toDecimals_decimals hc
  rw [← hvalue]
  simp only [List.map_singleton, List.sum_singleton] at h
  split at h
  · rename_i hlt
    exact .inl ⟨(pure_inv h).symm, (Decimal.lt_iff_of_decimals hscale.symm).mp hlt⟩
  · rename_i hge
    exact .inr ⟨(pure_inv h).symm,
      not_lt.mp fun hlt => hge ((Decimal.lt_iff_of_decimals hscale.symm).mpr hlt)⟩

/-- **The call.** Refused, it leaves the engine as it is; otherwise it sets the leverage. -/
theorem updateLeverage_cases {r : Except Error Unit} (hwf : PositionsWF e.state)
    (h : e.updateLeverage a m l = .ok (r, e')) :
    (LeverageRefused e a m l ∧ r ≠ .ok () ∧ e' = e) ∨
    (¬ LeverageRefused e a m l ∧ r = .ok () ∧
      e' = { e with state := e.state.setLeverage a m l }) := by
  unfold updateLeverage at h
  cases hm : e.state.getMarket m with
  | none =>
    simp only [hm] at h
    obtain ⟨rfl, rfl⟩ := pair_inv h
    exact .inl ⟨fun market hmarket => by simp [hm] at hmarket, by simp, rfl⟩
  | some market =>
    simp only [hm] at h
    by_cases hbounds : l < 1 ∨ market.config.maxLeverage < l
    · rw [if_pos hbounds] at h
      obtain ⟨rfl, rfl⟩ := pair_inv h
      refine .inl ⟨fun market' hmarket => ?_, by simp, rfl⟩
      obtain rfl := Option.some.inj (hm.symm.trans hmarket)
      exact .inl hbounds
    · rw [if_neg hbounds] at h
      cases hp : e.state.getPosition a m with
      | none =>
        simp only [hp] at h
        obtain ⟨rfl, rfl⟩ := pair_inv h
        refine .inr ⟨fun hrefused => ?_, rfl, rfl⟩
        rcases hrefused market hm with hb | ⟨p, hp', -⟩
        · exact hbounds hb
        · simp [hp] at hp'
      | some p =>
        simp only [hp] at h
        cases hempty : p.isEmpty with
        | true =>
          rw [if_pos hempty] at h
          obtain ⟨rfl, rfl⟩ := pair_inv h
          refine .inr ⟨fun hrefused => ?_, rfl, rfl⟩
          rcases hrefused market hm with hb | ⟨p', hp', hopen, -⟩
          · exact hbounds hb
          · obtain rfl := Option.some.inj (hp.symm.trans hp')
            simp [hempty] at hopen
        | false =>
          rw [if_neg (by simp [hempty])] at h
          cases ha : e.state.getAccount a with
          | none =>
            simp only [ha] at h
            obtain ⟨rfl, rfl⟩ := pair_inv h
            refine .inl ⟨fun market' hmarket => .inr ⟨p, hp, hempty, fun account hacc => ?_⟩,
              by simp, rfl⟩
            simp [ha] at hacc
          | some account =>
            simp only [ha] at h
            obtain ⟨checked, hchecked, h⟩ := bind_inv h
            rcases checkLeverageChange_cases (hwf a m p hp) hchecked with
              ⟨rfl, hshort⟩ | ⟨rfl, henough⟩
            · obtain ⟨rfl, rfl⟩ := pair_inv h
              refine .inl ⟨fun market' hmarket => .inr ⟨p, hp, hempty, fun account' hacc => ?_⟩,
                by simp, rfl⟩
              obtain rfl := Option.some.inj (hm.symm.trans hmarket)
              obtain rfl := Option.some.inj (ha.symm.trans hacc)
              exact hshort
            · obtain ⟨rfl, rfl⟩ := pair_inv h
              refine .inr ⟨fun hrefused => ?_, rfl, rfl⟩
              rcases hrefused market hm with hb | ⟨p', hp', -, hshort⟩
              · exact hbounds hb
              · obtain rfl := Option.some.inj (hp.symm.trans hp')
                exact absurd henough (not_le.mpr (hshort account ha))

end Change

/-- **A change of leverage.** It keeps the account solvent, or leaves everything as it is when it
fails, exactly when it is refused, the account was not solvent before, or what it adds to the
margin is covered over all markets and on the live balance. -/
theorem leverage_keeps_solvent_iff {e e' : Engine} {u : UnifiedState} {a : AccountAddress}
    {m : MarketId} {l : UInt8} {r : Except Error Unit} (hr : Reachable e)
    (hu : e.unifiedState = some u) (h : e.updateLeverage a m l = .ok (r, e')) :
    e'.unifiedState = some u ∧
    (((r = .ok () → Solvent e u a → Solvent e' u a) ∧ (∀ err, r = .error err → e' = e)) ↔
      LeverageRefused e a m l ∨ ¬ Solvent e u a ∨ ChangeCovered e u a m l) := by
  rcases updateLeverage_cases hr.positionsWF h with
    ⟨hrefused, hne, rfl⟩ | ⟨haccepted, rfl, rfl⟩
  · exact ⟨hu, fun _ => .inl hrefused, fun _ => ⟨fun hok => absurd hok hne, fun _ _ => rfl⟩⟩
  · have hafter : Solvent { e with state := e.state.setLeverage a m l } u a ↔
        ChangeCovered e u a m l := by
      unfold Solvent ChangeCovered
      dsimp only
      rw [totalMargin_setLeverage, totalPnl_setLeverage]
      omega
    refine ⟨hu, ?_⟩
    rw [hafter]
    constructor
    · intro hkeeps
      by_cases hbefore : Solvent e u a
      · exact .inr (.inr (hkeeps.1 rfl hbefore))
      · exact .inr (.inl hbefore)
    · intro hcond
      refine ⟨fun _ hbefore => ?_, fun err herr => by cases herr⟩
      rcases hcond with hrefused | hinsolvent | hcovered
      · exact absurd hrefused haccepted
      · exact absurd hbefore hinsolvent
      · exact hcovered

/-- Account 1 buys 0.1 BTC at a leverage of ten, moves an amount to its EVM view, and changes
the leverage. -/
def leverageRun (amount : Int) (l : UInt8) :
    Exec ((Engine × UnifiedState) × Except Error Unit × Engine) := do
  let (e, u) ← viewTransferRun amount
  let done ← e.updateLeverage 1 0 l
  return ((e, u), done)

theorem leverageRun_eq_ok {amount : Int} {l : UInt8} {e e' : Engine} {u : UnifiedState}
    {r : Except Error Unit} (h : leverageRun amount l = .ok ((e, u), r, e')) :
    Reachable e ∧ e.unifiedState = some u ∧ e.updateLeverage 1 0 l = .ok (r, e') := by
  obtain ⟨⟨e₁, u₁⟩, h1, h⟩ := bind_inv h
  obtain ⟨done, h2, h⟩ := bind_inv h
  obtain ⟨hstate, rfl⟩ := pair_inv h
  obtain ⟨rfl, rfl⟩ := Prod.mk.inj hstate
  obtain ⟨hr, hu⟩ := viewTransferRun_eq_ok h1
  exact ⟨hr, hu, h2⟩

/-- With 1996.5 left in the core view, a leverage of five is covered: the margin of 1310 stays
within the equity of 1546.5. -/
theorem leverage_keeps_solvent_five : ∃ (e e' : Engine) (u : UnifiedState), Reachable e ∧
    e.updateLeverage 1 0 5 = .ok (.ok (), e') ∧ e'.unifiedState = some u ∧
    totalMargin e'.state 1 = 1310000000 ∧ Solvent e u 1 ∧ Solvent e' u 1 := by
  obtain ⟨⟨⟨e, u⟩, r, e'⟩, hrun, htest⟩ := exists_of_test (x := leverageRun 8000000000 5)
    (p := fun x => decide (x.2.1.isOk = true ∧ totalMargin x.2.2.state 1 = 1310000000 ∧
      Solvent x.1.1 x.1.2 1 ∧ ChangeCovered x.1.1 x.1.2 1 0 5)) (by decide +kernel)
  obtain ⟨hok, hmargin, hsolvent, hcovered⟩ := of_decide_eq_true htest
  obtain ⟨hreach, hu, h⟩ := leverageRun_eq_ok hrun
  obtain ⟨hu', hiff⟩ := leverage_keeps_solvent_iff hreach hu h
  cases r with
  | error err => cases hok
  | ok done =>
    have hafter := (hiff.mpr (.inr (.inr hcovered))).1 rfl hsolvent
    exact ⟨e, e', u, hreach, h, hu', hmargin, hsolvent, hafter⟩

/-- A leverage of one asks for 6550. The engine's copy of the balance, 9996.5, has it; the core
view of 1996.5 does not. -/
theorem leverage_breaks_solvency : ∃ (e e' : Engine) (u : UnifiedState), Reachable e ∧
    e.unifiedState = some u ∧ e.updateLeverage 1 0 1 = .ok (.ok (), e') ∧
    balanceOf e.state 1 = some 9996500000 ∧ u.coreRaw 1 0 = 1996500000 ∧
    totalMargin e'.state 1 = 6550000000 ∧ Solvent e u 1 ∧ ¬ Solvent e' u 1 := by
  obtain ⟨⟨⟨e, u⟩, r, e'⟩, hrun, htest⟩ := exists_of_test (x := leverageRun 8000000000 1)
    (p := fun x => decide (x.2.1.isOk = true ∧ balanceOf x.1.1.state 1 = some 9996500000 ∧
      x.1.2.coreRaw 1 0 = 1996500000 ∧ totalMargin x.2.2.state 1 = 6550000000 ∧
      Solvent x.1.1 x.1.2 1 ∧ ¬ Solvent x.2.2 x.1.2 1)) (by decide +kernel)
  obtain ⟨hok, hbal, hcore, hmargin, hsolvent, hbroken⟩ := of_decide_eq_true htest
  obtain ⟨hreach, hu, h⟩ := leverageRun_eq_ok hrun
  cases r with
  | error err => cases hok
  | ok done => exact ⟨e, e', u, hreach, hu, h, hbal, hcore, hmargin, hsolvent, hbroken⟩

end Engine

end Hypercore
