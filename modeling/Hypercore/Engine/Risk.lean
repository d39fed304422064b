import Hypercore.Primitives.Market
import Hypercore.Primitives.Position
import Hypercore.Primitives.Types
/-!
# Hypercore.Engine.Risk

Risk and margin calculations: equity, margin, free collateral, and the checks an
order and a leverage change have to pass.
-/

namespace Hypercore

open Exec Int128

namespace RiskEngine

/-- Sum of a value over positions, each term brought to the USDC scale. -/
def sumUsdc {α : Type} (f : α → Exec Decimal) (l : List α) : Exec Decimal :=
  l.foldlM (fun acc x => do acc.add (← (← f x).toDecimals 6)) ⟨0, 6⟩

section Sum

variable {α : Type} {f : α → Exec Decimal} {l : List α}

/-- A term of a sum, on the USDC scale. -/
def usdcTerm (f : α → Exec Decimal) (x : α) : Int :=
  match (do (← f x).toDecimals 6 : Exec Decimal) with
  | .ok d => d.value
  | .error _ => 0

/-- What a sum is when the terms that return are known. -/
theorem sumUsdc_value {r : Decimal} {g : α → Int}
    (hg : ∀ x ∈ l, ∀ d c, f x = .ok d → d.toDecimals 6 = .ok c → c.value = g x)
    (h : sumUsdc f l = .ok r) : r = ⟨(l.map g).sum, 6⟩ := by
  have hall : ∀ (l : List α) (acc : Decimal),
      (∀ x ∈ l, ∀ d c, f x = .ok d → d.toDecimals 6 = .ok c → c.value = g x) →
      l.foldlM (fun acc x => do acc.add (← (← f x).toDecimals 6)) acc = .ok r →
      r = ⟨acc.value + (l.map g).sum, acc.decimals⟩ := by
    intro l
    induction l with
    | nil =>
      intro acc _ h
      obtain rfl := foldlM_nil_eq_ok.mp h
      simp
    | cons x l ih =>
      intro acc hg h
      obtain ⟨u, hu, h⟩ := foldlM_cons_eq_ok.mp h
      obtain ⟨d, hd, hu⟩ := bind_inv hu
      obtain ⟨c, hc, hu⟩ := bind_inv hu
      obtain ⟨-, rfl⟩ := Decimal.add_eq_ok.mp hu
      rw [ih _ (fun y hy => hg y (.tail _ hy)) h, List.map_cons, List.sum_cons,
        hg x (.head _) d c hd hc, add_assoc]
  simpa using hall l ⟨0, 6⟩ hg h

theorem sumUsdc_eq {r : Decimal} (h : sumUsdc f l = .ok r) :
    r = ⟨(l.map (usdcTerm f)).sum, 6⟩ := by
  refine sumUsdc_value (fun x _ d c hd hc => ?_) h
  unfold usdcTerm
  rw [hd, ok_bind, hc]

end Sum

/-- Unrealized PnL at the market's mark price. -/
def unrealized (p : Position × Market) : Exec Decimal :=
  p.1.unrealizedPnl p.2.state.markPrice

/-- Account equity: balance and total unrealized PnL. -/
def calculateEquity (account : AccountState) (positions : List (Position × Market)) :
    Exec Decimal := do
  let totalUnrealizedPnl ← sumUsdc unrealized positions
  (⟨account.balance, 6⟩ : Decimal).add totalUnrealizedPnl

/-- Total initial margin required, each position with its leverage. -/
def calculateInitialMargin (positions : List (Position × Market × UInt8)) : Exec Decimal :=
  sumUsdc (fun (p, m, l) => m.config.initialMargin p.size m.state.markPrice l) positions

/-- Total maintenance margin required. -/
def calculateMaintenanceMargin (positions : List (Position × Market)) : Exec Decimal :=
  sumUsdc (fun (p, m) => m.config.maintenanceMargin p.size m.state.markPrice) positions

/-- Positions without their leverage. -/
def forEquity (positions : List (Position × Market × UInt8)) : List (Position × Market) :=
  positions.map fun (p, m, _) => (p, m)

/-- Free collateral: equity less initial margin. -/
def calculateFreeCollateral (account : AccountState)
    (positions : List (Position × Market × UInt8)) : Exec Decimal := do
  let equity ← calculateEquity account (forEquity positions)
  let initialMargin ← calculateInitialMargin positions
  equity.sub (← initialMargin.toDecimals equity.decimals)

/-- What may be withdrawn with a given free collateral. -/
def withdrawable (account : AccountState) (freeCollateral : Decimal) : Decimal :=
  if freeCollateral.isPositive then
    freeCollateral.min ((⟨account.balance, 6⟩ : Decimal).max ⟨0, 6⟩)
  else ⟨0, 6⟩

/-- Full margin summary. -/
def calculateMarginSummary (account : AccountState)
    (positions : List (Position × Market × UInt8)) : Exec MarginSummary := do
  let equity ← calculateEquity account (forEquity positions)
  let initialMargin ← calculateInitialMargin positions
  let maintenanceMargin ← calculateMaintenanceMargin (forEquity positions)
  let totalPositionValue ← sumUsdc
    (fun (p, m, _) => p.notionalValue m.state.markPrice) positions
  let freeCollateral ← equity.sub (← initialMargin.toDecimals equity.decimals)
  return {
    accountValue := equity.value
    totalPositionValue := toU128 totalPositionValue.value
    totalInitialMargin := toU128 initialMargin.value
    totalMaintenanceMargin := toU128 maintenanceMargin.value
    freeCollateral := freeCollateral.value
    withdrawable := toU128 (withdrawable account freeCollateral).value }

/-- Equity has fallen to the maintenance margin of the given positions. -/
def belowMaintenance (account : AccountState) (positions : List (Position × Market)) :
    Exec Bool := do
  let equity ← calculateEquity account positions
  let maintenanceMargin ← calculateMaintenanceMargin positions
  let maintenanceMargin ← maintenanceMargin.toDecimals equity.decimals
  return equity ≤ maintenanceMargin

/-- Whether one position makes its account liquidatable. -/
def isLiquidatable (account : AccountState) (position : Position) (market : Market) :
    Exec Bool :=
  if position.isEmpty then return false
  else belowMaintenance account [(position, market)]

/-- Whether an account is liquidatable in cross-margin mode. -/
def isAccountLiquidatable (account : AccountState) (positions : List (Position × Market)) :
    Exec Bool :=
  if positions = [] then return false else belowMaintenance account positions

/-- Check that an order can be placed with the available margin. -/
def checkOrderMargin (request : OrderRequest) (account : AccountState) (position : Position)
    (market : Market) (leverage : UInt8) : Exec (Except Error Unit) := do
  let orderNotional ← request.size.mul request.price
  let orderMargin ← orderNotional.div
    (← Decimal.fromInt leverage.toNat orderNotional.decimals)
  let freeCollateral ← calculateFreeCollateral account [(position, market, leverage)]
  if freeCollateral < (← orderMargin.toDecimals freeCollateral.decimals) then
    return .error (.insufficientMargin orderMargin.toStringTrimmed
      freeCollateral.toStringTrimmed)
  let newPositionNotional ←
    (← position.notionalValue market.state.markPrice).add orderNotional
  if market.config.maxPositionNotional < newPositionNotional then
    return .error (.maxPositionExceeded market.config.maxPositionNotional.toStringTrimmed)
  return .ok ()

/-- Check that a leverage change leaves enough equity. -/
def checkLeverageChange (account : AccountState) (position : Position) (market : Market)
    (newLeverage : UInt8) : Exec (Except Error Unit) := do
  let newInitialMargin ←
    market.config.initialMargin position.size market.state.markPrice newLeverage
  let equity ← calculateEquity account [(position, market)]
  if equity < (← newInitialMargin.toDecimals equity.decimals) then
    return .error .leverageWouldCauseLiquidation
  return .ok ()

end RiskEngine

end Hypercore
