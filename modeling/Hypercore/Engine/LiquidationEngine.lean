import Hypercore.Primitives.Market
import Hypercore.Primitives.Position
/-!
# Hypercore.Engine.LiquidationEngine

Size and price of a liquidation, the bankruptcy price, and the ranking of
auto-deleverage candidates.
-/

namespace Hypercore

open Exec Int128

/-- Liquidation engine. -/
structure LiquidationEngine where
  /-- Partial liquidation ratio. -/
  partialRatio : Decimal
  /-- Penalty applied to the liquidation price. -/
  liquidationSpread : Decimal
  deriving DecidableEq, Repr

namespace LiquidationEngine

/-- A liquidation engine with the standard spread of half a percent. -/
def new (partialRatio : Decimal) : LiquidationEngine := ⟨partialRatio, ⟨50000000, 10⟩⟩

/-- The size to liquidate: a fixed part of the position, at most all of it. -/
def calculateLiquidationSize (l : LiquidationEngine) (p : Position) : Exec Decimal := do
  let absSize ← p.absSize
  let partialSize ← absSize.mul (← l.partialRatio.toDecimals absSize.decimals)
  return partialSize.min absSize

/-- Liquidation price: below the mark price for longs, above it for shorts. -/
def calculateLiquidationPrice (l : LiquidationEngine) (p : Position) (m : Market) :
    Exec Decimal := do
  let mark := m.state.markPrice
  let spreadFactor ← l.liquidationSpread.toDecimals mark.decimals
  let one ← Decimal.fromInt 1 mark.decimals
  if p.isLong then mark.mul (← one.sub spreadFactor)
  else mark.mul (← one.add spreadFactor)

/-- Size and price of the liquidation of a position, `none` for an empty one. -/
def processLiquidation (l : LiquidationEngine) (p : Position) (m : Market) :
    Exec (Option (Decimal × Decimal)) :=
  if p.isEmpty then return none
  else do
    let liqSize ← l.calculateLiquidationSize p
    let liqPrice ← l.calculateLiquidationPrice p m
    return some (liqSize, liqPrice)

/-- Bankruptcy price: entry price less (longs) or plus (shorts) the balance per unit. -/
def calculateBankruptcyPrice (p : Position) (balance : Decimal) : Exec (Option Decimal) := do
  if p.isEmpty then return none
  match ← p.entryPrice with
  | none => return none
  | some entryPrice =>
    let balanceNorm ← balance.toDecimals entryPrice.decimals
    let perUnit ← balanceNorm.div (← p.absSize)
    let price ← (if p.isLong then entryPrice.sub perUnit else entryPrice.add perUnit)
    return some price

/-- Auto-deleverage ranking: profit ratio times leverage. -/
def calculateAdlScore (p : Position) (m : Market) (leverage : UInt8) : Exec Decimal := do
  let pnl ← p.unrealizedPnl m.state.markPrice
  let notional ← p.notionalValue m.state.markPrice
  if notional.isZero then return ⟨0, 10⟩
  let profitRatio ← (← pnl.toDecimals 10).div (← notional.toDecimals 10)
  profitRatio.mulInt leverage.toNat

end LiquidationEngine

end Hypercore
