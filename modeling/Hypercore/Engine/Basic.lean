import Hypercore.Engine.State
import Hypercore.Engine.Risk
import Hypercore.Engine.Funding
import Hypercore.Engine.LiquidationEngine
import Hypercore.Primitives.UnifiedState
/-!
# Hypercore.Engine.Basic

The engine, and what applying one fill does to it.

The source's engine keeps a handle on the shared balance sheet; here the sheet is
a field (`unifiedState`), put in before a call and read back after it.
-/

namespace Hypercore

open Exec Int128

/-- Engine configuration. -/
structure EngineConfig where
  fundingIntervalSecs : Nat
  /-- Maximum funding rate per interval. -/
  maxFundingRate : Decimal
  /-- Liquidation partial size. -/
  liquidationPartialRatio : Decimal
  deriving DecidableEq, Repr

/-- Eight hours, 0.05% and 25%. -/
def EngineConfig.default : EngineConfig := ⟨28800, ⟨5000000, 10⟩, ⟨2500000000, 10⟩⟩

/-- Main engine orchestrating all components. -/
structure Engine where
  config : EngineConfig
  state : EngineState
  matching : MatchingEngine
  funding : FundingEngine
  liquidation : LiquidationEngine
  /-- Shared balances, when the engine reads margin from them. -/
  unifiedState : Option UnifiedState

namespace Engine

/-- Create a new engine instance. -/
def new (config : EngineConfig) : Engine where
  config := config
  state := .new
  matching := .new
  funding := ⟨config.fundingIntervalSecs, config.maxFundingRate⟩
  liquidation := .new config.liquidationPartialRatio
  unifiedState := none

/-- Create a new engine with shared unified state. -/
def withUnifiedState (config : EngineConfig) (u : UnifiedState) : Engine :=
  { new config with unifiedState := some u }

/-- Initialize a market. -/
def addMarket (e : Engine) (config : MarketConfig) (initialPrice : Decimal)
    (timestamp : Timestamp) : Exec Engine := do
  let interval ← u64 (e.config.fundingIntervalSecs * 1000)
  let fundingTime ← u64 (timestamp + interval)
  return { e with
    state := e.state.addMarket (.new config initialPrice fundingTime)
    matching := e.matching.addOrderbook config.id }

/-- Run a state update. -/
def onState (e : Engine) (f : EngineState → Exec EngineState) : Exec Engine := do
  let state ← f e.state
  return { e with state }

/-! ### Applying a fill -/

/-- A fill's size as a decimal. -/
def fillSize (fill : Fill) : Decimal := ⟨ofU128 fill.size, 8⟩

/-- A fill's price as a decimal. -/
def fillPrice (fill : Fill) : Decimal := ⟨ofU128 fill.price, 8⟩

/-- Change of long and short open interest when one position's size changes. -/
def oiDelta (before after : Decimal) : Exec (Decimal × Decimal) := do
  let zero : Decimal := ⟨0, 8⟩
  let longBefore := if before.isPositive then before else zero
  let longAfter := if after.isPositive then after else zero
  let shortBefore ← (if before.isNegative then before.neg else pure zero)
  let shortAfter ← (if after.isNegative then after.neg else pure zero)
  let deltaLong ← longAfter.sub longBefore
  let deltaShort ← shortAfter.sub shortBefore
  return (deltaLong, deltaShort)

/-- Size of a position, zero without one. -/
def sizeOf (s : EngineState) (a : AccountAddress) (marketId : MarketId) : Decimal :=
  ((s.getPosition a marketId).map (·.size)).getD ⟨0, 8⟩

/-- Update both positions of a fill, and open interest by their changes of size. -/
def fillPositions (s : EngineState) (fill : Fill) : Exec EngineState := do
  let makerBefore := sizeOf s fill.maker fill.marketId
  let takerBefore := sizeOf s fill.taker fill.marketId
  let s ← s.modifyPosition fill.maker fill.marketId fun p =>
    p.applyFill (fillSize fill) (fillPrice fill) (!fill.isTakerBuy)
  let s ← s.modifyPosition fill.taker fill.marketId fun p =>
    p.applyFill (fillSize fill) (fillPrice fill) fill.isTakerBuy
  let (makerLong, makerShort) ← oiDelta makerBefore (sizeOf s fill.maker fill.marketId)
  let deltaLong ← (⟨0, 8⟩ : Decimal).add makerLong
  let deltaShort ← (⟨0, 8⟩ : Decimal).add makerShort
  let (takerLong, takerShort) ← oiDelta takerBefore (sizeOf s fill.taker fill.marketId)
  let deltaLong ← deltaLong.add takerLong
  let deltaShort ← deltaShort.add takerShort
  s.modifyMarket fill.marketId fun m => m.updateOpenInterest deltaLong deltaShort

/-- Subtract a fee from the engine's own balance of an account. -/
def subBalance (s : EngineState) (a : AccountAddress) (fee : Int) : Exec EngineState :=
  s.modifyAccount a fun acc => do
    let balance ← i128 (acc.balance - fee)
    return { acc with balance }

/-- Deduct the fees from the unified state. A negative maker fee is a rebate. -/
def chargeUnified (u : UnifiedState) (fill : Fill) : Exec UnifiedState := do
  let u ← (
    if fill.makerFee > 0 then do
      let (_, u) ← u.debitCore fill.maker 0 ⟨fill.makerFee, 6⟩
      return u
    else if fill.makerFee < 0 then do
      let rebate ← i128 (-fill.makerFee)
      u.credit fill.maker 0 ⟨rebate, 6⟩
    else return u)
  if fill.takerFee > 0 then do
    let (_, u) ← u.debitCore fill.taker 0 ⟨ofU128 fill.takerFee, 6⟩
    return u
  else return u

/-- A change of the unified state, when the engine has one. -/
def onUnified (u : Option UnifiedState) (f : UnifiedState → Exec UnifiedState) :
    Exec (Option UnifiedState) :=
  match u with
  | none => return none
  | some u => do
    let u ← f u
    return some u

/-- Cancel the trigger orders of an account whose position is flat. -/
def cancelTriggersIfFlat (s : EngineState) (a : AccountAddress) (marketId : MarketId) :
    EngineState :=
  match s.getPosition a marketId with
  | none => s
  | some p => if p.isEmpty then s.cancelTriggerOrdersForPosition a marketId else s

/-- Last trade time and mark price after a fill. -/
def fillMarket (s : EngineState) (fill : Fill) : Exec EngineState := do
  let s ← s.modifyMarket fill.marketId fun m =>
    return { m with lastTradeTime := fill.timestamp }
  s.updateMarkPrice fill.marketId (fillPrice fill)

/-- Record a fill, then drop the triggers of parties that are now flat. -/
def fillRecord (s : EngineState) (fill : Fill) : EngineState :=
  let s := s.recordFill fill
  let s := cancelTriggersIfFlat s fill.taker fill.marketId
  cancelTriggersIfFlat s fill.maker fill.marketId

/-- Apply a fill. The source's version returns a `Result` that is always `Ok`. -/
def applyFill (e : Engine) (fill : Fill) : Exec Engine := do
  let s ← fillPositions e.state fill
  let s ← subBalance s fill.maker fill.makerFee
  let s ← subBalance s fill.taker (ofU128 fill.takerFee)
  let unifiedState ← onUnified e.unifiedState (chargeUnified · fill)
  let s ← fillMarket s fill
  return { e with state := fillRecord s fill, unifiedState }

/-- The realized PnL a fill brings to one party, zero without a position. -/
def previewPnl (s : EngineState) (a : AccountAddress) (fill : Fill) (isBuy : Bool)
    (current : Int) : Exec Int :=
  match s.getPosition a fill.marketId with
  | none => return current
  | some p => do
    let pnl ← p.calculateFillPnl (fillSize fill) (fillPrice fill) isBuy
    return pnl.value

/-- Fill in the realized PnL and the fees of a fill. -/
def priceFill (s : EngineState) (config : MarketConfig) (fill : Fill) : Exec Fill := do
  let realizedPnlMaker ← previewPnl s fill.maker fill (!fill.isTakerBuy) fill.realizedPnlMaker
  let realizedPnlTaker ← previewPnl s fill.taker fill fill.isTakerBuy fill.realizedPnlTaker
  let notional ← (fillSize fill).mul (fillPrice fill)
  let notionalUsdc ← notional.toDecimals 6
  let makerFee ← config.makerFee notionalUsdc
  let takerFee ← config.takerFee notionalUsdc
  return { fill with
    realizedPnlMaker, realizedPnlTaker
    makerFee := makerFee.value
    takerFee := toU128 takerFee.value }

/-- Price and apply fills one after the other. -/
def settleFills (config : MarketConfig) : List Fill → Engine → Exec (List Fill × Engine)
  | [], e => return ([], e)
  | fill :: fills, e => do
    let fill ← priceFill e.state config fill
    let e ← e.applyFill fill
    let (fills, e) ← settleFills config fills e
    return (fill :: fills, e)

end Engine

end Hypercore
