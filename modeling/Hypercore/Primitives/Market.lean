import Hypercore.Primitives.Order
/-!
# Hypercore.Primitives.Market

Perpetual markets: the static configuration and the state that trading moves.
-/

namespace Hypercore

open Exec Int128

/-- Market status. -/
inductive MarketStatus
  /-- Accepting orders. -/
  | active
  /-- No new orders, existing orders can be canceled. -/
  | paused
  | settling
  | settled
  deriving DecidableEq, Repr

/-- Market configuration (static parameters). -/
structure MarketConfig where
  id : MarketId
  /-- For example `BTC-PERP`. -/
  symbol : String
  /-- Minimum price increment. -/
  tickSize : Decimal
  /-- Minimum size increment. -/
  lotSize : Decimal
  minOrderSize : Decimal
  maxOrderSize : Decimal
  /-- Maximum position size (notional). -/
  maxPositionNotional : Decimal
  maxLeverage : UInt8
  maintenanceMarginRate : Decimal
  /-- Can be negative for a rebate. -/
  makerFeeRate : Decimal
  takerFeeRate : Decimal
  deriving DecidableEq, Repr

namespace MarketConfig

/-- `MarketConfig::new`. -/
def new (id : MarketId) (symbol : String) (maxLeverage : UInt8) : MarketConfig where
  id := id
  symbol := symbol
  tickSize := ⟨1000000, 8⟩
  lotSize := ⟨100000, 8⟩
  minOrderSize := ⟨100000, 8⟩
  maxOrderSize := ⟨1000000000000, 8⟩
  maxPositionNotional := ⟨10000000000000, 6⟩
  maxLeverage := maxLeverage
  maintenanceMarginRate := ⟨250000000, 10⟩
  makerFeeRate := ⟨2000000, 10⟩
  takerFeeRate := ⟨5000000, 10⟩

/-- `MarketConfig::btc_perp`. -/
def btcPerp : MarketConfig where
  id := 0
  symbol := "BTC-PERP"
  tickSize := ⟨10000000, 8⟩
  lotSize := ⟨100000, 8⟩
  minOrderSize := ⟨100000, 8⟩
  maxOrderSize := ⟨100000000000, 8⟩
  maxPositionNotional := ⟨10000000000000, 6⟩
  maxLeverage := 50
  maintenanceMarginRate := ⟨250000000, 10⟩
  makerFeeRate := ⟨2000000, 10⟩
  takerFeeRate := ⟨5000000, 10⟩

/-- `MarketConfig::eth_perp`. -/
def ethPerp : MarketConfig where
  id := 1
  symbol := "ETH-PERP"
  tickSize := ⟨1000000, 8⟩
  lotSize := ⟨1000000, 8⟩
  minOrderSize := ⟨1000000, 8⟩
  maxOrderSize := ⟨1000000000000, 8⟩
  maxPositionNotional := ⟨10000000000000, 6⟩
  maxLeverage := 50
  maintenanceMarginRate := ⟨250000000, 10⟩
  makerFeeRate := ⟨2000000, 10⟩
  takerFeeRate := ⟨5000000, 10⟩

/-- `a % b` on `i128`: halts on a zero divisor. -/
def rem (a b : Int) : Exec Int := if b = 0 then .error .panic else .ok (a.tmod b)

/-- Validate a price against the tick size. -/
def validatePrice (c : MarketConfig) (price : Decimal) : Exec Bool := do
  let r ← rem price.value c.tickSize.value
  return r = 0

/-- Validate a size against the lot size. -/
def validateSize (c : MarketConfig) (size : Decimal) : Exec Bool := do
  let r ← rem size.value c.lotSize.value
  return r = 0 ∧ c.minOrderSize ≤ size

/-- Initial margin required for a position. -/
def initialMargin (_ : MarketConfig) (size price : Decimal) (leverage : UInt8) :
    Exec Decimal := do
  let notional ← (← size.abs).mul price
  notional.div (← Decimal.fromInt leverage.toNat notional.decimals)

/-- A notional times a rate brought to the notional's scale. -/
def rateOf (notional rate : Decimal) : Exec Decimal := do
  notional.mul (← rate.toDecimals notional.decimals)

/-- Maintenance margin required. -/
def maintenanceMargin (c : MarketConfig) (size price : Decimal) : Exec Decimal := do
  let notional ← (← size.abs).mul price
  rateOf notional c.maintenanceMarginRate

def makerFee (c : MarketConfig) (notional : Decimal) : Exec Decimal :=
  rateOf notional c.makerFeeRate

def takerFee (c : MarketConfig) (notional : Decimal) : Exec Decimal :=
  rateOf notional c.takerFeeRate

end MarketConfig

/-- Market state (dynamic, changes with trading). -/
structure MarketState where
  markPrice : Decimal
  /-- Index price, from the oracle. -/
  indexPrice : Decimal
  fundingRate : Decimal
  fundingAccumulator : Decimal
  nextFundingTime : Timestamp
  openInterestLong : Decimal
  openInterestShort : Decimal
  status : MarketStatus
  lastTradeTime : Timestamp
  deriving DecidableEq, Repr

namespace MarketState

def new (initialPrice : Decimal) (fundingTime : Timestamp) : MarketState where
  markPrice := initialPrice
  indexPrice := initialPrice
  fundingRate := ⟨0, 10⟩
  fundingAccumulator := ⟨0, 10⟩
  nextFundingTime := fundingTime
  openInterestLong := ⟨0, 8⟩
  openInterestShort := ⟨0, 8⟩
  status := .active
  lastTradeTime := 0

def isTradeable (m : MarketState) : Bool := m.status = .active

/-- Update open interest after a trade. -/
def updateOpenInterest (m : MarketState) (deltaLong deltaShort : Decimal) :
    Exec MarketState := do
  let long ← m.openInterestLong.add deltaLong
  let short ← m.openInterestShort.add deltaShort
  return { m with openInterestLong := long, openInterestShort := short }

end MarketState

/-- Complete market (config + state). -/
structure Market where
  config : MarketConfig
  state : MarketState
  deriving DecidableEq, Repr

def Market.new (config : MarketConfig) (initialPrice : Decimal) (fundingTime : Timestamp) :
    Market := ⟨config, MarketState.new initialPrice fundingTime⟩

def Market.id (m : Market) : MarketId := m.config.id

end Hypercore
