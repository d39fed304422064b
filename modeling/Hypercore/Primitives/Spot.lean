import Hypercore.Primitives.Market
import Hypercore.Primitives.Types
/-!
# Hypercore.Primitives.Spot

Spot tokens and spot markets: what trading and view transfers read of them.

A token's name, supply, deployer and ERC-20 link are never read by either, and are
left out.
-/

namespace Hypercore

open Exec Int128

/-- Spot market id: 128 and above. -/
abbrev SpotMarketId := UInt8

/-- The result of a `u8` addition whose exact value is `n`. -/
def u8 (n : Nat) : Exec UInt8 := if n < 256 then .ok (UInt8.ofNat n) else .error .panic

/-- Spot token definition. -/
structure SpotToken where
  index : TokenIndex
  symbol : String
  /-- Decimals of the minimal unit. -/
  weiDecimals : UInt8
  /-- Tradable decimals on the order book. -/
  szDecimals : UInt8
  deriving DecidableEq, Repr

namespace SpotToken

/-- USDC, the native quote token. -/
def usdc : SpotToken := ⟨0, "USDC", 6, 0⟩

/-- Minimum tradable unit. -/
def lotSize (t : SpotToken) : Exec Int :=
  let n := 10 ^ (t.weiDecimals - t.szDecimals).toNat
  if n < 2 ^ 128 then .ok (ofU128 n) else .error .panic

end SpotToken

/-- Spot balance of an account in a token. -/
structure SpotBalance where
  /-- The core view. -/
  total : Decimal
  /-- Amount reserved in open orders. -/
  reserved : Decimal
  deriving DecidableEq, Repr

/-- Available balance (total less reserved). -/
def SpotBalance.available (b : SpotBalance) : Exec Decimal := b.total.sub b.reserved

/-- Spot market configuration. -/
structure SpotMarketConfig where
  id : SpotMarketId
  symbol : String
  baseToken : TokenIndex
  quoteToken : TokenIndex
  /-- Minimum price increment. -/
  tickSize : Decimal
  /-- Minimum size increment. -/
  lotSize : Decimal
  minOrderSize : Decimal
  maxOrderSize : Decimal
  /-- Can be negative for a rebate. -/
  makerFeeRate : Decimal
  takerFeeRate : Decimal
  isActive : Bool
  deriving DecidableEq, Repr

namespace SpotMarketConfig

/-- `i128::saturating_mul`. -/
def saturatingMul (a b : Int) : Int := max (-2 ^ 127) (min (a * b) (2 ^ 127 - 1))

/-- A new spot market for a token/USDC pair. -/
def newUsdcPair (base : SpotToken) (id : SpotMarketId) : Exec SpotMarketConfig := do
  let lotSizeRaw ← base.lotSize
  let wei := base.weiDecimals.toNat
  return {
    id
    symbol := base.symbol ++ "-USDC"
    baseToken := base.index
    quoteToken := 0
    tickSize := ⟨10000, 8⟩
    lotSize := ⟨lotSizeRaw, wei⟩
    minOrderSize := ⟨lotSizeRaw, wei⟩
    maxOrderSize := ⟨saturatingMul lotSizeRaw 1000000000000, wei⟩
    makerFeeRate := ⟨-2000000, 10⟩
    takerFeeRate := ⟨5000000, 10⟩
    isActive := true }

/-- Validate a price against the tick size. -/
def validatePrice (c : SpotMarketConfig) (price : Decimal) : Bool :=
  if c.tickSize.value = 0 then true else price.value.tmod c.tickSize.value = 0

/-- Validate a size against the lot size, on the scale of the latter. -/
def validateSize (c : SpotMarketConfig) (size : Decimal) : Exec Bool :=
  if c.lotSize.value = 0 then return true
  else do
    let normalized ← size.toDecimals c.lotSize.decimals
    return normalized.value.tmod c.lotSize.value = 0 ∧ c.minOrderSize.value ≤ normalized.value

/-- Maker fee (positive: pay, negative: rebate). -/
def makerFee (c : SpotMarketConfig) (notional : Decimal) : Exec Decimal :=
  MarketConfig.rateOf notional c.makerFeeRate

def takerFee (c : SpotMarketConfig) (notional : Decimal) : Exec Decimal :=
  MarketConfig.rateOf notional c.takerFeeRate

end SpotMarketConfig

/-- Spot market state. The best prices of the record are never written. -/
structure SpotMarketState where
  lastPrice : Option Decimal
  /-- 24h volume in quote (USDC). -/
  volume24h : Decimal
  /-- 24h volume in base. -/
  baseVolume24h : Decimal
  trades24h : Nat
  lastTradeTime : Timestamp
  deriving DecidableEq, Repr

/-- The derived default. -/
def SpotMarketState.default : SpotMarketState := ⟨none, .default, .default, 0, 0⟩

/-- Complete spot market. -/
structure SpotMarket where
  config : SpotMarketConfig
  state : SpotMarketState
  deriving DecidableEq, Repr

def SpotMarket.new (config : SpotMarketConfig) : SpotMarket := ⟨config, .default⟩

/-- Spot fill event. -/
structure SpotFill where
  marketId : SpotMarketId
  maker : AccountAddress
  taker : AccountAddress
  makerOrderId : OrderId
  takerOrderId : OrderId
  price : Decimal
  baseSize : Decimal
  /-- Price times base size. -/
  quoteSize : Decimal
  /-- Can be negative (rebate). -/
  makerFee : Decimal
  takerFee : Decimal
  timestamp : Timestamp
  isTakerBuy : Bool
  deriving DecidableEq, Repr

/-- Token deploy parameters. -/
structure SpotTokenDeployParams where
  symbol : String
  weiDecimals : UInt8
  szDecimals : UInt8
  maxSupply : Decimal
  genesisAllocations : List (AccountAddress × Decimal)

end Hypercore
