import Hypercore.Primitives.Market
/-!
# Hypercore.Engine.Funding

Funding rate calculation and settlement of a market.
-/

namespace Hypercore

open Exec Int128

/-- Funding engine for rate calculation and settlement. -/
structure FundingEngine where
  fundingIntervalSecs : Nat
  /-- Maximum funding rate per interval. -/
  maxFundingRate : Decimal
  deriving DecidableEq, Repr

namespace FundingEngine

/-- Clamp a funding rate to the allowed range. -/
def clampRate (f : FundingEngine) (rate : Decimal) : Exec Decimal := do
  let max := f.maxFundingRate
  let min ← max.neg
  if max < rate then return max
  else if rate < min then return min
  else return rate

/-- Funding rate: the premium `(mark - index) / index`, clamped. -/
def calculateFundingRate (f : FundingEngine) (m : MarketState) (indexPrice : Decimal) :
    Exec Decimal :=
  if indexPrice.isZero then return ⟨0, 10⟩
  else do
    let mark ← m.markPrice.toDecimals 10
    let index ← indexPrice.toDecimals 10
    let premium ← (← mark.sub index).div index
    f.clampRate premium

/-- Settle funding for a market: accumulate the rate, schedule the next settlement. -/
def settleFunding (f : FundingEngine) (m : MarketState) (fundingRate : Decimal)
    (currentTime : Timestamp) : Exec MarketState := do
  let fundingDelta ← fundingRate.mul (← m.markPrice.toDecimals fundingRate.decimals)
  let fundingAccumulator ← m.fundingAccumulator.add fundingDelta
  let interval ← u64 (f.fundingIntervalSecs * 1000)
  let nextFundingTime ← u64 (currentTime + interval)
  return { m with fundingAccumulator, fundingRate, nextFundingTime }

end FundingEngine

end Hypercore
