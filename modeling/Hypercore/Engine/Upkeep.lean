import Hypercore.Engine.Orders
/-!
# Hypercore.Engine.Upkeep

The block-end passes: funding, and liquidation with auto-deleverage.

Where the source iterates over a hash map and the order can matter (the worst
position of an account, ties in the deleverage ranking), the pass takes the order
as an argument (`HashOrder`). Splitting the liquidation candidates into batches of
64 does not change what is computed for each, and is not modelled.
-/

namespace Hypercore

open Exec Int128

namespace Engine

/-! ### Funding -/

/-- Settle the funding rate of one market if it is due. -/
def settleMarket (timestamp : Timestamp) (acc : List (MarketId × Decimal) × Engine)
    (marketId : MarketId) : Exec (List (MarketId × Decimal) × Engine) :=
  let (rates, e) := acc
  match e.state.getMarket marketId with
  | none => return (rates, e)
  | some market =>
    if market.state.nextFundingTime ≤ timestamp then do
      let rate ← e.funding.calculateFundingRate market.state market.state.indexPrice
      let e ← e.onState (·.modifyMarket marketId fun m => e.funding.settleFunding m rate timestamp)
      return (rates ++ [(marketId, rate)], e)
    else return (rates, e)

/-- Move a payment in the unified state: positive is paid, negative received. -/
def payUnified (u : UnifiedState) (account : AccountAddress) (payment paymentAbs : Decimal) :
    Exec UnifiedState :=
  if payment.isPositive then do
    let (_, u) ← u.debitCore account 0 paymentAbs
    return u
  else u.credit account 0 paymentAbs

/-- Settle the funding of one account in a market. -/
def settleAccount (marketId : MarketId) (rate accumulator : Decimal) (timestamp : Timestamp)
    (e : Engine) (account : AccountAddress) : Exec Engine :=
  match e.state.getPosition account marketId with
  | none => return e
  | some p =>
    if p.isEmpty then return e
    else do
      let (payment, p') ← p.settleFunding accumulator
      let s := e.state.setPosition account marketId p'
      if payment.isZero then return { e with state := s }
      else do
        let paymentAbs ← payment.abs
        let unifiedState ← onUnified e.unifiedState
          (payUnified · account payment paymentAbs)
        let s ← s.modifyAccount account fun acc => do
          let balance ← i128 (if payment.isPositive then acc.balance - paymentAbs.value
            else acc.balance + paymentAbs.value)
          return { acc with balance }
        let s := s.recordFundingPayment {
          marketId, account, timestamp
          payment := payment.value
          positionSize := p.size.value
          fundingRate := rate.value }
        return { e with state := s, unifiedState }

/-- Accounts with an open position in a market, in ascending order. -/
def holders (s : EngineState) (marketId : MarketId) : List AccountAddress :=
  s.positions.toList.filterMap fun p =>
    match p.2[marketId]? with
    | some pos => if pos.isEmpty then none else some p.1
    | none => none

/-- Settle the funding of all accounts of one market. -/
def settleHolders (timestamp : Timestamp) (e : Engine) (marketRate : MarketId × Decimal) :
    Exec Engine :=
  match e.state.getMarket marketRate.1 with
  | none => return e
  | some market => do
    let e ← (holders e.state marketRate.1).foldlM
      (settleAccount marketRate.1 marketRate.2 market.state.fundingAccumulator timestamp) e
    return { e with
      state := e.state.recordMarketFunding marketRate.1 timestamp marketRate.2.value }

/-- Process funding for all markets. -/
def processFunding (e : Engine) (timestamp : Timestamp) :
    Exec (List (MarketId × Decimal) × Engine) := do
  let (rates, e) ← e.state.getMarketIds.foldlM (settleMarket timestamp) ([], e)
  let e ← rates.foldlM (settleHolders timestamp) e
  return (rates, e)

/-! ### Finding liquidatable accounts -/

/-- `wrapping_mul`. -/
def wrappingMul (a b : Int) : Int := ofU128 (toU128 (a * b))

/-- The pre-screen of one position, on raw values at price scale. -/
def batchLiquidationCheck (mark entry size balance maint : Int) : Exec Bool :=
  let scale : Int := 10 ^ 8
  if size = 0 then return false
  else do
    let move ← i128 (mark - entry)
    let unrealizedPnl := (wrappingMul move size).tdiv scale
    let equity ← i128 (balance + unrealizedPnl)
    let notional ← i128 |(wrappingMul mark size).tdiv scale|
    let maintenanceMargin := (wrappingMul notional maint).tdiv scale
    return equity < maintenanceMargin

/-- A position considered for liquidation. -/
structure Candidate where
  account : AccountAddress
  marketId : MarketId
  position : Position
  market : Market

/-- All open positions with a market, of accounts that exist. -/
def candidates (ord : HashOrder) (s : EngineState) : List Candidate :=
  (ord.visit s.accounts.toList).flatMap fun acc =>
    (ord.visit (s.getAllPositions acc.1)).filterMap fun (marketId, position) =>
      if position.isEmpty then none
      else (s.getMarket marketId).map fun market => ⟨acc.1, marketId, position, market⟩

/-- Bring a candidate to price scale and pre-screen it. -/
def flagged (s : EngineState) (c : Candidate) : Exec Bool := do
  let mark ← c.market.state.markPrice.toDecimals 8
  let entry ← ((← c.position.entryPrice).getD c.market.state.markPrice).toDecimals 8
  let size ← c.position.size.toDecimals 8
  let balance ← (match s.getAccount c.account with
    | none => return (⟨0, 8⟩ : Decimal)
    | some a => (⟨a.balance, 6⟩ : Decimal).toDecimals 8)
  let maint ← c.market.config.maintenanceMarginRate.toDecimals 8
  batchLiquidationCheck mark.value entry.value size.value balance.value maint.value

/-- The least element by a key, the first on ties. -/
def minByKey {α : Type} : List (α × Int) → Option α
  | [] => none
  | (a, k) :: l => some (go a k l)
where
  go (a : α) (k : Int) : List (α × Int) → α
  | [] => a
  | (b, k') :: l => if k' < k then go b k' l else go a k l

/-- The open position with the most negative unrealized PnL. -/
def findWorstPosition (positions : List (Position × Market)) : Exec MarketId := do
  let keyed ← (positions.filter fun p => !p.1.isEmpty).mapM fun p => do
    let pnl ← RiskEngine.unrealized p
    return (p.2.id, pnl.value)
  return (minByKey keyed).getD 0

/-- Confirm a flagged candidate. The accumulator holds the pairs found and the
cross-margin accounts already confirmed. -/
def confirm (ord : HashOrder) (s : EngineState)
    (acc : List (AccountAddress × MarketId) × List AccountAddress) (c : Candidate) :
    Exec (List (AccountAddress × MarketId) × List AccountAddress) := do
  let (result, confirmed) := acc
  if !(← flagged s c) then return acc
  match s.getMarginMode c.account, s.getAccount c.account with
  | .isolated, none => return acc
  | .isolated, some a =>
    if ← RiskEngine.isLiquidatable a c.position c.market then
      return (result ++ [(c.account, c.marketId)], confirmed)
    else return acc
  | .cross, account =>
    if c.account ∈ confirmed then return acc
    else
      let all := (ord.visit (s.getAllPositions c.account)).filterMap fun (marketId, p) =>
        (s.getMarket marketId).map fun m => (p, m)
      match account with
      | none => return acc
      | some a =>
        if ← RiskEngine.isAccountLiquidatable a all then
          let worst ← findWorstPosition all
          return (result ++ [(c.account, worst)], confirmed ++ [c.account])
        else return acc

/-- Order of liquidations: by account and then market. -/
def pairLe (a b : AccountAddress × MarketId) : Prop := a.1 < b.1 ∨ (a.1 = b.1 ∧ a.2 ≤ b.2)

instance : DecidableRel pairLe := fun _ _ => inferInstanceAs (Decidable (_ ∨ _))

/-- The positions to liquidate. -/
def findUnderwaterAccounts (ord : HashOrder) (e : Engine) :
    Exec (List (AccountAddress × MarketId)) := do
  let (result, _) ← (candidates ord e.state).foldlM (confirm ord e.state) ([], [])
  return result.insertionSort pairLe

/-! ### Liquidation -/

/-- Profitable positions of a market with their score, highest first. The source
does not ask which side they are on, nor whose they are. -/
def adlCandidates (ord : HashOrder) (e : Engine) (marketId : MarketId) :
    Exec (List (AccountAddress × Decimal)) := do
  let scored ← (ord.visit e.state.positions.toList).filterMapM fun (addr, positions) =>
    match positions[marketId]?, e.state.getMarket marketId with
    | some pos, some market =>
      if pos.isEmpty then return none
      else do
        let score ← LiquidationEngine.calculateAdlScore pos market
          (e.state.getLeverage addr marketId)
        return if score.isPositive then some (addr, score) else none
    | _, _ => return none
  return scored.insertionSort fun a b => b.2.value ≤ a.2.value

/-- Force-close part of one candidate's position, for at most the deficit that
remains. -/
def deleverage (marketId : MarketId) (bankruptcyPrice : Decimal)
    (acc : EngineState × Decimal) (counter : AccountAddress × Decimal) :
    Exec (EngineState × Decimal) :=
  let (s, remainingDeficit) := acc
  if !remainingDeficit.isPositive then return acc
  else match s.getPosition counter.1 marketId with
    | none => return acc
    | some pos =>
      if pos.isEmpty then return acc
      else do
        let notional ← pos.notionalValue bankruptcyPrice
        let notionalUsdc ← notional.toDecimals 6
        let adlNotional := remainingDeficit.min notionalUsdc
        if notionalUsdc.isZero then return acc
        let adlRatio ← adlNotional.div notionalUsdc
        let absSize ← pos.absSize
        let adlSize ← absSize.mul (← adlRatio.toDecimals absSize.decimals)
        if adlSize.isZero then return acc
        let s ← s.modifyPosition counter.1 marketId fun p =>
          p.applyFill adlSize bankruptcyPrice pos.isShort
        let remainingDeficit ← remainingDeficit.sub adlNotional
        return (s, remainingDeficit)

/-- Auto-deleverage: close profitable positions until a deficit is covered. -/
def triggerAdl (ord : HashOrder) (e : Engine) (marketId : MarketId)
    (deficit bankruptcyPrice : Decimal) : Exec Engine := do
  let counters ← adlCandidates ord e marketId
  let (s, _) ← counters.foldlM (deleverage marketId bankruptcyPrice) (e.state, deficit)
  return { e with state := s }

/-- The difference between liquidation and bankruptcy price over the closed size: a
surplus when positive, a deficit when negative. -/
def residualUsdc (bankruptcy size price : Decimal) (isBuy : Bool) : Exec Decimal := do
  let perUnit ← (if isBuy then bankruptcy.sub price else price.sub bankruptcy)
  let residual ← perUnit.mul size
  residual.toDecimals 6

/-- Settle the residual: a surplus goes to the insurance fund, a deficit comes from it or
from auto-deleverage. -/
def settleResidual (ord : HashOrder) (e : Engine) (marketId : MarketId)
    (bankruptcy size price : Decimal) (isBuy : Bool) : Exec Engine := do
  let residual ← residualUsdc bankruptcy size price isBuy
  if residual.isPositive then e.onState (·.addToInsuranceFund residual.value)
  else if residual.isNegative then
    let deficit ← residual.neg
    let (covered, s) ← e.state.useInsuranceFund deficit.value
    if covered then return { e with state := s }
    else triggerAdl ord e marketId ⟨deficit.value, 6⟩ price
  else return e

/-- Apply one liquidation. -/
def applyLiquidation (ord : HashOrder) (e : Engine) (account : AccountAddress)
    (marketId : MarketId) (size price : Decimal) : Exec Engine :=
  let balance := e.state.getBalance account
  match e.state.getPosition account marketId with
  | none => return e
  | some position => do
    let isBuy := position.isShort
    let bankruptcyPrice ← LiquidationEngine.calculateBankruptcyPrice position balance
    let e ← (match bankruptcyPrice with
      | none => return e
      | some bankruptcy => settleResidual ord e marketId bankruptcy size price isBuy)
    let s ← e.state.modifyPosition account marketId fun p => p.applyFill size price isBuy
    return { e with state := s.cancelTriggerOrdersForPosition account marketId }

/-- A liquidation performed: account, market and size. -/
abbrev Liquidations := List (AccountAddress × MarketId × Decimal)

/-- Liquidate one position found underwater. -/
def liquidate (ord : HashOrder) (acc : Liquidations × Engine)
    (pair : AccountAddress × MarketId) : Exec (Liquidations × Engine) :=
  let (done, e) := acc
  match e.state.getMarket pair.2, e.state.getPosition pair.1 pair.2 with
  | some market, some position => do
    match ← e.liquidation.processLiquidation position market with
    | none => return acc
    | some (liqSize, liqPrice) =>
      let e ← applyLiquidation ord e pair.1 pair.2 liqSize liqPrice
      return (done ++ [(pair.1, pair.2, liqSize)], e)
  | _, _ => return acc

/-- Check and process liquidations. -/
def processLiquidations (ord : HashOrder) (e : Engine) : Exec (Liquidations × Engine) := do
  let underwater ← findUnderwaterAccounts ord e
  underwater.foldlM (liquidate ord) ([], e)

end Engine

end Hypercore
