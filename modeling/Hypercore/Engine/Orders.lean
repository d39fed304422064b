import Hypercore.Engine.Basic
import Mathlib.Data.List.Sort
/-!
# Hypercore.Engine.Orders

Placing and cancelling orders, leverage and margin mode, and trigger orders.

**Two mutually recursive calls.** `place_order` ends by checking the triggers,
and `check_triggers` places the orders it activates. `submitOrder` is everything
`place_order` does up to that check and calls nothing back; `placeOrderWith` adds
the check as a parameter, and `checkTriggersFuel` ties the knot with a bound on
the depth. A level of the recursion takes at least one trigger order out of the
state and puts none in, so one level more than there are trigger orders is
enough (`triggerCount`).

Every call returns the state it leaves behind also when it returns an error.
-/

namespace Hypercore

open Exec Int128

namespace Engine

/-- What a fallible engine call returns, with the engine it leaves. -/
abbrev Result (α : Type) := Except Error α × Engine

/-! ### Validation -/

/-- Validate price and size against the market configuration. -/
def validateOrder (request : OrderRequest) (config : MarketConfig) :
    Exec (Except Error Unit) := do
  if !(← config.validatePrice request.price) then
    return .error (.invalidPrice request.price.toStringTrimmed config.tickSize.toStringTrimmed)
  if !(← config.validateSize request.size) then
    return .error (.invalidSize request.size.toStringTrimmed config.lotSize.toStringTrimmed)
  if request.size < config.minOrderSize then
    return .error (.sizeTooSmall request.size.toStringTrimmed
      config.minOrderSize.toStringTrimmed)
  if config.maxOrderSize < request.size then
    return .error (.sizeTooLarge request.size.toStringTrimmed
      config.maxOrderSize.toStringTrimmed)
  return .ok ()

/-- A reduce-only request that would open or increase the position. -/
def wouldIncrease (request : OrderRequest) (position : Position) : Bool :=
  match request.side with
  | .buy => position.isLong || position.isEmpty
  | .sell => position.isShort || position.isEmpty

/-- Create the account if needed and copy its balance from the unified state. -/
def syncAccount (e : Engine) (account : AccountAddress) : Engine :=
  let s := e.state.getOrCreateAccount account
  match e.unifiedState with
  | none => { e with state := s }
  | some u =>
    match s.accounts[account]? with
    | none => { e with state := s }
    | some acc =>
      let acc := { acc with balance := (u.getCoreView account 0).value }
      { e with state := { s with accounts := s.accounts.insert account acc } }

/-- The engine after the bookkeeping that precedes the checks on the account. -/
def openAccount (e : Engine) (account : AccountAddress) (marketId : MarketId) : Engine :=
  let e := e.syncAccount account
  { e with state := e.state.getOrCreatePosition account marketId }

/-- The checks on account and position: reduce-only, or margin. -/
def checkAccount (e : Engine) (account : AccountAddress) (request : OrderRequest)
    (market : Market) : Exec (Except Error Unit) :=
  match e.state.getAccount account with
  | none => .error .panic
  | some accountState =>
    let position := (e.state.getPosition account request.marketId).getD .new
    if request.reduceOnly then
      return if wouldIncrease request position then .error .reduceOnlyViolation else .ok ()
    else
      RiskEngine.checkOrderMargin request accountState position market
        (e.state.getLeverage account request.marketId)

/-- Everything before the order gets its id: the market, the request, the account. -/
def prepareOrder (e : Engine) (account : AccountAddress) (request : OrderRequest) :
    Exec (Result Market) :=
  match e.state.getMarket request.marketId with
  | none => return (.error (.marketNotFound request.marketId), e)
  | some market =>
    if !market.state.isTradeable then
      return (.error (.marketPaused market.config.symbol), e)
    else do
      match ← validateOrder request market.config with
      | .error err => return (.error err, e)
      | .ok () =>
        let e := e.openAccount account request.marketId
        match ← e.checkAccount account request market with
        | .error err => return (.error err, e)
        | .ok () => return (.ok market, e)

/-! ### Execution -/

/-- The ids of the makers of some fills, each once, in order. -/
def makerIds (fills : List Fill) : List OrderId :=
  (fills.map (·.makerOrderId)).foldl
    (fun seen id => if id ∈ seen then seen else seen ++ [id]) []

/-- Bring the orders map and the account index in line with the book for the makers
of some fills: gone from the book, or partially filled. -/
def syncMakers (s : EngineState) (marketId : MarketId) (fills : List Fill) : EngineState :=
  match s.getOrderbook marketId with
  | none => s
  | some book =>
    let ids := makerIds fills
    let fullyFilled := ids.filter fun id => (book.get id).isNone
    let partiallyFilled := ids.filterMap fun id =>
      (book.get id).map fun o => (id, o.remainingSize)
    let s := fullyFilled.foldl (fun s id => (s.removeOrder marketId id).2) s
    partiallyFilled.foldl
      (fun s (id, remaining) => s.updateOrderRemaining marketId id remaining) s

/-- Settle a matched order: its makers, its fills, and what is left of it. -/
def settleOrder (e : Engine) (market : Market) (updated : Order) (fills : List Fill) :
    Exec (List Fill × Engine) := do
  let e := { e with state := syncMakers e.state updated.marketId fills }
  let (fills, e) ← settleFills market.config fills e
  if !updated.isFilled && updated.shouldRest then
    let e ← e.onState (·.addOrder updated)
    return (fills, e)
  else return (fills, e)

/-- Match an order in the book of its market and settle the result. -/
def executeOrder (e : Engine) (market : Market) (order : Order) :
    Exec (Result (Order × List Fill)) :=
  match e.state.getOrderbook order.marketId with
  | none => return (.error (.marketNotFound order.marketId), e)
  | some book => do
    let (r, book) ← MatchingEngine.processOrder order book
    let e := { e with state := e.state.setOrderbook order.marketId book }
    match r with
    | .error err => return (.error err, e)
    | .ok (updated, fills) =>
      let (fills, e) ← e.settleOrder market updated fills
      return (.ok (updated, fills), e)

/-- `place_order` up to the trigger check. -/
def submitOrder (e : Engine) (account : AccountAddress) (request : OrderRequest)
    (timestamp : Timestamp) : Exec (Result (Order × List Fill)) := do
  let (r, e) ← e.prepareOrder account request
  match r with
  | .error err => return (.error err, e)
  | .ok market =>
    let (orderId, s) ← e.state.takeOrderId
    let e := { e with state := s }
    let order := Order.new orderId account request timestamp
    if order.triggerPrice.isSome then
      return (.ok (order, []), { e with state := e.state.addTriggerOrder order })
    else e.executeOrder market order

/-- Activated trigger orders: the ones placed, each with its fills. -/
abbrev Triggered := List (Order × List Fill)

/-- Place an order, with the trigger check as a parameter. -/
def placeOrderWith (check : Engine → MarketId → Decimal → Timestamp → Exec (Triggered × Engine))
    (e : Engine) (account : AccountAddress) (request : OrderRequest) (timestamp : Timestamp) :
    Exec (Result (Order × List Fill)) := do
  let (r, e) ← e.submitOrder account request timestamp
  match r with
  | .error err => return (.error err, e)
  | .ok (order, fills) =>
    if fills = [] then return (.ok (order, fills), e)
    else
      let markPrice :=
        ((e.state.getMarket request.marketId).map (·.state.markPrice)).getD Decimal.default
      if markPrice.isZero then return (.ok (order, fills), e)
      else
        let (_, e) ← check e request.marketId markPrice timestamp
        return (.ok (order, fills), e)

/-! ### Triggers -/

/-- The request that an activated trigger order becomes. -/
def triggerRequest (o : Order) : OrderRequest where
  marketId := o.marketId
  side := o.side
  price := o.price
  size := o.remainingSize
  orderType := o.orderType
  reduceOnly := o.reduceOnly
  clientOrderId := o.clientOrderId
  triggerPrice := none
  triggerDirection := none

/-- Take the trigger orders that a mark price reaches out of the state, by order id. -/
def takeTriggered (e : Engine) (marketId : MarketId) (markPrice : Decimal) :
    List Order × Engine :=
  let (above, s) := e.state.getTriggeredOrders .above marketId markPrice
  let (below, s) := s.getTriggeredOrders .below marketId markPrice
  ((above ++ below).insertionSort fun a b => a.id ≤ b.id, { e with state := s })

/-- Place taken trigger orders one after the other; failures are only logged. -/
def activate
    (place : Engine → AccountAddress → OrderRequest → Timestamp →
      Exec (Result (Order × List Fill)))
    (timestamp : Timestamp) : List Order → Engine → Exec (Triggered × Engine)
  | [], e => return ([], e)
  | o :: os, e => do
    let (r, e) ← place e o.owner (triggerRequest o) timestamp
    let (rest, e) ← activate place timestamp os e
    match r with
    | .ok placed => return (placed :: rest, e)
    | .error _ => return (rest, e)

/-- Check and activate trigger orders, to a bounded depth. -/
def checkTriggersFuel : Nat → Engine → MarketId → Decimal → Timestamp →
    Exec (Triggered × Engine)
  | 0, _, _, _, _ => .error .diverge
  | fuel + 1, e, marketId, newMarkPrice, timestamp =>
    let (triggered, e) := e.takeTriggered marketId newMarkPrice
    activate (placeOrderWith (checkTriggersFuel fuel)) timestamp triggered e

/-- The number of stored trigger orders. -/
def triggerCount (s : EngineState) : Nat :=
  let count (m : FinMap MarketId TriggerMap) :=
    (m.toList.map fun p => (p.2.toList.map fun q => q.2.length).sum).sum
  count s.triggerOrdersAbove + count s.triggerOrdersBelow

/-- Check and activate trigger orders after a mark price update. -/
def checkTriggers (e : Engine) (marketId : MarketId) (newMarkPrice : Decimal)
    (timestamp : Timestamp) : Exec (Triggered × Engine) :=
  checkTriggersFuel (triggerCount e.state + 1) e marketId newMarkPrice timestamp

/-- Process an order. -/
def placeOrder (e : Engine) (account : AccountAddress) (request : OrderRequest)
    (timestamp : Timestamp) : Exec (Result (Order × List Fill)) :=
  placeOrderWith (checkTriggersFuel (triggerCount e.state + 1)) e account request timestamp

/-! ### Cancellation and settings -/

/-- Cancel one order whose record is known. -/
def cancelRecord (e : Engine) (marketId : MarketId) (orderId : OrderId) (order : Order) :
    Result Order :=
  let s := (e.state.removeOrder marketId orderId).2
  let (r, m) := e.matching.removeFromBook marketId order
  (r.map fun _ => order.cancel, { e with state := s, matching := m })

/-- Cancel an order. -/
def cancelOrder (e : Engine) (account : AccountAddress) (marketId : MarketId)
    (orderId : OrderId) : Result Order :=
  match e.state.getOrder marketId orderId with
  | none => (.error (.orderNotFound orderId), e)
  | some order =>
    if order.owner ≠ account then (.error .orderNotOwned, e)
    else e.cancelRecord marketId orderId order

/-- Cancel the given orders until one fails. -/
def cancelRecords (marketId : MarketId) : List Order → Engine → Result (List Order)
  | [], e => (.ok [], e)
  | o :: os, e =>
    match e.cancelRecord marketId o.id o with
    | (.error err, e) => (.error err, e)
    | (.ok c, e) =>
      let (r, e) := cancelRecords marketId os e
      (r.map (c :: ·), e)

/-- Cancel all orders of an account in a market. -/
def cancelAllOrders (e : Engine) (account : AccountAddress) (marketId : MarketId) :
    Result (List Order) :=
  cancelRecords marketId (e.state.getOrdersByAccount account marketId) e

/-- Update leverage for an account in a market. -/
def updateLeverage (e : Engine) (account : AccountAddress) (marketId : MarketId)
    (newLeverage : UInt8) : Exec (Result Unit) :=
  match e.state.getMarket marketId with
  | none => return (.error (.marketNotFound marketId), e)
  | some market =>
    if newLeverage < 1 ∨ market.config.maxLeverage < newLeverage then
      return (.error (.invalidLeverage newLeverage market.config.maxLeverage), e)
    else
      let set := { e with state := e.state.setLeverage account marketId newLeverage }
      match e.state.getPosition account marketId with
      | none => return (.ok (), set)
      | some pos =>
        if pos.isEmpty then return (.ok (), set)
        else match e.state.getAccount account with
          | none => return (.error (.internal "Account not found"), e)
          | some accountState => do
            match ← RiskEngine.checkLeverageChange accountState pos market newLeverage with
            | .error err => return (.error err, e)
            | .ok () => return (.ok (), set)

/-- Set the margin mode; not with open positions. -/
def setMarginMode (e : Engine) (account : AccountAddress) (mode : MarginMode) : Result Unit :=
  if (e.state.getAllPositions account).any fun p => !p.2.isEmpty then
    (.error (.internal "Cannot change margin mode with open positions"), e)
  else (.ok (), { e with state := e.state.setMarginMode account mode })

end Engine

end Hypercore
