import Hypercore.Chain.State
/-!
# Hypercore.Chain.App

The application: executing a transaction, and the two ends of a block.

A handler returns the state it leaves also when it returns an error: what it has
done before the error stays. Events carry their attributes as data, not as text.
-/

namespace Hypercore

open Exec Int128

/-- Application errors that execution gives. -/
inductive AppError
  | txError (e : TransactionError)
  | stateError (e : AppState.StateError)
  | invalidAmount
  | internal (message : String)
  deriving DecidableEq, Repr

/-- Events of a transaction's result. -/
inductive Event
  | spotOrder (orderId : OrderId) (sender : AccountAddress) (marketId : MarketId) (fills : Nat)
  | spotOrderFailed (error : String) (marketId : MarketId)
  | perpFill (maker taker : AccountAddress) (price size : Nat) (marketId : MarketId)
  | perpOrder (orderId : OrderId) (sender : AccountAddress) (marketId : MarketId) (fills : Nat)
      (remaining : String)
  | perpOrderFailed (error : String) (marketId : MarketId)
  | perpOrderSkipped (sender : AccountAddress) (marketId : MarketId) (reason : String)
  | spotCancel (orderId : OrderId) (marketId : MarketId)
  | spotCancelFailed (orderId : OrderId) (error : String)
  | perpCancel (orderId : OrderId) (marketId : MarketId)
  | perpCancelFailed (orderId : OrderId) (error : String)
  | perpCancelSkipped (orderId : OrderId) (reason : String)
  | spotCancelByCloid (cloid : ClientOrderId) (orderId : OrderId) (marketId : MarketId)
  | perpCancelByCloid (cloid : ClientOrderId) (orderId : OrderId) (marketId : MarketId)
  | cancelCloidFailed (cloid : ClientOrderId) (error : String)
  | cancelCloidNotFound (cloid : ClientOrderId) (marketId : MarketId)
  | cancelAll (sender : AccountAddress) (spotCancelled perpCancelled : Nat)
  | spotCancelAll (sender : AccountAddress) (cancelled : Nat)
  | viewTransfer (sender : AccountAddress) (token : TokenIndex) (amount : String) (toEvm : Bool)
  | updateLeverage (asset : MarketId) (leverage : UInt8)
  | setMarginMode (sender : AccountAddress) (mode : MarginMode)
  | cancelTrigger (sender : AccountAddress) (orderId : OrderId)
  | usdTransfer (sender destination : AccountAddress) (amount : String)
  | withdraw (sender destination : AccountAddress) (amount : String)
  | evmDeposit (sender : AccountAddress) (token : TokenIndex)
      (amount newCoreView newEvmView : String)
  | evmWithdraw (sender : AccountAddress) (token : TokenIndex)
      (amount newCoreView newEvmView : String)
  | evmDepositNoData (sender : AccountAddress)
  | evmWithdrawNoData (sender : AccountAddress)
  | evmActionUnknown (actionType : UInt8)
  deriving DecidableEq, Repr

/-- What a handler returns, with the state it leaves. -/
abbrev Handled := Except AppError (List Event) × AppState

/-- Transaction result. -/
structure TxResult where
  success : Bool
  events : List Event
  gasUsed : Nat
  deriving DecidableEq, Repr

namespace AppState

/-! ### Orders -/

/-- The state of a batch of orders. -/
structure OrderBatch where
  app : AppState
  events : List Event
  /-- Client order ids of resting orders, to register at the end. -/
  cloidsToRegister : List (ClientOrderId × MarketId × OrderId)
  /-- Makers that are gone, whose client order ids are removed at the end. -/
  filledOrderCloids : List (MarketId × OrderId)

/-- The side of the maker and of the taker. -/
def tradeSides (isTakerBuy : Bool) : OrderSide × OrderSide :=
  if isTakerBuy then (.sell, .buy) else (.buy, .sell)

/-- The two block events of a spot fill. -/
def recordSpotFill (s : AppState) (fill : SpotFill) : Exec AppState := do
  let (tradeId, s) ← s.takeTradeId
  let (makerSide, takerSide) := tradeSides fill.isTakerBuy
  let event (orderId : OrderId) (account : AccountAddress) (side : OrderSide) (fee : Decimal)
      (isTaker : Bool) : BlockEvent := .fill {
    tradeId, orderId, account, side, fee, isTaker
    marketId := fill.marketId
    price := fill.price
    size := fill.baseSize
    realizedPnl := 0
    timestamp := fill.timestamp }
  return (s.addPendingBlockEvent (event fill.makerOrderId fill.maker makerSide fill.makerFee
    false)).addPendingBlockEvent
      (event fill.takerOrderId fill.taker takerSide fill.takerFee true)

/-- The two block events of a perp fill. -/
def recordPerpFill (s : AppState) (fill : Fill) : Exec AppState := do
  let (tradeId, s) ← s.takeTradeId
  let (makerSide, takerSide) := tradeSides fill.isTakerBuy
  let event (orderId : OrderId) (account : AccountAddress) (side : OrderSide) (fee pnl : Int)
      (isTaker : Bool) : BlockEvent := .fill {
    tradeId, orderId, account, side, isTaker
    marketId := fill.marketId
    price := Engine.fillPrice fill
    size := Engine.fillSize fill
    fee := ⟨fee, 6⟩
    realizedPnl := pnl
    timestamp := fill.timestamp }
  let makerFee ← i128 |fill.makerFee|
  return (s.addPendingBlockEvent (event fill.makerOrderId fill.maker makerSide makerFee
    fill.realizedPnlMaker false)).addPendingBlockEvent
      (event fill.takerOrderId fill.taker takerSide (ofU128 fill.takerFee)
        fill.realizedPnlTaker true)

/-- The client order id to register for an order that rests. -/
def restingCloid (rests : Bool) (order : Order) (marketId : MarketId) :
    List (ClientOrderId × MarketId × OrderId) :=
  match order.clientOrderId with
  | some cloid => if rests then [(cloid, marketId, order.id)] else []
  | none => []

/-- The block event of an order that rests. -/
def recordPlaced (s : AppState) (rests : Bool) (sender : AccountAddress) (marketId : MarketId)
    (order : Order) (reduceOnly : Bool) (timestamp : Timestamp) : AppState :=
  if rests then
    s.addPendingBlockEvent (.orderPlaced {
      orderId := order.id
      account := sender
      side := order.side
      price := order.price
      size := order.originalSize
      clientOrderId := order.clientOrderId
      marketId, reduceOnly, timestamp })
  else s

/-- One spot order of a batch; without a spot engine it is skipped. -/
def batchSpotOrder (b : OrderBatch) (sender : AccountAddress) (marketId : MarketId)
    (request : OrderRequest) (timestamp : Timestamp) : Exec OrderBatch :=
  match b.app.spot with
  | none => return b
  | some engine => do
    let (r, engine) ← engine.placeOrder sender marketId request timestamp
    let app := b.app.setSpot engine
    match r with
    | .error e =>
      return { b with app, events := b.events ++ [.spotOrderFailed e.message marketId] }
    | .ok (order, fills) =>
      let rests := !order.isFilled && !order.remainingSize.isZero
      let app ← fills.foldlM recordSpotFill app
      let gone := (fills.map fun f => (f.marketId, f.makerOrderId)).filter fun p =>
        (engine.getOrder p.1 p.2).isNone
      return {
        app := app.recordPlaced rests sender marketId order false timestamp
        events := b.events ++ [.spotOrder order.id sender marketId fills.length]
        cloidsToRegister := b.cloidsToRegister ++ restingCloid rests order marketId
        filledOrderCloids := b.filledOrderCloids ++ gone }

/-- One perp order of a batch. -/
def batchPerpOrder (b : OrderBatch) (sender : AccountAddress) (marketId : MarketId)
    (request : OrderRequest) (timestamp : Timestamp) : Exec OrderBatch :=
  match b.app.perp with
  | none =>
    return { b with
      events := b.events ++ [.perpOrderSkipped sender marketId "no_perp_engine"] }
  | some engine => do
    let (r, engine) ← engine.placeOrder sender request timestamp
    let app := b.app.setPerp engine
    match r with
    | .error e =>
      return { b with app, events := b.events ++ [.perpOrderFailed e.message marketId] }
    | .ok (order, fills) =>
      let rests := !order.isFilled && order.shouldRest
      let app ← fills.foldlM recordPerpFill app
      let gone := (fills.map fun f => (f.marketId, f.makerOrderId)).filter fun p =>
        ((engine.state.getOrderbook p.1).bind (·.get p.2)).isNone
      let fillEvents := fills.map fun f =>
        Event.perpFill f.maker f.taker f.price f.size f.marketId
      return {
        app := app.recordPlaced rests sender marketId order order.reduceOnly timestamp
        events := b.events ++ fillEvents ++ [.perpOrder order.id sender marketId fills.length
          order.remainingSize.toStringTrimmed]
        cloidsToRegister := b.cloidsToRegister ++ restingCloid rests order marketId
        filledOrderCloids := b.filledOrderCloids ++ gone }

/-- One order of a batch: market ids from 128 on are spot markets. -/
def batchOrder (b : OrderBatch) (sender : AccountAddress) (wire : OrderWire)
    (timestamp : Timestamp) : Exec (Except TransactionError OrderBatch) :=
  match wire.toOrderRequest with
  | .error e => return .error e
  | .ok request => do
    let b ← (if 128 ≤ wire.a then batchSpotOrder b sender wire.a request timestamp
      else batchPerpOrder b sender wire.a request timestamp)
    return .ok b

/-- Register and remove client order ids at the end of a batch. -/
def finishBatch (b : OrderBatch) (sender : AccountAddress) : Handled :=
  let app := b.cloidsToRegister.foldl (fun s p => s.registerCloid sender p.1 p.2.1 p.2.2) b.app
  let app := b.filledOrderCloids.foldl (fun s p => s.removeCloidByOrder p.1 p.2) app
  (.ok b.events, app)

/-- Run a batch. An order that cannot be read stops it: what was executed before
stays, and no client order id is registered. -/
def runOrders (sender : AccountAddress) (timestamp : Timestamp) : List OrderWire → OrderBatch →
    Exec Handled
  | [], b => return finishBatch b sender
  | wire :: wires, b => do
    match ← batchOrder b sender wire timestamp with
    | .error e => return (.error (.txError e), b.app)
    | .ok b => runOrders sender timestamp wires b

/-- Execute orders. -/
def executeOrders (s : AppState) (sender : AccountAddress) (orders : List OrderWire)
    (timestamp : Timestamp) : Exec Handled :=
  runOrders sender timestamp orders ⟨s, [], [], []⟩

/-! ### Cancellations -/

/-- The state of a batch of cancellations. -/
structure CancelBatch where
  app : AppState
  events : List Event
  cloidsToRemove : List ClientOrderId

/-- Cancel an order in the engine of its market, if there is one. -/
def cancelInEngine (s : AppState) (sender : AccountAddress) (marketId : MarketId)
    (orderId : OrderId) : Exec (Option (Except Error Order) × AppState) :=
  if 128 ≤ marketId then
    match s.spot with
    | none => return (none, s)
    | some engine => do
      let (r, engine) ← engine.cancelOrder sender marketId orderId
      return (some r, s.setSpot engine)
  else
    match s.perp with
    | none => return (none, s)
    | some engine =>
      let (r, engine) := engine.cancelOrder sender marketId orderId
      return (some r, s.setPerp engine)

/-- One cancellation of a batch. -/
def batchCancel (sender : AccountAddress) (b : CancelBatch) (cancel : CancelWire) :
    Exec CancelBatch := do
  let (r, app) ← b.app.cancelInEngine sender cancel.a cancel.o
  let isSpot := 128 ≤ cancel.a
  match r with
  | none =>
    return if isSpot then b else { b with
      events := b.events ++ [.perpCancelSkipped cancel.o "no_perp_engine"] }
  | some (.ok order) =>
    let event := if isSpot then Event.spotCancel cancel.o cancel.a
      else .perpCancel cancel.o cancel.a
    return {
      app
      events := b.events ++ [event]
      cloidsToRemove := b.cloidsToRemove ++ order.clientOrderId.toList }
  | some (.error e) =>
    let event := if isSpot then Event.spotCancelFailed cancel.o e.message
      else .perpCancelFailed cancel.o e.message
    return { b with app, events := b.events ++ [event] }

/-- One cancellation by client order id of a batch. -/
def batchCancelByCloid (sender : AccountAddress) (b : CancelBatch)
    (cancel : CancelByCloidWire) : Exec CancelBatch :=
  match b.app.getOrderByCloid sender cancel.cloid with
  | none =>
    return { b with events := b.events ++ [.cancelCloidNotFound cancel.cloid cancel.asset] }
  | some (marketId, orderId) =>
    if marketId ≠ cancel.asset then
      return { b with
        events := b.events ++ [.cancelCloidFailed cancel.cloid "market_mismatch"] }
    else do
      let (r, app) ← b.app.cancelInEngine sender marketId orderId
      match r with
      | none => return b
      | some (.ok _) =>
        let event := if 128 ≤ marketId then Event.spotCancelByCloid cancel.cloid orderId marketId
          else .perpCancelByCloid cancel.cloid orderId marketId
        return {
          app
          events := b.events ++ [event]
          cloidsToRemove := b.cloidsToRemove ++ [cancel.cloid] }
      | some (.error e) =>
        return { b with
          app, events := b.events ++ [.cancelCloidFailed cancel.cloid e.message] }

/-- Remove client order ids of a sender. -/
def removeCloids (s : AppState) (sender : AccountAddress) (cloids : List ClientOrderId) :
    AppState :=
  cloids.foldl (fun s cloid => s.removeCloid sender cloid) s

/-- Execute cancellations. -/
def executeCancels (s : AppState) (sender : AccountAddress) (cancels : List CancelWire) :
    Exec Handled := do
  let b ← cancels.foldlM (batchCancel sender) ⟨s, [], []⟩
  return (.ok b.events, b.app.removeCloids sender b.cloidsToRemove)

/-- Execute cancellations by client order id. -/
def executeCancelByCloid (s : AppState) (sender : AccountAddress)
    (cancels : List CancelByCloidWire) : Exec Handled := do
  let b ← cancels.foldlM (batchCancelByCloid sender) ⟨s, [], []⟩
  return (.ok b.events, b.app.removeCloids sender b.cloidsToRemove)

/-- Cancel all orders in the given spot markets. -/
def cancelSpotMarkets (sender : AccountAddress) : List MarketId → AppState →
    Exec (List Order × AppState)
  | [], s => return ([], s)
  | marketId :: marketIds, s =>
    match s.spot with
    | none => return ([], s)
    | some engine => do
      let (canceled, engine) ← engine.cancelAllOrders sender marketId
      let (rest, s) ← cancelSpotMarkets sender marketIds (s.setSpot engine)
      return (canceled ++ rest, s)

/-- Cancel all orders in the given perp markets. -/
def cancelPerpMarkets (sender : AccountAddress) : List MarketId → AppState →
    List Order × AppState
  | [], s => ([], s)
  | marketId :: marketIds, s =>
    match s.perp with
    | none => ([], s)
    | some engine =>
      let (r, engine) := engine.cancelAllOrders sender marketId
      let (rest, s) := cancelPerpMarkets sender marketIds (s.setPerp engine)
      match r with
      | .ok canceled => (canceled ++ rest, s)
      | .error _ => (rest, s)

/-- The spot markets, in ascending order. The source visits them in that of a hash map, which
shows where an account has less reserved than its orders lock: releases are clipped. -/
def spotMarketIds (s : AppState) : List MarketId :=
  match s.spot with
  | none => []
  | some engine => engine.getMarketIds

/-- The perp markets. -/
def perpMarketIds (s : AppState) : List MarketId :=
  match s.perp with
  | none => []
  | some engine => engine.state.getMarketIds

/-- Execute cancel all orders. -/
def executeCancelAll (s : AppState) (sender : AccountAddress) : Exec Handled := do
  let (spotCanceled, s) ← cancelSpotMarkets sender s.spotMarketIds s
  let (perpCanceled, s) := cancelPerpMarkets sender s.perpMarketIds s
  let cloids := (spotCanceled ++ perpCanceled).filterMap (·.clientOrderId)
  return (.ok [.cancelAll sender spotCanceled.length perpCanceled.length],
    s.removeCloids sender cloids)

/-- Execute spot cancel all. Client order ids are not removed. -/
def executeSpotCancelAll (s : AppState) (sender : AccountAddress) (market : Option MarketId) :
    Exec Handled := do
  let markets := match market with
    | some marketId => [marketId]
    | none => s.spotMarketIds
  let (canceled, s) ← cancelSpotMarkets sender markets s
  return (.ok [.spotCancelAll sender canceled.length], s)

/-! ### Balances -/

/-- Execute a view transfer. -/
def executeViewTransfer (s : AppState) (sender : AccountAddress) (token : TokenIndex)
    (amount : String) (toEvm : Bool) : Exec Handled :=
  match s.spot with
  | none => return (.error (.internal "Spot engine not available"), s)
  | some engine =>
    match engine.getToken token with
    | none => return (.error (.internal ("Token " ++ toString token ++ " not found")), s)
    | some info =>
      match Decimal.fromStrExact amount.toList info.weiDecimals.toNat with
      | none => return (.error (.internal ("Invalid amount: " ++ amount)), s)
      | some value => do
        let (r, engine) ← engine.viewTransfer sender token value toEvm
        let s := s.setSpot engine
        match r with
        | .error e => return (.error (.internal e.message), s)
        | .ok () => return (.ok [.viewTransfer sender token amount toEvm], s)

/-- Execute a USD transfer, core view to core view. -/
def executeUsdTransfer (s : AppState) (sender destination : AccountAddress) (amount : String) :
    Exec Handled :=
  match Decimal.fromStrExact amount.toList Decimal.usdcDecimals with
  | none => return (.error .invalidAmount, s)
  | some value =>
    if s.unifiedState.getCoreView sender 0 < value then
      return (.error (.internal "Insufficient balance"), s)
    else do
      let (done, u) ← s.unifiedState.transferCore sender destination 0 value
      let s := s.setUnified u
      if done then return (.ok [.usdTransfer sender destination amount], s)
      else return (.error (.internal "Transfer failed"), s)

/-- Execute a withdrawal. -/
def executeWithdraw (s : AppState) (sender destination : AccountAddress) (amount : String) :
    Exec Handled :=
  match Decimal.fromStrExact amount.toList Decimal.usdcDecimals with
  | none => return (.error .invalidAmount, s)
  | some value => do
    let (done, u) ← s.unifiedState.debitCore sender 0 value
    let s := s.setUnified u
    if done then return (.ok [.withdraw sender destination amount], s)
    else return (.error (.internal "Insufficient balance for withdrawal"), s)

/-- `u128::from_be_bytes`. -/
def fromBeBytes (bytes : List UInt8) : Nat := bytes.foldl (fun n b => 256 * n + b.toNat) 0

/-- Token and raw amount (18 decimals) of at least 64 bytes of action data. An amount
that does not fit 128 bits is read as the largest `i128`. -/
def evmPayload (data : List UInt8) : TokenIndex × Int :=
  let high := fromBeBytes ((data.drop 32).take 16)
  let low := fromBeBytes ((data.drop 48).take 16)
  ((data[31]?).getD 0, if high > 0 then 2 ^ 127 - 1 else ofU128 low)

/-- The `Debug` text of a view transfer error. -/
def debugTransferError : ViewTransferError → String
  | .noBalance => "NoBalance"
  | .insufficientCoreView available requested =>
    "InsufficientCoreView \x7b available: Decimal(" ++ available.toStringTrimmed ++
      "), requested: Decimal(" ++ requested.toStringTrimmed ++ ") \x7d"
  | .insufficientEvmView available requested =>
    "InsufficientEvmView \x7b available: Decimal(" ++ available.toStringTrimmed ++
      "), requested: Decimal(" ++ requested.toStringTrimmed ++ ") \x7d"

/-- The error of a view transfer that failed. -/
def evmTransferError (direction : String) (token : TokenIndex) (amount : Decimal)
    (e : ViewTransferError) : AppError :=
  .internal ("View transfer to " ++ direction ++ " failed: token=" ++ toString token ++
    ", amount=" ++ amount.toStringTrimmed ++ ", error=" ++ debugTransferError e)

/-- Move an amount between the views of an account, for an EVM action. -/
def executeEvmMove (s : AppState) (sender : AccountAddress) (actionType : UInt8)
    (token : TokenIndex) (amount : Decimal) : Exec Handled :=
  let views (u : UnifiedState) := ((u.getCoreView sender token).toStringTrimmed,
    (u.getEvmView sender token).toStringTrimmed)
  if actionType = 0 ∨ actionType = 3 then do
    let (r, u) ← s.unifiedState.transferToCoreView sender token amount
    let s := s.setUnified u
    match r with
    | .error e => return (.error (evmTransferError "core" token amount e), s)
    | .ok () =>
      let (core, evm) := views u
      return (.ok [.evmDeposit sender token amount.toStringTrimmed core evm], s)
  else if actionType = 1 ∨ actionType = 2 then do
    let (r, u) ← s.unifiedState.transferToEvmView sender token amount
    let s := s.setUnified u
    match r with
    | .error e => return (.error (evmTransferError "EVM" token amount e), s)
    | .ok () =>
      let (core, evm) := views u
      return (.ok [.evmWithdraw sender token amount.toStringTrimmed core evm], s)
  else return (.ok [.evmActionUnknown actionType], s)

/-- Execute an EVM action. Amounts come in 18 decimals. -/
def executeEvmAction (s : AppState) (sender : AccountAddress) (actionType : UInt8)
    (data : List UInt8) : Exec Handled :=
  if 64 ≤ data.length then do
    let (token, raw) := evmPayload data
    let amount ← (⟨raw, 18⟩ : Decimal).toDecimals (if token = 0 then 6 else 18)
    s.executeEvmMove sender actionType token amount
  else if data = [] then
    return (.ok [if actionType = 0 ∨ actionType = 3 then .evmDepositNoData sender
      else if actionType = 1 ∨ actionType = 2 then .evmWithdrawNoData sender
      else .evmActionUnknown actionType], s)
  else
    return (.error (.internal ("Invalid EVM action data length: " ++ toString data.length ++
      " (expected 64 bytes)")), s)

/-! ### Settings -/

/-- Execute a leverage update; without a perp engine it is written unchecked to the
legacy state. -/
def executeUpdateLeverage (s : AppState) (sender : AccountAddress) (asset : MarketId)
    (leverage : UInt8) : Exec Handled :=
  match s.perp with
  | none =>
    return (.ok [.updateLeverage asset leverage],
      { s with engine := s.engine.setLeverage sender asset leverage })
  | some engine => do
    let (r, engine) ← engine.updateLeverage sender asset leverage
    let s := s.setPerp engine
    match r with
    | .ok () => return (.ok [.updateLeverage asset leverage], s)
    | .error e => return (.error (.internal ("Leverage update failed: " ++ e.message)), s)

/-- Execute set margin mode. -/
def executeSetMarginMode (s : AppState) (sender : AccountAddress) (mode : MarginMode) :
    Handled :=
  match s.perp with
  | none => (.ok [.setMarginMode sender mode], s)
  | some engine =>
    let (r, engine) := engine.setMarginMode sender mode
    let s := s.setPerp engine
    match r with
    | .ok () => (.ok [.setMarginMode sender mode], s)
    | .error e => (.error (.internal ("Set margin mode failed: " ++ e.message)), s)

/-- Execute cancel trigger order. The owner is not checked, nor is the market. -/
def executeCancelTrigger (s : AppState) (sender : AccountAddress) (orderId : OrderId) :
    Handled :=
  match s.perp with
  | none => (.ok [.cancelTrigger sender orderId], s)
  | some engine =>
    let (removed, state) := engine.state.removeTriggerOrder orderId
    let s := s.setPerp { engine with state }
    match removed with
    | none => (.error (.internal ("Trigger order " ++ toString orderId ++ " not found")), s)
    | some _ => (.ok [.cancelTrigger sender orderId], s)

/-! ### Transactions -/

/-- Dispatch on the transaction type. -/
def executeAction (s : AppState) (sender : AccountAddress) (timestamp : Timestamp) :
    TransactionType → Exec Handled
  | .order orders => s.executeOrders sender orders timestamp
  | .cancel cancels => s.executeCancels sender cancels
  | .cancelByCloid cancels => s.executeCancelByCloid sender cancels
  | .cancelAll => s.executeCancelAll sender
  | .updateLeverage asset leverage => s.executeUpdateLeverage sender asset leverage
  | .usdTransfer destination amount => s.executeUsdTransfer sender destination amount
  | .withdraw destination amount => s.executeWithdraw sender destination amount
  | .evmAction actionType data => s.executeEvmAction sender actionType data
  | .spotOrder orders => s.executeOrders sender orders timestamp
  | .spotCancelAll market => s.executeSpotCancelAll sender market
  | .viewTransfer token amount toEvm => s.executeViewTransfer sender token amount toEvm
  | .setMarginMode mode => return s.executeSetMarginMode sender mode
  | .cancelTrigger _ orderId => return s.executeCancelTrigger sender orderId

/-- Execute a transaction: validate, dispatch, and on success advance the nonces. -/
def executeTx (s : AppState) (tx : Transaction) (timestamp : Timestamp) :
    Exec (Except AppError TxResult × AppState) :=
  match s.validateTx tx timestamp with
  | .error e => return (.error (.stateError e), s)
  | .ok () =>
    match tx.sender with
    | .error e => return (.error (.txError e), s)
    | .ok sender => do
      let (r, s) ← s.executeAction sender timestamp tx.action
      match r with
      | .error e => return (.error e, s)
      | .ok events =>
        let s ← s.incrementNonce sender
        return (.ok ⟨true, events, 1⟩, s.updateTimestampNonce sender tx.nonce)

/-! ### Blocks -/

/-- Begin a new block. -/
def beginBlock (s : AppState) (height : BlockHeight) (timestamp : Timestamp) : AppState :=
  { s with height, timestamp }

/-- Mark and index price of a market in the legacy state, zero without it. -/
def legacyPrices (s : AppState) (marketId : MarketId) : Decimal × Decimal :=
  match s.engine.getMarket marketId with
  | none => (.zero, .zero)
  | some m => (m.state.markPrice, m.state.indexPrice)

/-- Funding and liquidation of the perp engine, with their block events. -/
def upkeep (ord : HashOrder) (s : AppState) : Exec (List BlockEvent × AppState) :=
  match s.perp with
  | none => return ([], s)
  | some engine => do
    let (rates, engine) ← engine.processFunding s.timestamp
    let funding := rates.map fun (marketId, rate) =>
      let (mark, index) := s.legacyPrices marketId
      BlockEvent.fundingApplied marketId rate.value mark index s.timestamp
    let (done, engine) ← engine.processLiquidations ord
    let liquidations := done.map fun (account, marketId, size) =>
      BlockEvent.liquidation account marketId size.value (s.legacyPrices marketId).1 s.timestamp
    return (funding ++ liquidations, s.setPerp engine)

/-- End the current block: funding, liquidations, the block's events, the app hash. -/
def finishBlock (ord : HashOrder) (s : AppState) : Exec AppState := do
  let (upkeepEvents, s) ← upkeep ord s
  let events := s.pendingBlockEvents ++ upkeepEvents
  let blockEvents := s.blockEvents.insert s.height events
  return { s with blockEvents, pendingBlockEvents := [] }.endBlock.storeBlock events

end AppState

end Hypercore
