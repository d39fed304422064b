import Hypercore.Chain.App
import Hypercore.Primitives.Text
/-!
# Hypercore.Gateway.Handlers

The exchange endpoints of the gateway in single-node mode.

A verified request goes one of two ways. Spot actions and view transfers are given
to the spot engine that the application shares; everything else becomes a
transaction that the application executes. The batch endpoint handles its requests
one after the other, as if they had come alone. Requests that validation or the
signature check turns away reach neither path.
-/

namespace Hypercore

open Exec Int128

/-- Exchange action types. The grouping of an order batch and the `is_cross` flag of a
leverage update change nothing in execution and are left out. -/
inductive ExchangeAction
  | order (orders : List OrderWire)
  | cancel (cancels : List CancelWire)
  | cancelByCloid (cancels : List CancelByCloidWire)
  | cancelAll
  | updateLeverage (asset : MarketId) (leverage : UInt8)
  | usdTransfer (destination amount : String)
  | withdraw (destination amount : String)
  | spotOrder (orders : List OrderWire)
  | spotCancel (cancels : List CancelWire)
  /-- One spot market, or all of them. -/
  | spotCancelAll (market : Option SpotMarketId)
  | viewTransfer (token : TokenIndex) (amount : String) (toEvm : Bool)
  deriving DecidableEq, Repr

/-- Exchange request: action and signature. -/
structure ExchangeRequest where
  action : ExchangeAction
  nonce : Nat
  /-- The signer that `verify_signature` recovers, `none` when it fails. -/
  sender : Option AccountAddress
  /-- The signer that the application recovers from the transaction made of the request. -/
  txSigner : Option AccountAddress
  deriving DecidableEq, Repr

/-- Handler errors. -/
inductive HandlerError
  | invalidSignature
  | invalidAddress (address : String)
  | marketNotFound (market : String)
  | invalidParameter (name : String)
  | internal (message : String)
  /-- An internal error that carries the application's. -/
  | transactionFailed (e : AppError)
  deriving DecidableEq, Repr

/-- Status of one order of a spot batch. -/
inductive SpotOrderStatus
  | filled (totalSz avgPx : String) (oid : OrderId)
  | resting (oid : OrderId)
  | error (message : String)
  deriving DecidableEq, Repr

/-- What a request is answered with. -/
inductive ExchangeResponse
  | executed (result : TxResult)
  | spotOrder (statuses : List SpotOrderStatus)
  /-- The error of each cancellation that failed. -/
  | spotCancel (statuses : List (Option String))
  | spotCancelAll (canceledCount : Nat)
  | viewTransfer (newCoreView newEvmView total : String)
  deriving DecidableEq, Repr

namespace Gateway

/-- What a handler returns, with the state it leaves. -/
abbrev Answered := Except HandlerError ExchangeResponse × AppState

/-! ### Reading a request -/

/-- Parse hex address string. -/
def parseAddress (text : String) : Except HandlerError AccountAddress :=
  let hex := match text.toList with
    | '0' :: 'x' :: rest => rest
    | all => all
  if (String.ofList hex).utf8ByteSize ≠ 40 then .error (.invalidAddress text)
  else match hex.mapM hexDigit with
    | none => .error (.invalidAddress text)
    | some digits => .ok (Fin.ofNat (2 ^ 160) (digits.foldl (fun n d => 16 * n + d) 0))

/-- Parse order type from wire format. Unknown times-in-force are good-til-canceled. -/
def parseOrderType : OrderTypeWire → Except HandlerError OrderType
  | .limit tif =>
    let tif := toLowercase tif
    .ok (.limit (if tif = "gtc" then .gtc
      else if tif = "ioc" then .ioc
      else if tif = "fok" then .fok
      else if tif = "alo" ∨ tif = "postonly" then .alo
      else .gtc))
  | .trigger _ => .error (.invalidParameter "Trigger orders not supported for spot")

/-- The request of a spot order, with prices of eight places and sizes of the base token. -/
def spotOrderRequest (engine : SpotEngineState) (wire : OrderWire) :
    Except HandlerError OrderRequest :=
  match engine.getMarket wire.a with
  | none => .error (.marketNotFound (toString wire.a))
  | some market =>
    match Decimal.fromStr wire.p.toList with
    | none => .error (.invalidParameter "price")
    | some price =>
      match engine.getToken market.config.baseToken with
      | none => .error (.internal "Base token not found")
      | some baseToken =>
        match Decimal.fromStrExact wire.s.toList baseToken.weiDecimals.toNat with
        | none => .error (.invalidParameter "size")
        | some size =>
          match parseOrderType wire.t with
          | .error e => .error e
          | .ok orderType => .ok {
              marketId := wire.a
              side := if wire.b then .buy else .sell
              price, size, orderType
              reduceOnly := false
              clientOrderId := wire.c
              triggerPrice := none
              triggerDirection := none }

/-! ### Spot actions -/

/-- Average price of some fills, on four places. -/
def averagePrice (fills : List SpotFill) : Exec String := do
  let totalValue ← fills.foldlM (fun acc f => i128 (acc + f.quoteSize.value)) 0
  let totalSize ← fills.foldlM (fun acc f => i128 (acc + f.baseSize.value)) 0
  if totalSize > 0 then
    let scaled ← i128 (totalValue * 10000)
    return (⟨scaled.tdiv totalSize, 4⟩ : Decimal).toStringTrimmed
  else return "0"

/-- The status of a placed order. -/
def orderStatus (order : Order) (fills : List SpotFill) : Exec SpotOrderStatus :=
  if order.isFilled then do
    let avgPx ← averagePrice fills
    return .filled order.originalSize.toStringTrimmed avgPx order.id
  else return .resting order.id

/-- Place spot orders. A wire that cannot be read ends the request with an error; what was
placed before stays. -/
def placeSpotOrders (sender : AccountAddress) (now : Timestamp) : List OrderWire →
    List SpotOrderStatus → SpotEngineState →
    Exec (Except HandlerError ExchangeResponse × SpotEngineState)
  | [], results, engine => return (.ok (.spotOrder results), engine)
  | wire :: wires, results, engine =>
    match spotOrderRequest engine wire with
    | .error e => return (.error e, engine)
    | .ok request => do
      let (r, engine) ← engine.placeOrder sender wire.a request now
      match r with
      | .ok (order, fills) =>
        let status ← orderStatus order fills
        placeSpotOrders sender now wires (results ++ [status]) engine
      | .error e => placeSpotOrders sender now wires (results ++ [.error e.message]) engine

/-- Cancel spot orders. -/
def cancelSpotOrders (sender : AccountAddress) : List CancelWire → List (Option String) →
    SpotEngineState → Exec (Except HandlerError ExchangeResponse × SpotEngineState)
  | [], results, engine => return (.ok (.spotCancel results), engine)
  | cancel :: cancels, results, engine => do
    let (r, engine) ← engine.cancelOrder sender cancel.a cancel.o
    let status := match r with
      | .ok _ => none
      | .error e => some e.message
    cancelSpotOrders sender cancels (results ++ [status]) engine

/-- Cancel all spot orders in some markets. -/
def cancelAllSpotOrders (sender : AccountAddress) : List SpotMarketId → Nat →
    SpotEngineState → Exec (Except HandlerError ExchangeResponse × SpotEngineState)
  | [], count, engine => return (.ok (.spotCancelAll count), engine)
  | marketId :: marketIds, count, engine => do
    let (canceled, engine) ← engine.cancelAllOrders sender marketId
    cancelAllSpotOrders sender marketIds (count + canceled.length) engine

/-- Transfer between the views, and read the balance back. -/
def viewTransfer (engine : SpotEngineState) (sender : AccountAddress) (token : TokenIndex)
    (amount : String) (toEvm : Bool) :
    Exec (Except HandlerError ExchangeResponse × SpotEngineState) :=
  match engine.getToken token with
  | none => return (.error (.internal ("Token " ++ toString token ++ " not found")), engine)
  | some info =>
    match Decimal.fromStrExact amount.toList info.weiDecimals.toNat with
    | none => return (.error (.invalidParameter "amount"), engine)
    | some value => do
      let (r, engine) ← engine.viewTransfer sender token value toEvm
      match r with
      | .error e => return (.error (.internal e.message), engine)
      | .ok () =>
        let balance := (engine.unifiedState.getBalance sender token).getD
          (.new ⟨0, tokenDecimals token⟩)
        return (.ok (.viewTransfer balance.coreView.toStringTrimmed
          balance.evmView.toStringTrimmed balance.total.toStringTrimmed), engine)

/-- Process spot-specific exchange requests. The nonce of the request is not looked at. -/
def processSpotExchangeRequest (engine : SpotEngineState) (sender : AccountAddress)
    (action : ExchangeAction) (now : Timestamp) :
    Exec (Except HandlerError ExchangeResponse × SpotEngineState) :=
  match action with
  | .spotOrder orders => placeSpotOrders sender now orders [] engine
  | .spotCancel cancels => cancelSpotOrders sender cancels [] engine
  | .spotCancelAll (some marketId) => cancelAllSpotOrders sender [marketId] 0 engine
  | .spotCancelAll none => cancelAllSpotOrders sender engine.getMarketIds 0 engine
  | .viewTransfer token amount toEvm => viewTransfer engine sender token amount toEvm
  | _ => return (.error (.internal "Unexpected action type"), engine)

/-! ### Actions through the application -/

/-- The transaction type of an action. -/
def transactionType : ExchangeAction → Except HandlerError TransactionType
  | .order orders => .ok (.order orders)
  | .cancel cancels => .ok (.cancel cancels)
  | .cancelByCloid cancels => .ok (.cancelByCloid cancels)
  | .cancelAll => .ok .cancelAll
  | .updateLeverage asset leverage => .ok (.updateLeverage asset leverage)
  | .usdTransfer destination amount => do
    let dest ← parseAddress destination
    return .usdTransfer dest amount
  | .withdraw destination amount => do
    let dest ← parseAddress destination
    return .withdraw dest amount
  | _ => .error (.internal "Unsupported action type")

/-- Execute perp action through the application. -/
def executePerpActionViaApp (s : AppState) (request : ExchangeRequest) (now : Timestamp) :
    Exec Answered :=
  match transactionType request.action with
  | .error e => return (.error e, s)
  | .ok action => do
    let (r, s) ← s.executeTx ⟨action, request.nonce, request.txSigner⟩ now
    match r with
    | .ok result => return (.ok (.executed result), s)
    | .error e => return (.error (.transactionFailed e), s)

/-! ### Dispatch -/

/-- The actions that go to the spot engine. -/
def ofSpotEngine : ExchangeAction → Bool
  | .spotOrder _ | .spotCancel _ | .spotCancelAll _ | .viewTransfer .. => true
  | _ => false

/-- Process an exchange request with a verified sender. The node always gives the gateway
the spot engine of its application. -/
def processExchangeRequestPresigned (s : AppState) (sender : AccountAddress)
    (request : ExchangeRequest) (now : Timestamp) : Exec Answered :=
  if ofSpotEngine request.action then
    match s.spot with
    | none => .error .panic
    | some engine => do
      let (r, engine) ← processSpotExchangeRequest engine sender request.action now
      return (r, s.setSpot engine)
  else executePerpActionViaApp s request now

/-- Process an exchange request. -/
def processExchangeRequest (s : AppState) (request : ExchangeRequest) (now : Timestamp) :
    Exec Answered :=
  match request.sender with
  | none => return (.error .invalidSignature, s)
  | some sender => processExchangeRequestPresigned s sender request now

end Gateway

end Hypercore
