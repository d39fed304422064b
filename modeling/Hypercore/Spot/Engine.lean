import Hypercore.Primitives.Keccak
import Hypercore.Spot.State
/-!
# Hypercore.Spot.Engine

Spot trading: placing and cancelling orders, applying fills, and transfers to the EVM.

An order reserves what it may have to deliver, is matched, and its fills are then
applied one after the other to the balance sheet. A fill whose debit fails stops
the call with an error and leaves everything done before it in place.
-/

namespace Hypercore

open Exec Int128

/-- The address that stands for a token on the EVM: the end of a hash of its index. -/
def SpotToken.deriveSystemAddress (keccak256 : List UInt8 → List UInt8) (index : TokenIndex) :
    AccountAddress :=
  let hash := keccak256 ("HyperCore.SpotToken.SystemAddress".toUTF8.toList ++ [index])
  Fin.ofNat (2 ^ 160) (ofBeBytes ((hash.take 32).drop 12))

namespace SpotEngineState

/-! ### Matching -/

/-- The state of the matching loop. -/
structure Matched where
  remaining : Order
  book : OrderBook
  fills : List SpotFill
  /-- Makers that are gone from the book. -/
  filledMakerIds : List OrderId
  partiallyFilledMakers : List (OrderId × Decimal)

def opposite : OrderSide → OrderSide
  | .buy => .sell
  | .sell => .buy

/-- The limit price reaches the maker's. -/
def pricesCross (side : OrderSide) (limit maker : Decimal) : Bool :=
  match side with
  | .buy => maker ≤ limit
  | .sell => limit ≤ maker

/-- One match. -/
def matchOne (marketId : SpotMarketId) (config : SpotMarketConfig) (m : Matched)
    (maker : Order) : Exec Matched := do
  let fillSize := m.remaining.remainingSize.min maker.remainingSize
  let quoteSize ← fillSize.mul maker.price
  let makerFee ← config.makerFee quoteSize
  let takerFee ← config.takerFee quoteSize
  let fill : SpotFill := {
    marketId
    maker := maker.owner
    taker := m.remaining.owner
    makerOrderId := maker.id
    takerOrderId := m.remaining.id
    price := maker.price
    baseSize := fillSize
    quoteSize, makerFee, takerFee
    timestamp := m.remaining.timestamp
    isTakerBuy := m.remaining.side = .buy }
  let left ← m.remaining.remainingSize.sub fillSize
  let remaining := { m.remaining with
    remainingSize := left
    status := if left.isZero then .filled else .partiallyFilled }
  let fills := m.fills ++ [fill]
  let book := (m.book.remove maker.id).2
  if maker.remainingSize ≤ fillSize then
    return { m with remaining, book, fills, filledMakerIds := m.filledMakerIds ++ [maker.id] }
  else
    let makerLeft ← maker.remainingSize.sub fillSize
    if makerLeft.isZero then
      return { m with remaining, book, fills, filledMakerIds := m.filledMakerIds ++ [maker.id] }
    else
      let book ← book.insert { maker with remainingSize := makerLeft }
      return { m with
        remaining, book, fills
        partiallyFilledMakers := m.partiallyFilledMakers ++ [(maker.id, makerLeft)] }

/-- The matching loop, with at most `fuel` turns. -/
def matchOrder (marketId : SpotMarketId) (config : SpotMarketConfig) :
    Nat → Matched → Exec Matched
  | 0, _ => .error .diverge
  | fuel + 1, m =>
    if m.remaining.isFilled then return m
    else match m.book.best (opposite m.remaining.side) with
      | none => return m
      | some maker =>
        if pricesCross m.remaining.side m.remaining.price maker.price then do
          let m ← matchOne marketId config m maker
          matchOrder marketId config fuel m
        else return m

/-- Turns enough for positive sizes: each turn takes a unit off the order or an order
off the book. -/
def turns (order : Order) (book : OrderBook) : Nat :=
  order.remainingSize.value.toNat + (book.side (opposite order.side)).toList.length + 1

/-- Bring the orders map and the account index in line with the book. -/
def syncMakers (s : SpotEngineState) (marketId : SpotMarketId) (m : Matched) :
    SpotEngineState :=
  let s := m.filledMakerIds.foldl (fun s id => s.removeOrder marketId id) s
  m.partiallyFilledMakers.foldl
    (fun s (id, remaining) => s.updateOrderRemaining marketId id remaining) s

/-! ### Applying a fill -/

/-- Who trades in a fill, and the quote amounts on the USDC scale. -/
structure Legs where
  buyer : AccountAddress
  seller : AccountAddress
  quote : Int
  sellerFee : Int
  /-- What the buyer pays. -/
  quoteWithFee : Decimal

/-- The two legs of a fill. -/
def legs (fill : SpotFill) : Exec Legs := do
  let (buyer, seller) :=
    if fill.isTakerBuy then (fill.taker, fill.maker) else (fill.maker, fill.taker)
  let (buyerFee, sellerFee) :=
    if fill.isTakerBuy then (fill.takerFee, fill.makerFee) else (fill.makerFee, fill.takerFee)
  let quoteUsdc ← fill.quoteSize.toDecimals 6
  let buyerFeeUsdc ← buyerFee.toDecimals 6
  let sellerFeeUsdc ← sellerFee.toDecimals 6
  let quoteWithFee ← i128 (quoteUsdc.value + buyerFeeUsdc.value)
  return ⟨buyer, seller, quoteUsdc.value, sellerFeeUsdc.value, ⟨quoteWithFee, 6⟩⟩

/-- Volumes and last trade of a market after a fill. -/
def recordTrade (state : SpotMarketState) (fill : SpotFill) : Exec SpotMarketState := do
  let volAdd ← fill.quoteSize.toDecimals 6
  let volume ← i128 ((← state.volume24h.toDecimals 6).value + volAdd.value)
  let baseDecimals := fill.baseSize.decimals
  let baseVolume ← i128 ((← state.baseVolume24h.toDecimals baseDecimals).value +
    fill.baseSize.value)
  let trades24h ← u64 (state.trades24h + 1)
  return {
    lastPrice := some fill.price
    volume24h := ⟨volume, 6⟩
    baseVolume24h := ⟨baseVolume, baseDecimals⟩
    trades24h
    lastTradeTime := fill.timestamp }

/-- Write to the state of a market; nothing happens without one. -/
def modifyMarket (s : SpotEngineState) (marketId : SpotMarketId)
    (f : SpotMarketState → Exec SpotMarketState) : Exec SpotEngineState :=
  match s.markets[marketId]? with
  | none => return s
  | some m => do
    let state ← f m.state
    return { s with markets := s.markets.insert marketId { m with state } }

/-- The error of a debit that failed. -/
def unpaid (amount : Decimal) : Error := .insufficientBalance amount.toStringTrimmed "0"

/-- Apply one fill: release both reserves, then debit and credit the buyer and then the
seller. -/
def applyFill (s : SpotEngineState) (config : SpotMarketConfig) (fill : SpotFill) :
    Exec (Except Error Unit × SpotEngineState) := do
  let l ← legs fill
  let s ← s.releaseBalance l.buyer config.quoteToken l.quoteWithFee
  let s ← s.releaseBalance l.seller config.baseToken fill.baseSize
  let (paid, s) ← s.debitBalance l.buyer config.quoteToken l.quoteWithFee
  if !paid then return (.error (unpaid l.quoteWithFee), s)
  let s ← s.creditBalance l.buyer config.baseToken fill.baseSize
  let sellerReceives ← i128 (l.quote - l.sellerFee)
  let (delivered, s) ← s.debitBalance l.seller config.baseToken fill.baseSize
  if !delivered then return (.error (unpaid fill.baseSize), s)
  let s ← s.creditBalance l.seller config.quoteToken ⟨sellerReceives, 6⟩
  let s ← s.modifyMarket fill.marketId fun state => recordTrade state fill
  return (.ok (), s)

/-- Apply fills until one fails. -/
def applyFills (config : SpotMarketConfig) : List SpotFill → SpotEngineState →
    Exec (Except Error Unit × SpotEngineState)
  | [], s => return (.ok (), s)
  | fill :: fills, s => do
    let (r, s) ← s.applyFill config fill
    match r with
    | .error err => return (.error err, s)
    | .ok () => applyFills config fills s

/-! ### Placing an order -/

/-- Validate price and size against the market configuration. -/
def validateOrder (request : OrderRequest) (config : SpotMarketConfig) :
    Exec (Except Error Unit) := do
  if !config.validatePrice request.price then
    return .error (.invalidPrice request.price.toStringTrimmed config.tickSize.toStringTrimmed)
  if !(← config.validateSize request.size) then
    return .error (.invalidSize request.size.toStringTrimmed config.lotSize.toStringTrimmed)
  let normalized ← request.size.toDecimals config.lotSize.decimals
  if normalized.value < config.minOrderSize.value then
    return .error (.sizeTooSmall request.size.toStringTrimmed
      config.minOrderSize.toStringTrimmed)
  if normalized.value > config.maxOrderSize.value then
    return .error (.sizeTooLarge request.size.toStringTrimmed
      config.maxOrderSize.toStringTrimmed)
  return .ok ()

/-- Token and amount that an open order of a side, size and price reserves. -/
def reserveFor (config : SpotMarketConfig) (side : OrderSide) (size price : Decimal) :
    Exec (TokenIndex × Decimal) :=
  match side with
  | .buy => do
    let quoteAmount ← size.mul price
    let amount ← quoteAmount.toDecimals 6
    return (config.quoteToken, amount)
  | .sell => return (config.baseToken, size)

/-- Sum of what fills took from a reserve, on its scale. -/
def filledReserve (side : OrderSide) (decimals : Nat) (fills : List SpotFill) : Exec Decimal :=
  fills.foldlM (fun acc f => do
    let part ← (match side with
      | .buy => f.quoteSize
      | .sell => f.baseSize).toDecimals decimals
    acc.add part) ⟨0, decimals⟩

/-- What remains of a matched order: it rests, or its reserve is released. -/
def settleRemaining (s : SpotEngineState) (remaining : Order) (token : TokenIndex)
    (reserve : Decimal) (fills : List SpotFill) : Exec SpotEngineState := do
  let filled ← filledReserve remaining.side reserve.decimals fills
  let left ← (if reserve.value ≤ filled.value then return (⟨0, reserve.decimals⟩ : Decimal)
    else reserve.sub filled)
  if !remaining.isFilled && remaining.shouldRest then s.addOrder remaining
  else if !remaining.isFilled && left.isPositive then
    s.releaseBalance remaining.owner token left
  else return s

/-- Match an order whose reserve is taken, and settle the result. -/
def executeOrder (s : SpotEngineState) (marketId : SpotMarketId) (market : SpotMarket)
    (order : Order) (token : TokenIndex) (reserve : Decimal) :
    Exec (Except Error (Order × List SpotFill) × SpotEngineState) :=
  match s.orderbooks[marketId]? with
  | none => return (.error (.marketNotFound marketId), s)
  | some book => do
    let m ← matchOrder marketId market.config (turns order book) ⟨order, book, [], [], []⟩
    let s := syncMakers (s.setOrderbook marketId m.book) marketId m
    let (r, s) ← applyFills market.config m.fills s
    match r with
    | .error err => return (.error err, s)
    | .ok () =>
      let s ← s.settleRemaining m.remaining token reserve m.fills
      return (.ok (m.remaining, m.fills), s)

/-- Place a spot order. -/
def placeOrder (s : SpotEngineState) (account : AccountAddress) (marketId : SpotMarketId)
    (request : OrderRequest) (timestamp : Timestamp) :
    Exec (Except Error (Order × List SpotFill) × SpotEngineState) :=
  match s.getMarket marketId with
  | none => return (.error (.marketNotFound marketId), s)
  | some market =>
    if !market.config.isActive then return (.error (.marketPaused market.config.symbol), s)
    else do
      match ← validateOrder request market.config with
      | .error err => return (.error err, s)
      | .ok () =>
        let (token, reserve) ← reserveFor market.config request.side request.size request.price
        let available ← (s.getBalance account token).available
        let insufficient : Error :=
          .insufficientBalance reserve.toStringTrimmed available.toStringTrimmed
        if available < reserve then return (.error insufficient, s)
        else
          let (reserved, s) ← s.reserveBalance account token reserve
          if !reserved then return (.error insufficient, s)
          else
            let (orderId, s) ← s.takeOrderId
            s.executeOrder marketId market (.new orderId account request timestamp) token reserve

/-! ### Cancelling -/

/-- Cancel a spot order. -/
def cancelOrder (s : SpotEngineState) (account : AccountAddress) (marketId : SpotMarketId)
    (orderId : OrderId) : Exec (Except Error Order × SpotEngineState) :=
  match s.getOrder marketId orderId with
  | none => return (.error (.orderNotFound orderId), s)
  | some order =>
    if order.owner ≠ account then return (.error .orderNotOwned, s)
    else match s.getMarket marketId with
      | none => return (.error (.marketNotFound marketId), s)
      | some market => do
        let (token, amount) ← reserveFor market.config order.side order.remainingSize order.price
        let s ← s.releaseBalance account token amount
        return (.ok order.cancel, s.removeOrder marketId orderId)

/-- Cancel the given orders; failed cancellations are skipped. -/
def cancelOrders (account : AccountAddress) (marketId : SpotMarketId) : List Order →
    SpotEngineState → Exec (List Order × SpotEngineState)
  | [], s => return ([], s)
  | o :: os, s => do
    let (r, s) ← s.cancelOrder account marketId o.id
    let (rest, s) ← cancelOrders account marketId os s
    match r with
    | .ok c => return (c :: rest, s)
    | .error _ => return (rest, s)

/-- Cancel all orders of an account in a market. -/
def cancelAllOrders (s : SpotEngineState) (account : AccountAddress)
    (marketId : SpotMarketId) : Exec (List Order × SpotEngineState) :=
  cancelOrders account marketId (s.getOrdersByAccount account marketId) s

/-! ### Transfers to the EVM -/

/-- Transfer between the core and EVM views. Toward the EVM only what no open order
has reserved can leave. -/
def viewTransfer (s : SpotEngineState) (account : AccountAddress) (token : TokenIndex)
    (amount : Decimal) (toEvm : Bool) : Exec (Except Error Unit × SpotEngineState) := do
  if toEvm then
    let available ← (s.getBalance account token).available
    if available < amount then
      return (.error (.insufficientBalance amount.toStringTrimmed available.toStringTrimmed), s)
    else
      let (r, unifiedState) ← s.unifiedState.transferToEvmView account token amount
      return (r.mapError fun e => .internal e.message, { s with unifiedState })
  else
    let (r, unifiedState) ← s.unifiedState.transferToCoreView account token amount
    return (r.mapError fun e => .internal e.message, { s with unifiedState })

/-- Transfer of a token between EVM and core through its system address, the way that
`viewTransfer` replaces. -/
def bridgeTransfer (keccak256 : List UInt8 → List UInt8) (s : SpotEngineState)
    (tokenIndex : TokenIndex) (sender receiver : AccountAddress) (amount : Decimal)
    (isToCore : Bool) : Exec (Except Error Unit × SpotEngineState) :=
  match s.getToken tokenIndex with
  | none => return (.error (.internal s!"Token {tokenIndex} not found"), s)
  | some token =>
    let systemAddress := SpotToken.deriveSystemAddress keccak256 token.index
    if isToCore then
      if sender ≠ systemAddress then
        return (.error (.internal
          "Invalid input: Bridge transfer must come from system address"), s)
      else do
        let s ← s.creditBalance receiver tokenIndex amount
        return (.ok (), s)
    else
      if receiver ≠ systemAddress then
        return (.error (.internal
          "Invalid input: Bridge transfer must go to system address"), s)
      else do
        let (paid, s) ← s.debitBalance sender tokenIndex amount
        if !paid then
          let available ← (s.getBalance sender tokenIndex).available
          return (.error (.insufficientBalance amount.toStringTrimmed
            available.toStringTrimmed), s)
        return (.ok (), s)

end SpotEngineState

end Hypercore
