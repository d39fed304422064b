import Hypercore.Engine.OrderBook
import Hypercore.Primitives.Spot
import Hypercore.Primitives.UnifiedState
/-!
# Hypercore.Spot.State

The state of the spot engine and its elementary updates.

Balances live in the unified state, which the source's engine shares through a
handle; here it is a field, put in before a call and read back after it. Reserves
for open orders are local to the engine: the core view they are held against can
be moved by others.
-/

namespace Hypercore

open Exec Int128

/-- Spot engine state. -/
structure SpotEngineState where
  /-- Registered spot tokens. -/
  tokens : FinMap TokenIndex SpotToken
  markets : FinMap SpotMarketId SpotMarket
  orderbooks : FinMap SpotMarketId OrderBook
  /-- The master balance sheet. -/
  unifiedState : UnifiedState
  /-- Reserved balances for open orders. -/
  reserved : FinMap (PairKey AccountAddress TokenIndex) Decimal
  /-- Orders by market. -/
  orders : FinMap SpotMarketId (FinMap OrderId Order)
  /-- Orders by account. -/
  accountOrders : FinMap AccountAddress (FinMap SpotMarketId (List OrderId))
  /-- Starts at one, zero is USDC. -/
  nextTokenIndex : TokenIndex
  nextOrderId : OrderId
  nextMarketId : SpotMarketId

namespace SpotEngineState

/-- A new spot engine state on a balance sheet, with USDC as its only token. -/
def withUnifiedState (u : UnifiedState) : SpotEngineState where
  tokens := (∅ : FinMap TokenIndex SpotToken).insert 0 .usdc
  markets := ∅
  orderbooks := ∅
  unifiedState := u
  reserved := ∅
  orders := ∅
  accountOrders := ∅
  nextTokenIndex := 1
  nextOrderId := 1000000
  nextMarketId := 128

/-! ### Balances and reserves -/

/-- Spot balance: the core view and what is reserved of it. -/
def getBalance (s : SpotEngineState) (a : AccountAddress) (token : TokenIndex) : SpotBalance :=
  let coreView := s.unifiedState.getCoreView a token
  ⟨coreView, (s.reserved[(⟨a, token⟩ : PairKey _ _)]?).getD ⟨0, coreView.decimals⟩⟩

/-- Credit an account's core view. -/
def creditBalance (s : SpotEngineState) (a : AccountAddress) (token : TokenIndex)
    (amount : Decimal) : Exec SpotEngineState := do
  let unifiedState ← s.unifiedState.credit a token amount
  return { s with unifiedState }

/-- Debit an account's core view; `false` if it is insufficient. -/
def debitBalance (s : SpotEngineState) (a : AccountAddress) (token : TokenIndex)
    (amount : Decimal) : Exec (Bool × SpotEngineState) := do
  let (done, unifiedState) ← s.unifiedState.debitCore a token amount
  return (done, { s with unifiedState })

/-- Reserve an amount for an order; `false` if it is not available. -/
def reserveBalance (s : SpotEngineState) (a : AccountAddress) (token : TokenIndex)
    (amount : Decimal) : Exec (Bool × SpotEngineState) := do
  let available ← (s.getBalance a token).available
  if available < amount then return (false, s)
  else
    let key : PairKey AccountAddress TokenIndex := ⟨a, token⟩
    let reserved ← ((s.reserved[key]?).getD ⟨0, amount.decimals⟩).add amount
    return (true, { s with reserved := s.reserved.insert key reserved })

/-- Release a reserved amount, at most what is reserved. -/
def releaseBalance (s : SpotEngineState) (a : AccountAddress) (token : TokenIndex)
    (amount : Decimal) : Exec SpotEngineState :=
  let key : PairKey AccountAddress TokenIndex := ⟨a, token⟩
  match s.reserved[key]? with
  | none => return s
  | some reserved => do
    let left ← reserved.sub (amount.min reserved)
    return { s with reserved := s.reserved.insert key left }

/-! ### Tokens and markets -/

def getToken (s : SpotEngineState) (index : TokenIndex) : Option SpotToken := s.tokens[index]?

def getMarket (s : SpotEngineState) (marketId : SpotMarketId) : Option SpotMarket :=
  s.markets[marketId]?

/-- Market ids in ascending order. -/
def getMarketIds (s : SpotEngineState) : List SpotMarketId := s.markets.toList.map (·.1)

/-- Deploy a new spot token with its USDC market. -/
def deployToken (s : SpotEngineState) (params : SpotTokenDeployParams)
    (deployer : AccountAddress) : Exec (Except Error SpotToken × SpotEngineState) :=
  if params.symbol.utf8ByteSize > 6 then
    return (.error (.internal "Invalid input: Symbol must be <= 6 characters"), s)
  else do
    let needed ← u8 (params.szDecimals.toNat + 5)
    if needed > params.weiDecimals then
      return (.error (.internal "Invalid input: szDecimals + 5 must be <= weiDecimals"), s)
    else
      let token : SpotToken :=
        ⟨s.nextTokenIndex, params.symbol, params.weiDecimals, params.szDecimals⟩
      let nextTokenIndex ← u8 (s.nextTokenIndex.toNat + 1)
      let allocations :=
        if params.genesisAllocations = [] then [(deployer, params.maxSupply)]
        else params.genesisAllocations
      let s ← allocations.foldlM
        (fun s (a, amount) => s.creditBalance a token.index amount) { s with nextTokenIndex }
      let nextMarketId ← u8 (s.nextMarketId.toNat + 1)
      let config ← SpotMarketConfig.newUsdcPair token s.nextMarketId
      return (.ok token, { s with
        tokens := s.tokens.insert token.index token
        markets := s.markets.insert s.nextMarketId (.new config)
        orderbooks := s.orderbooks.insert s.nextMarketId .new
        orders := s.orders.insert s.nextMarketId ∅
        nextMarketId })

/-! ### Orders -/

/-- Take the next order id. -/
def takeOrderId (s : SpotEngineState) : Exec (OrderId × SpotEngineState) := do
  let next ← u64 (s.nextOrderId + 1)
  return (s.nextOrderId, { s with nextOrderId := next })

def getOrder (s : SpotEngineState) (marketId : SpotMarketId) (orderId : OrderId) :
    Option Order :=
  (s.orders[marketId]?).bind (·[orderId]?)

/-- The ids recorded for an account in a market. -/
def orderIds (s : SpotEngineState) (a : AccountAddress) (marketId : SpotMarketId) :
    List OrderId :=
  ((s.accountOrders[a]?).bind (·[marketId]?)).getD []

/-- Replace the ids recorded for an account in a market. -/
def setOrderIds (s : SpotEngineState) (a : AccountAddress) (marketId : SpotMarketId)
    (ids : List OrderId) : SpotEngineState :=
  { s with accountOrders :=
      s.accountOrders.insert a (((s.accountOrders[a]?).getD ∅).insert marketId ids) }

/-- Put a book back after matching in it. -/
def setOrderbook (s : SpotEngineState) (marketId : SpotMarketId) (book : OrderBook) :
    SpotEngineState :=
  { s with orderbooks := s.orderbooks.insert marketId book }

/-- Replace the orders recorded in a market. -/
def setOrders (s : SpotEngineState) (marketId : SpotMarketId) (m : FinMap OrderId Order) :
    SpotEngineState :=
  { s with orders := s.orders.insert marketId m }

/-- Add an order to the orders map, the book and the account index. -/
def addOrder (s : SpotEngineState) (order : Order) : Exec SpotEngineState := do
  let s := match s.orders[order.marketId]? with
    | none => s
    | some m => s.setOrders order.marketId (m.insert order.id order)
  let s ← (match s.orderbooks[order.marketId]? with
    | none => return s
    | some book => do return s.setOrderbook order.marketId (← book.insert order))
  return s.setOrderIds order.owner order.marketId
    (s.orderIds order.owner order.marketId ++ [order.id])

/-- Remove an order from the three places. -/
def removeOrder (s : SpotEngineState) (marketId : SpotMarketId) (orderId : OrderId) :
    SpotEngineState :=
  match s.getOrder marketId orderId, s.orders[marketId]? with
  | some order, some m =>
    let s := s.setOrders marketId (m.erase orderId)
    let s := match s.orderbooks[marketId]? with
      | none => s
      | some book => s.setOrderbook marketId (book.remove orderId).2
    match (s.accountOrders[order.owner]?).bind (·[marketId]?) with
    | none => s
    | some ids => s.setOrderIds order.owner marketId (ids.filter (· ≠ orderId))
  | _, _ => s

/-- Record the new remaining size of a partially filled order. -/
def updateOrderRemaining (s : SpotEngineState) (marketId : SpotMarketId) (orderId : OrderId)
    (newRemaining : Decimal) : SpotEngineState :=
  match s.getOrder marketId orderId, s.orders[marketId]? with
  | some order, some m =>
    s.setOrders marketId (m.insert orderId
      { order with remainingSize := newRemaining, status := .partiallyFilled })
  | _, _ => s

/-- The orders of an account in a market. -/
def getOrdersByAccount (s : SpotEngineState) (a : AccountAddress) (marketId : SpotMarketId) :
    List Order :=
  (s.orderIds a marketId).filterMap (s.getOrder marketId)

end SpotEngineState

end Hypercore
