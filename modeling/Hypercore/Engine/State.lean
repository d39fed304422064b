import Hypercore.Engine.Matching
import Hypercore.Primitives.Market
import Hypercore.Primitives.Position
/-!
# Hypercore.Engine.State

The state of the perpetuals engine and its elementary updates.

An order is recorded in three places: the `orders` map, the order book of its
market, and the `accountOrders` index. Trigger orders live in two maps sorted by
trigger price and in `triggerOrderIndex`.
-/

namespace Hypercore

open Exec Int128

/-- Trigger orders of one market and direction, by raw trigger price. -/
abbrev TriggerMap := FinMap Int (List Order)

/-- Engine state containing all runtime data. -/
structure EngineState where
  accounts : FinMap AccountAddress AccountState
  /-- Positions per account per market. -/
  positions : FinMap AccountAddress (FinMap MarketId Position)
  /-- Leverage settings per account per market. -/
  leverage : FinMap AccountAddress (FinMap MarketId UInt8)
  markets : FinMap MarketId Market
  orderbooks : FinMap MarketId OrderBook
  /-- Orders indexed by market and order id. -/
  orders : FinMap MarketId (FinMap OrderId Order)
  /-- Orders indexed by account. -/
  accountOrders : FinMap AccountAddress (FinMap MarketId (List OrderId))
  insuranceFund : Int
  nextOrderId : OrderId
  /-- Recent fills per account. -/
  accountFills : FinMap AccountAddress (List Fill)
  /-- Recent trades per market. -/
  recentTrades : FinMap MarketId (List Fill)
  fundingHistory : FinMap AccountAddress (List FundingPayment)
  marketFundingHistory : FinMap MarketId (List (Timestamp × Int))
  marginMode : FinMap AccountAddress MarginMode
  triggerOrdersAbove : FinMap MarketId TriggerMap
  triggerOrdersBelow : FinMap MarketId TriggerMap
  /-- Index for trigger order lookup. -/
  triggerOrderIndex : FinMap OrderId (MarketId × TriggerDirection × Int)

namespace EngineState

/-- A new engine state. -/
def new : EngineState where
  accounts := ∅
  positions := ∅
  leverage := ∅
  markets := ∅
  orderbooks := ∅
  orders := ∅
  accountOrders := ∅
  insuranceFund := 0
  nextOrderId := 1
  accountFills := ∅
  recentTrades := ∅
  fundingHistory := ∅
  marketFundingHistory := ∅
  marginMode := ∅
  triggerOrdersAbove := ∅
  triggerOrdersBelow := ∅
  triggerOrderIndex := ∅

/-! ### Accounts -/

def getAccount (s : EngineState) (a : AccountAddress) : Option AccountState := s.accounts[a]?

/-- Create the account if needed. -/
def getOrCreateAccount (s : EngineState) (a : AccountAddress) : EngineState :=
  match s.accounts[a]? with
  | some _ => s
  | none => { s with accounts := s.accounts.insert a .default }

/-- Write through `get_account_mut`; nothing happens without an account. -/
def modifyAccount (s : EngineState) (a : AccountAddress)
    (f : AccountState → Exec AccountState) : Exec EngineState :=
  match s.accounts[a]? with
  | none => return s
  | some acc => do
    let acc ← f acc
    return { s with accounts := s.accounts.insert a acc }

/-- Deposit funds to an account. -/
def deposit (s : EngineState) (a : AccountAddress) (amount : Nat) : Exec EngineState :=
  (s.getOrCreateAccount a).modifyAccount a fun acc => do
    let balance ← i128 (acc.balance + ofU128 amount)
    return { acc with balance }

/-- Withdraw funds from an account. -/
def withdraw (s : EngineState) (a : AccountAddress) (amount : Nat) :
    Exec (Bool × EngineState) :=
  match s.accounts[a]? with
  | none => return (false, s)
  | some acc =>
    if ofU128 amount ≤ acc.balance then do
      let balance ← i128 (acc.balance - ofU128 amount)
      return (true, { s with accounts := s.accounts.insert a { acc with balance } })
    else return (false, s)

/-- Account balance as a decimal, zero without an account. -/
def getBalance (s : EngineState) (a : AccountAddress) : Decimal :=
  ⟨((s.accounts[a]?).map (·.balance)).getD 0, 6⟩

/-! ### Positions, leverage, margin mode -/

def getPosition (s : EngineState) (a : AccountAddress) (marketId : MarketId) :
    Option Position :=
  (s.positions[a]?).bind (·[marketId]?)

/-- Insert a position. -/
def setPosition (s : EngineState) (a : AccountAddress) (marketId : MarketId) (p : Position) :
    EngineState :=
  { s with positions :=
      s.positions.insert a (((s.positions[a]?).getD ∅).insert marketId p) }

/-- Create the position if needed. -/
def getOrCreatePosition (s : EngineState) (a : AccountAddress) (marketId : MarketId) :
    EngineState :=
  match s.getPosition a marketId with
  | some _ => s
  | none => s.setPosition a marketId .new

/-- Write through `get_position_mut`; nothing happens without a position. -/
def modifyPosition (s : EngineState) (a : AccountAddress) (marketId : MarketId)
    (f : Position → Exec Position) : Exec EngineState :=
  match s.getPosition a marketId with
  | none => return s
  | some p => do
    let p ← f p
    return s.setPosition a marketId p

/-- All positions of an account. -/
def getAllPositions (s : EngineState) (a : AccountAddress) : List (MarketId × Position) :=
  ((s.positions[a]?).getD ∅).toList

/-- Leverage for an account in a market, ten by default. -/
def getLeverage (s : EngineState) (a : AccountAddress) (marketId : MarketId) : UInt8 :=
  ((s.leverage[a]?).bind (·[marketId]?)).getD 10

def setLeverage (s : EngineState) (a : AccountAddress) (marketId : MarketId) (l : UInt8) :
    EngineState :=
  { s with leverage := s.leverage.insert a (((s.leverage[a]?).getD ∅).insert marketId l) }

def getMarginMode (s : EngineState) (a : AccountAddress) : MarginMode :=
  (s.marginMode[a]?).getD .isolated

def setMarginMode (s : EngineState) (a : AccountAddress) (mode : MarginMode) : EngineState :=
  { s with marginMode := s.marginMode.insert a mode }

/-! ### Markets and books -/

/-- Add a market, with an empty book and no orders. -/
def addMarket (s : EngineState) (market : Market) : EngineState :=
  { s with
    markets := s.markets.insert market.id market
    orderbooks := s.orderbooks.insert market.id .new
    orders := s.orders.insert market.id ∅ }

def getMarket (s : EngineState) (marketId : MarketId) : Option Market := s.markets[marketId]?

/-- Write to the state of a market; nothing happens without one. -/
def modifyMarket (s : EngineState) (marketId : MarketId)
    (f : MarketState → Exec MarketState) : Exec EngineState :=
  match s.markets[marketId]? with
  | none => return s
  | some m => do
    let state ← f m.state
    return { s with markets := s.markets.insert marketId { m with state } }

/-- Market ids in ascending order. -/
def getMarketIds (s : EngineState) : List MarketId := s.markets.toList.map (·.1)

def getOrderbook (s : EngineState) (marketId : MarketId) : Option OrderBook :=
  s.orderbooks[marketId]?

/-- Put a book back after matching in it. -/
def setOrderbook (s : EngineState) (marketId : MarketId) (book : OrderBook) : EngineState :=
  { s with orderbooks := s.orderbooks.insert marketId book }

/-- Move the mark price toward a trade: `0.9 * old + 0.1 * trade`, or the trade
itself when there is no mark price yet. -/
def updateMarkPrice (s : EngineState) (marketId : MarketId) (tradePrice : Decimal) :
    Exec EngineState :=
  s.modifyMarket marketId fun m =>
    if m.markPrice.isZero then return { m with markPrice := tradePrice }
    else do
      let trade ← tradePrice.toDecimals m.markPrice.decimals
      let old ← m.markPrice.mul ⟨9, 1⟩
      let new ← trade.mul ⟨1, 1⟩
      let smoothed ← old.add new
      return { m with markPrice := smoothed }

/-! ### Orders -/

/-- Take the next order id. -/
def takeOrderId (s : EngineState) : Exec (OrderId × EngineState) := do
  let next ← u64 (s.nextOrderId + 1)
  return (s.nextOrderId, { s with nextOrderId := next })

def getOrder (s : EngineState) (marketId : MarketId) (orderId : OrderId) : Option Order :=
  (s.orders[marketId]?).bind (·[orderId]?)

/-- The ids recorded for an account in a market. -/
def orderIds (s : EngineState) (a : AccountAddress) (marketId : MarketId) : List OrderId :=
  ((s.accountOrders[a]?).bind (·[marketId]?)).getD []

/-- Replace the ids recorded for an account in a market. -/
def setOrderIds (s : EngineState) (a : AccountAddress) (marketId : MarketId)
    (ids : List OrderId) : EngineState :=
  { s with accountOrders :=
      s.accountOrders.insert a (((s.accountOrders[a]?).getD ∅).insert marketId ids) }

/-- Write a record of the orders map; nothing happens without the market. -/
def putRecord (s : EngineState) (marketId : MarketId) (order : Order) : EngineState :=
  match s.orders[marketId]? with
  | none => s
  | some m => { s with orders := s.orders.insert marketId (m.insert order.id order) }

/-- Erase a record of the orders map. -/
def eraseRecord (s : EngineState) (marketId : MarketId) (orderId : OrderId) : EngineState :=
  match s.orders[marketId]? with
  | none => s
  | some m => { s with orders := s.orders.insert marketId (m.erase orderId) }

/-- Insert an order into the book of a market, when it has one. -/
def insertInBook (s : EngineState) (marketId : MarketId) (order : Order) : Exec EngineState :=
  match s.orderbooks[marketId]? with
  | none => return s
  | some book => do
    let book ← book.insert order
    return s.setOrderbook marketId book

/-- Remove an order from the book of a market, when it has one. -/
def removeFromBook (s : EngineState) (marketId : MarketId) (orderId : OrderId) : EngineState :=
  match s.orderbooks[marketId]? with
  | none => s
  | some book => s.setOrderbook marketId (book.remove orderId).2

/-- Drop an id from the account index, when the account has an entry. -/
def removeFromIndex (s : EngineState) (a : AccountAddress) (marketId : MarketId)
    (orderId : OrderId) : EngineState :=
  match (s.accountOrders[a]?).bind (·[marketId]?) with
  | none => s
  | some ids => s.setOrderIds a marketId (ids.filter (· ≠ orderId))

/-- Add an order to the three places. -/
def addOrder (s : EngineState) (order : Order) : Exec EngineState := do
  let s ← (s.putRecord order.marketId order).insertInBook order.marketId order
  return s.setOrderIds order.owner order.marketId
    (s.orderIds order.owner order.marketId ++ [order.id])

/-- Remove an order from the three places; nothing happens when the orders map does
not have it. -/
def removeOrder (s : EngineState) (marketId : MarketId) (orderId : OrderId) :
    Option Order × EngineState :=
  match s.getOrder marketId orderId with
  | none => (none, s)
  | some order =>
    (some order, ((s.eraseRecord marketId orderId).removeFromBook marketId orderId).removeFromIndex
      order.owner marketId orderId)

/-- The orders of an account in a market. -/
def getOrdersByAccount (s : EngineState) (a : AccountAddress) (marketId : MarketId) :
    List Order :=
  (s.orderIds a marketId).filterMap (s.getOrder marketId)

/-- Record the new remaining size of a partially filled order. -/
def updateOrderRemaining (s : EngineState) (marketId : MarketId) (orderId : OrderId)
    (newRemaining : Decimal) : EngineState :=
  match s.orders[marketId]? with
  | none => s
  | some m =>
    match m[orderId]? with
    | none => s
    | some order =>
      let order := { order with remainingSize := newRemaining, status := .partiallyFilled }
      { s with orders := s.orders.insert marketId (m.insert orderId order) }

/-! ### Insurance fund -/

def addToInsuranceFund (s : EngineState) (amount : Int) : Exec EngineState := do
  let insuranceFund ← i128 (s.insuranceFund + amount)
  return { s with insuranceFund }

/-- Use the insurance fund; `false` if it does not cover the amount. -/
def useInsuranceFund (s : EngineState) (amount : Int) : Exec (Bool × EngineState) :=
  if amount ≤ s.insuranceFund then do
    let insuranceFund ← i128 (s.insuranceFund - amount)
    return (true, { s with insuranceFund })
  else return (false, s)

/-! ### Trigger orders -/

/-- The trigger orders of one direction. -/
def triggers (s : EngineState) : TriggerDirection → FinMap MarketId TriggerMap
  | .above => s.triggerOrdersAbove
  | .below => s.triggerOrdersBelow

def setTriggers (s : EngineState) (d : TriggerDirection) (m : FinMap MarketId TriggerMap) :
    EngineState :=
  match d with
  | .above => { s with triggerOrdersAbove := m }
  | .below => { s with triggerOrdersBelow := m }

/-- Store a trigger order (TP/SL) for later activation. -/
def addTriggerOrder (s : EngineState) (order : Order) : EngineState :=
  match order.triggerPrice, order.triggerDirection with
  | some price, some direction =>
    let byPrice := ((s.triggers direction)[order.marketId]?).getD ∅
    let byPrice := byPrice.insert price.value ((byPrice[price.value]?).getD [] ++ [order])
    let s := s.setTriggers direction ((s.triggers direction).insert order.marketId byPrice)
    { s with triggerOrderIndex :=
        s.triggerOrderIndex.insert order.id (order.marketId, direction, price.value) }
  | _, _ => s

/-- Remove a trigger order by id. -/
def removeTriggerOrder (s : EngineState) (orderId : OrderId) : Option Order × EngineState :=
  match s.triggerOrderIndex[orderId]? with
  | none => (none, s)
  | some (marketId, direction, price) =>
    let s := { s with triggerOrderIndex := s.triggerOrderIndex.erase orderId }
    match (s.triggers direction)[marketId]? with
    | none => (none, s)
    | some byPrice =>
      match byPrice[price]? with
      | none => (none, s)
      | some orders =>
        match orders.find? (·.id = orderId) with
        | none => (none, s)
        | some order =>
          let orders := orders.eraseP (·.id = orderId)
          let byPrice :=
            if orders = [] then byPrice.erase price else byPrice.insert price orders
          (some order, s.setTriggers direction ((s.triggers direction).insert marketId byPrice))

/-- A trigger price that a mark price reaches. -/
def reached (direction : TriggerDirection) (price mark : Int) : Bool :=
  match direction with
  | .above => price ≤ mark
  | .below => mark ≤ price

/-- `get_triggered_orders_above` and `get_triggered_orders_below`: take out all
trigger orders of one direction that the mark price reaches. -/
def getTriggeredOrders (direction : TriggerDirection) (s : EngineState) (marketId : MarketId)
    (markPrice : Decimal) : List Order × EngineState :=
  match (s.triggers direction)[marketId]? with
  | none => ([], s)
  | some byPrice =>
    let triggered := byPrice.toList.filter fun p => reached direction p.1 markPrice.value
    let result := triggered.flatMap (·.2)
    let byPrice := triggered.foldl (fun m p => m.erase p.1) byPrice
    let s := s.setTriggers direction ((s.triggers direction).insert marketId byPrice)
    let index := result.foldl (fun ix o => ix.erase o.id) s.triggerOrderIndex
    (result, { s with triggerOrderIndex := index })

/-- The stored trigger orders of a market, in one direction. -/
def triggerOrders (s : EngineState) (direction : TriggerDirection) (marketId : MarketId) :
    List Order :=
  (((s.triggers direction)[marketId]?).getD ∅).toList.flatMap (·.2)

/-- Cancel all trigger orders for an account in a market. -/
def cancelTriggerOrdersForPosition (s : EngineState) (a : AccountAddress)
    (marketId : MarketId) : EngineState :=
  let toRemove := (s.triggerOrders .above marketId ++ s.triggerOrders .below marketId).filter
    (·.owner = a)
  toRemove.foldl (fun s o => (s.removeTriggerOrder o.id).2) s

/-! ### Histories -/

/-- Append to a history, dropping the oldest entry beyond `max`. -/
def pushBounded {α : Type} (max : Nat) (l : List α) (x : α) : List α :=
  if (l ++ [x]).length > max then (l ++ [x]).tail else l ++ [x]

/-- Record a fill for maker, taker and market. -/
def recordFill (s : EngineState) (fill : Fill) : EngineState :=
  let push (m : FinMap AccountAddress (List Fill)) (a : AccountAddress) :=
    m.insert a (pushBounded 1000 ((m[a]?).getD []) fill)
  { s with
    accountFills := push (push s.accountFills fill.maker) fill.taker
    recentTrades := s.recentTrades.insert fill.marketId
      (pushBounded 500 ((s.recentTrades[fill.marketId]?).getD []) fill) }

def recordFundingPayment (s : EngineState) (p : FundingPayment) : EngineState :=
  { s with
    fundingHistory := s.fundingHistory.insert p.account
      (pushBounded 500 ((s.fundingHistory[p.account]?).getD []) p) }

def recordMarketFunding (s : EngineState) (marketId : MarketId) (timestamp : Timestamp)
    (rate : Int) : EngineState :=
  { s with
    marketFundingHistory := s.marketFundingHistory.insert marketId
      (pushBounded 1000 ((s.marketFundingHistory[marketId]?).getD []) (timestamp, rate)) }

/-! ### Lookups after a write -/

section Lookups

variable {s s' : EngineState} {a b : AccountAddress} {m k : MarketId}

theorem getPosition_setPosition (p : Position) : (s.setPosition a m p).getPosition b k =
    if a = b ∧ m = k then some p else s.getPosition b k := by
  unfold getPosition setPosition
  simp only [FinMap.get_insert]
  by_cases hab : a = b
  · subst hab
    simp only [if_pos, Option.bind_some, FinMap.get_insert, true_and]
    split
    · rfl
    · cases s.positions[a]? <;> simp
  · simp [hab]

theorem getPosition_getOrCreatePosition : (s.getOrCreatePosition a m).getPosition b k =
    if a = b ∧ m = k then some ((s.getPosition a m).getD .new) else s.getPosition b k := by
  unfold getOrCreatePosition
  cases hp : s.getPosition a m with
  | none => rw [getPosition_setPosition]; rfl
  | some p =>
    dsimp only
    split
    · rename_i h
      rw [← h.1, ← h.2, hp]
      rfl
    · rfl

theorem getAccount_getOrCreateAccount : (s.getOrCreateAccount a).getAccount b =
    if a = b then some ((s.getAccount a).getD .default) else s.getAccount b := by
  unfold getOrCreateAccount getAccount
  cases ha : s.accounts[a]? with
  | none =>
    dsimp only
    rw [FinMap.get_insert]
    rfl
  | some acc =>
    dsimp only
    split
    · rename_i h
      rw [← h, ha]
      rfl
    · rfl

/-- Writing through `get_position_mut`: the one position, when it exists. -/
theorem modifyPosition_eq_ok {f : Position → Exec Position}
    (h : s.modifyPosition a m f = .ok s') :
    (s.getPosition a m = none ∧ s' = s) ∨
      ∃ p p', s.getPosition a m = some p ∧ f p = .ok p' ∧ s' = s.setPosition a m p' := by
  unfold modifyPosition at h
  split at h
  · rename_i hp
    exact .inl ⟨hp, (pure_inv h).symm⟩
  · rename_i p hp
    obtain ⟨p', hf, h⟩ := bind_inv h
    exact .inr ⟨p, p', hp, hf, (pure_inv h).symm⟩

/-- Writing through `get_account_mut`: the one account, when it exists. -/
theorem modifyAccount_eq_ok {f : AccountState → Exec AccountState}
    (h : s.modifyAccount a f = .ok s') :
    (s.getAccount a = none ∧ s' = s) ∨
      ∃ acc acc', s.getAccount a = some acc ∧ f acc = .ok acc' ∧
        s' = { s with accounts := s.accounts.insert a acc' } := by
  unfold modifyAccount at h
  split at h
  · rename_i ha
    exact .inl ⟨ha, (pure_inv h).symm⟩
  · rename_i acc ha
    obtain ⟨acc', hf, h⟩ := bind_inv h
    exact .inr ⟨acc, acc', ha, hf, (pure_inv h).symm⟩

/-- Writing to a market's state: the one market, when it exists. -/
theorem modifyMarket_eq_ok {f : MarketState → Exec MarketState}
    (h : s.modifyMarket m f = .ok s') :
    (s.getMarket m = none ∧ s' = s) ∨
      ∃ mk st, s.getMarket m = some mk ∧ f mk.state = .ok st ∧
        s' = { s with markets := s.markets.insert m { mk with state := st } } := by
  unfold modifyMarket at h
  split at h
  · rename_i hm
    exact .inl ⟨hm, (pure_inv h).symm⟩
  · rename_i mk hm
    obtain ⟨st, hf, h⟩ := bind_inv h
    exact .inr ⟨mk, st, hm, hf, (pure_inv h).symm⟩

end Lookups

end EngineState

end Hypercore
