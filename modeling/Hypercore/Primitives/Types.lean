import Hypercore.Primitives.Order
/-!
# Hypercore.Primitives.Types

Records that engines exchange, and the errors they return.
-/

namespace Hypercore

abbrev TokenIndex := UInt8

instance transOrdAddressToken : Std.TransOrd (PairKey AccountAddress TokenIndex) :=
  PairKey.instTransOrd

/-- What arithmetic that leaves its type does in a build: it traps where overflow checks are on,
and wraps where they are off. -/
inductive Overflow
  | trap
  | wrap
  deriving DecidableEq, Repr

/-- Fill event from matching. Prices, sizes and taker fees are `u128`, the maker
fee and the realized PnL `i128`. -/
structure Fill where
  marketId : MarketId
  maker : AccountAddress
  taker : AccountAddress
  makerOrderId : OrderId
  takerOrderId : OrderId
  price : Nat
  size : Nat
  makerFee : Int
  takerFee : Nat
  timestamp : Timestamp
  isTakerBuy : Bool
  /-- Zero when the fill opens a position. -/
  realizedPnlMaker : Int
  realizedPnlTaker : Int
  deriving DecidableEq, Repr

/-- Funding payment event. -/
structure FundingPayment where
  marketId : MarketId
  account : AccountAddress
  payment : Int
  positionSize : Int
  fundingRate : Int
  timestamp : Timestamp
  deriving DecidableEq, Repr

/-- Account state: the USDC balance in micro-units. The two nonce fields of the
record are never read or written by the engine and are left out. -/
structure AccountState where
  balance : Int
  deriving DecidableEq, Repr

/-- The default account. -/
def AccountState.default : AccountState := ⟨0⟩

/-- Margin summary for an account. -/
structure MarginSummary where
  accountValue : Int
  totalPositionValue : Nat
  totalInitialMargin : Nat
  totalMaintenanceMargin : Nat
  freeCollateral : Int
  withdrawable : Nat
  deriving DecidableEq, Repr

/-- Error type of engine operations. -/
inductive Error
  | insufficientMargin (required available : String)
  | insufficientBalance (required available : String)
  | invalidPrice (price tickSize : String)
  | invalidSize (size lotSize : String)
  | sizeTooSmall (size minSize : String)
  | sizeTooLarge (size maxSize : String)
  | orderNotFound (id : OrderId)
  | orderNotOwned
  | postOnlyWouldCross
  | reduceOnlyViolation
  | fokNotFilled
  | invalidOrderType
  | marketNotFound (id : MarketId)
  | marketPaused (symbol : String)
  | maxPositionExceeded (maxNotional : String)
  | invalidLeverage (leverage maxLeverage : UInt8)
  | leverageWouldCauseLiquidation
  | internal (message : String)
  deriving DecidableEq, Repr

/-- The text of an error. -/
def Error.message : Error → String
  | insufficientMargin required available =>
    "Insufficient margin: required " ++ required ++ ", available " ++ available
  | insufficientBalance required available =>
    "Insufficient balance: required " ++ required ++ ", available " ++ available
  | invalidPrice price tickSize =>
    "Invalid price: " ++ price ++ " is not a multiple of tick size " ++ tickSize
  | invalidSize size lotSize =>
    "Invalid size: " ++ size ++ " is not a multiple of lot size " ++ lotSize
  | sizeTooSmall _ minSize => "Size too small: minimum is " ++ minSize
  | sizeTooLarge _ maxSize => "Size too large: maximum is " ++ maxSize
  | orderNotFound id => "Order not found: " ++ toString id
  | orderNotOwned => "Order not owned by sender"
  | postOnlyWouldCross => "Post-only order would cross the spread"
  | reduceOnlyViolation => "Reduce-only order would increase position"
  | fokNotFilled => "Fill-or-kill order could not be fully filled"
  | invalidOrderType => "Invalid order type for this operation"
  | marketNotFound id => "Market not found: " ++ toString id
  | marketPaused symbol => "Market " ++ symbol ++ " is paused"
  | maxPositionExceeded maxNotional =>
    "Position would exceed maximum: limit is " ++ maxNotional
  | invalidLeverage leverage maxLeverage =>
    "Invalid leverage: " ++ toString leverage ++ ", must be between 1 and " ++
      toString maxLeverage
  | leverageWouldCauseLiquidation => "Leverage change would cause liquidation"
  | internal message => "Internal error: " ++ message

end Hypercore
