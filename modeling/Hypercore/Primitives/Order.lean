import Hypercore.Lib.FinMap
import Hypercore.Primitives.Decimal
/-!
# Hypercore.Primitives.Order

Identifiers, order requests, orders, and the key that sorts a side of the book.
-/

namespace Hypercore

open Exec Int128

/-- Account address: twenty bytes, ordered as a big-endian number. -/
abbrev AccountAddress := Fin (2 ^ 160)

instance lawfulEqOrdAccountAddress : Std.LawfulEqOrd AccountAddress :=
  inferInstanceAs (Std.LawfulEqOrd (Fin (2 ^ 160)))

abbrev MarketId := UInt8
abbrev OrderId := Nat

-- Addresses and market orders as keys.
instance transOrdAddress : Std.TransOrd AccountAddress :=
  inferInstanceAs (Std.TransOrd (Fin (2 ^ 160)))
instance lawfulBEqAddress : LawfulBEq AccountAddress :=
  inferInstanceAs (LawfulBEq (Fin (2 ^ 160)))
instance lawfulBEqMarketOrder : LawfulBEq (MarketId × OrderId) :=
  inferInstanceAs (LawfulBEq (UInt8 × Nat))

abbrev ClientOrderId := String

/-- Milliseconds since the Unix epoch. -/
abbrev Timestamp := Nat

/-- Margin mode for an account. -/
inductive MarginMode
  /-- Each position has independent margin (default). -/
  | isolated
  /-- All positions share margin across the account. -/
  | cross
  deriving DecidableEq, Repr

inductive OrderSide
  | buy
  | sell
  deriving DecidableEq, Repr

/-- Time-in-force for limit orders. -/
inductive TimeInForce
  /-- Good-til-canceled. -/
  | gtc
  /-- Immediate-or-cancel. -/
  | ioc
  /-- Fill-or-kill. -/
  | fok
  /-- Post-only (add-liquidity-only). -/
  | alo
  deriving DecidableEq, Repr

inductive OrderType
  | limit (tif : TimeInForce)
  /-- Executes as IOC at worst price. -/
  | market
  deriving DecidableEq, Repr

inductive OrderStatus
  | open
  | partiallyFilled
  | filled
  | canceled
  | rejected
  deriving DecidableEq, Repr

/-- Whether a trigger order fires at or above, or at or below, its trigger price. -/
inductive TriggerDirection
  | above
  | below
  deriving DecidableEq, Repr

/-- Order request (input from the user). -/
structure OrderRequest where
  marketId : MarketId
  side : OrderSide
  /-- Limit price. -/
  price : Decimal
  size : Decimal
  orderType : OrderType
  reduceOnly : Bool
  clientOrderId : Option ClientOrderId
  /-- `none` for regular orders. -/
  triggerPrice : Option Decimal
  triggerDirection : Option TriggerDirection
  deriving DecidableEq, Repr

/-- Order stored in the order book. -/
structure Order where
  id : OrderId
  owner : AccountAddress
  marketId : MarketId
  side : OrderSide
  price : Decimal
  originalSize : Decimal
  remainingSize : Decimal
  orderType : OrderType
  reduceOnly : Bool
  /-- Derived from the order type. -/
  postOnly : Bool
  clientOrderId : Option ClientOrderId
  timestamp : Timestamp
  status : OrderStatus
  triggerPrice : Option Decimal
  triggerDirection : Option TriggerDirection
  isTriggered : Bool
  deriving DecidableEq, Repr

namespace Order

/-- Create a new order from a request. -/
def new (id : OrderId) (owner : AccountAddress) (request : OrderRequest)
    (timestamp : Timestamp) : Order where
  id := id
  owner := owner
  marketId := request.marketId
  side := request.side
  price := request.price
  originalSize := request.size
  remainingSize := request.size
  orderType := request.orderType
  reduceOnly := request.reduceOnly
  postOnly := request.orderType = .limit .alo
  clientOrderId := request.clientOrderId
  timestamp := timestamp
  status := .open
  triggerPrice := request.triggerPrice
  triggerDirection := request.triggerDirection
  isTriggered := false

def isFilled (o : Order) : Bool := o.remainingSize.isZero

/-- Good-til-canceled and post-only orders rest on the book. -/
def shouldRest (o : Order) : Bool :=
  match o.orderType with
  | .limit tif => tif = .gtc || tif = .alo
  | .market => false

def isFok (o : Order) : Bool := o.orderType = .limit .fok

/-- Fill a portion of the order. -/
def fill (o : Order) (size : Decimal) : Exec Order := do
  let remaining ← o.remainingSize.sub size
  return { o with
    remainingSize := remaining
    status := if remaining.isZero then .filled else .partiallyFilled }

/-- Cancel the order. -/
def cancel (o : Order) : Order := { o with status := .canceled }

theorem shouldRest_iff {o : Order} : o.shouldRest = true ↔
    o.orderType = .limit .gtc ∨ o.orderType = .limit .alo := by
  unfold shouldRest
  cases o.orderType with
  | limit tif => simp
  | market => simp

/-- A fill lowers the remaining size and sets the status; nothing else moves. -/
theorem fill_eq_ok {o o' : Order} {size : Decimal} (h : o.fill size = .ok o') :
    o' = { o with remainingSize := o'.remainingSize, status := o'.status } ∧
      o'.remainingSize = ⟨o.remainingSize.value - size.value, o.remainingSize.decimals⟩ := by
  obtain ⟨r, hr, h⟩ := bind_inv h
  obtain ⟨-, rfl⟩ := Decimal.sub_eq_ok.mp hr
  obtain rfl := pure_inv h
  exact ⟨rfl, rfl⟩

end Order

/-! ### Order keys -/

/-- Key for sorting one side of the book: price, then time, then id. -/
structure OrderKey where
  /-- Price, negated for bids so that larger prices come first. -/
  priceKey : Int
  timestamp : Timestamp
  orderId : OrderId
  deriving DecidableEq, Repr

namespace OrderKey

/-- Key for a bid order (price descending): `-price.raw()`. -/
def bid (price : Decimal) (timestamp : Timestamp) (orderId : OrderId) : Exec OrderKey := do
  let k ← i128 (-price.value)
  return ⟨k, timestamp, orderId⟩

/-- Key for an ask order (price ascending). -/
def ask (price : Decimal) (timestamp : Timestamp) (orderId : OrderId) : OrderKey :=
  ⟨price.value, timestamp, orderId⟩

instance : Ord OrderKey where
  compare a b :=
    (compare a.priceKey b.priceKey).then
      ((compare a.timestamp b.timestamp).then (compare a.orderId b.orderId))

theorem compare_def (a b : OrderKey) : compare a b =
    (compare a.priceKey b.priceKey).then
      ((compare a.timestamp b.timestamp).then (compare a.orderId b.orderId)) := rfl

theorem compare_eq_compareLex : (compare : OrderKey → OrderKey → Ordering) =
    compareLex (compareOn priceKey) (compareLex (compareOn timestamp) (compareOn orderId)) := rfl

instance : Std.TransOrd OrderKey := by
  show Std.TransCmp (compare : OrderKey → OrderKey → Ordering)
  rw [compare_eq_compareLex]
  infer_instance

instance : Std.LawfulEqOrd OrderKey where
  eq_of_compare {a b} h := by
    obtain ⟨p, t, i⟩ := a
    obtain ⟨p', t', i'⟩ := b
    simp only [compare_def, Ordering.then_eq_eq, Std.compare_eq_iff_eq] at h
    obtain ⟨rfl, rfl, rfl⟩ := h
    rfl

end OrderKey

end Hypercore
