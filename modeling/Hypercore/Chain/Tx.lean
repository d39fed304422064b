import Hypercore.Primitives.Types
/-!
# Hypercore.Chain.Tx

Transactions as they reach execution: the action, its nonce, and the signer that
its signature recovers to.

Recovery itself is elliptic-curve code outside the repository. A transaction
carries its outcome, so two transactions that differ only in the bytes of the
signature are one transaction here.
-/

namespace Hypercore

/-- Transaction errors that execution meets. -/
inductive TransactionError
  | invalidPrice
  | invalidSize
  | invalidTimeInForce
  | signatureRecoveryFailed
  | invalidSignature
  deriving DecidableEq, Repr

/-- Wire format for trigger orders. -/
structure TriggerOrder where
  isMarket : Bool
  triggerPx : String
  tpsl : String
  deriving DecidableEq, Repr

/-- Wire format for the order type: a limit order with a time-in-force, or a trigger. -/
inductive OrderTypeWire
  | limit (tif : String)
  | trigger (trigger : TriggerOrder)
  deriving DecidableEq, Repr

/-- Convert to the engine's order type. Stop limit orders become good-til-canceled
limit orders. -/
def OrderTypeWire.toOrderType : OrderTypeWire → Except TransactionError OrderType
  | limit tif =>
    if tif = "Gtc" then .ok (.limit .gtc)
    else if tif = "Ioc" then .ok (.limit .ioc)
    else if tif = "Fok" then .ok (.limit .fok)
    else if tif = "Alo" then .ok (.limit .alo)
    else .error .invalidTimeInForce
  | trigger t => .ok (if t.isMarket then .market else .limit .gtc)

/-- Wire format for an order in a transaction. -/
structure OrderWire where
  /-- Market id. -/
  a : MarketId
  /-- Is buy. -/
  b : Bool
  /-- Price. -/
  p : String
  /-- Size. -/
  s : String
  /-- Reduce only. -/
  r : Bool
  /-- Time-in-force or trigger. -/
  t : OrderTypeWire
  /-- Client order id. -/
  c : Option ClientOrderId
  deriving DecidableEq, Repr

namespace OrderWire

/-- Read a decimal of eight places, or fail with the given error. -/
def parse (err : TransactionError) (text : String) : Except TransactionError Decimal :=
  match Decimal.fromStr text.toList with
  | none => .error err
  | some d => .ok d

/-- The direction of a trigger: given, or inferred from the side. -/
def direction (tpsl : String) (isBuy : Bool) : TriggerDirection :=
  if tpsl = "tp" then .above
  else if tpsl = "sl" then .below
  else if isBuy then .below
  else .above

/-- Convert to an order request. -/
def toOrderRequest (w : OrderWire) : Except TransactionError OrderRequest := do
  let price ← parse .invalidPrice w.p
  let size ← parse .invalidSize w.s
  let orderType ← w.t.toOrderType
  let (triggerPrice, triggerDirection) ← (match w.t with
    | .limit _ => .ok (none, none)
    | .trigger t => do
      let tp ← parse .invalidPrice t.triggerPx
      return (some tp, some (direction t.tpsl w.b)))
  return {
    marketId := w.a
    side := if w.b then .buy else .sell
    price, size, orderType
    reduceOnly := w.r
    clientOrderId := w.c
    triggerPrice, triggerDirection }

/-- A request is for the market that the wire names. -/
theorem toOrderRequest_marketId {w : OrderWire} {q : OrderRequest}
    (h : w.toOrderRequest = .ok q) : q.marketId = w.a := by
  obtain ⟨price, -, h⟩ := Exec.ok_of_bind h
  obtain ⟨size, -, h⟩ := Exec.ok_of_bind h
  obtain ⟨orderType, -, h⟩ := Exec.ok_of_bind h
  obtain ⟨trigger, -, h⟩ := Exec.ok_of_bind h
  cases h
  rfl

end OrderWire

/-- Wire format for a cancellation. -/
structure CancelWire where
  /-- Market id. -/
  a : MarketId
  /-- Order id. -/
  o : OrderId
  deriving DecidableEq, Repr

/-- Wire format for a cancellation by client order id. -/
structure CancelByCloidWire where
  asset : MarketId
  cloid : ClientOrderId
  deriving DecidableEq, Repr

/-- Transaction types. The grouping of an order batch and the `is_cross` flag of a
leverage update are never read in execution and are left out. -/
inductive TransactionType
  | order (orders : List OrderWire)
  | cancel (cancels : List CancelWire)
  | cancelByCloid (cancels : List CancelByCloidWire)
  | cancelAll
  | updateLeverage (asset : MarketId) (leverage : UInt8)
  | usdTransfer (destination : AccountAddress) (amount : String)
  | withdraw (destination : AccountAddress) (amount : String)
  /-- From CoreWriter. -/
  | evmAction (actionType : UInt8) (data : List UInt8)
  | spotOrder (orders : List OrderWire)
  /-- One spot market, or all of them. -/
  | spotCancelAll (market : Option MarketId)
  | viewTransfer (token : TokenIndex) (amount : String) (toEvm : Bool)
  | setMarginMode (mode : MarginMode)
  | cancelTrigger (asset : MarketId) (orderId : OrderId)
  deriving DecidableEq, Repr

/-- Transaction envelope. -/
structure Transaction where
  action : TransactionType
  /-- For replay protection. -/
  nonce : Nat
  /-- The signer recovered from the signature, `none` when recovery fails. -/
  signer : Option AccountAddress
  deriving DecidableEq, Repr

/-- The sender's address. -/
def Transaction.sender (tx : Transaction) : Except TransactionError AccountAddress :=
  match tx.signer with
  | some a => .ok a
  | none => .error .signatureRecoveryFailed

end Hypercore
