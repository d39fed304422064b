import Hypercore.Gateway.Handlers
/-!
# Hypercore.Gateway.Validation

Requests as they are signed, and the validator that they pass first.

`Gateway.Handlers` keeps of a request what its execution reads. A signed request has
also the grouping of its orders, the margin mode of a leverage update, and its
signature.
-/

namespace Hypercore

/-- Exchange action types, with all their fields. Spot wires have the fields of the perpetual
ones. -/
inductive SignedExchangeAction
  | order (orders : List OrderWire) (grouping : String)
  | cancel (cancels : List CancelWire)
  | cancelByCloid (cancels : List CancelByCloidWire)
  | cancelAll
  | updateLeverage (asset : MarketId) (isCross : Bool) (leverage : UInt8)
  | usdTransfer (destination amount : String)
  | withdraw (destination amount : String)
  | spotOrder (orders : List OrderWire) (grouping : String)
  | spotCancel (cancels : List CancelWire)
  | spotCancelAll (market : Option SpotMarketId)
  | viewTransfer (token : TokenIndex) (amount : String) (toEvm : Bool)
  deriving DecidableEq, Repr

/-- Signature wire format. -/
structure SignatureWire where
  r : String
  s : String
  v : UInt8
  deriving DecidableEq, Repr

/-- Exchange API request: action and signature. -/
structure SignedExchangeRequest where
  action : SignedExchangeAction
  nonce : Nat
  signature : SignatureWire
  deriving DecidableEq, Repr

/-- Validation configuration. -/
structure ValidationConfig where
  maxOrdersPerRequest : Nat := 100
  maxCancelsPerRequest : Nat := 100
  /-- In bytes. -/
  maxRequestBodySize : Nat := 1024 * 1024
  /-- With the prefix. -/
  maxAddressLength : Nat := 42
  maxDecimalLength : Nat := 50
  /-- One trillion. -/
  maxPrice : Decimal := ⟨1000000000000 * 10 ^ 8, 8⟩
  /-- One billion. -/
  maxSize : Decimal := ⟨1000000000 * 10 ^ 8, 8⟩
  /-- Zero is suspicious. -/
  minNonce : Nat := 1
  enabled : Bool := true

/-- Validation error types that exchange requests meet. -/
inductive ValidationError
  | tooManyOrders (count max : Nat)
  | tooManyCancels (count max : Nat)
  | invalidAddress (text : String)
  | invalidPrice (text : String)
  | invalidSize (text : String)
  | invalidTimeInForce (text : String)
  | invalidNonce (text : String)
  | invalidOrderType (text : String)
  | invalidLeverage (leverage max : UInt8)
  | invalidAmount (text : String)
  | invalidGrouping (text : String)
  | priceMustBePositive
  | sizeMustBePositive
  | priceExceedsMax (text : String)
  | sizeExceedsMax (text : String)
  | emptyOrdersList
  | emptyCancelsList
  deriving DecidableEq, Repr

/-- The validator. -/
structure Validator where
  config : ValidationConfig
  /-- `char::is_alphanumeric`, on all of Unicode. -/
  isAlphanumeric : Char → Bool

namespace Validator

variable (V : Validator)

/-- A check of a request. -/
abbrev Check := Except ValidationError Unit

/-- Fail unless a condition holds. -/
def ensure (cond : Prop) [Decidable cond] (e : ValidationError) : Check :=
  if cond then .ok () else .error e

/-- A decimal string in the bounds of a configuration. -/
def validateDecimal (text : String) (invalid : String → ValidationError) :
    Except ValidationError Decimal := do
  ensure (text.utf8ByteSize ≤ V.config.maxDecimalLength)
    (invalid s!"too long: {text.utf8ByteSize} chars")
  match Decimal.fromStr text.toList with
  | none => .error (invalid text)
  | some d => .ok d

/-- Validate price string. -/
def validatePrice (price : String) : Check := do
  let decimal ← V.validateDecimal price .invalidPrice
  ensure (¬ decimal ≤ Decimal.zero) .priceMustBePositive
  ensure (¬ decimal > V.config.maxPrice) (.priceExceedsMax price)

/-- Validate size string. -/
def validateSize (size : String) : Check := do
  let decimal ← V.validateDecimal size .invalidSize
  ensure (¬ decimal ≤ Decimal.zero) .sizeMustBePositive
  ensure (¬ decimal > V.config.maxSize) (.sizeExceedsMax size)

/-- Validate amount string. -/
def validateAmount (amount : String) : Check := do
  let decimal ← V.validateDecimal amount .invalidAmount
  ensure (¬ decimal ≤ Decimal.zero) (.invalidAmount "amount must be positive")

/-- Validate address format: both prefixes are taken. -/
def validateAddress (address : String) : Check :=
  if V.config.enabled then do
    ensure (address.utf8ByteSize ≤ V.config.maxAddressLength)
      (.invalidAddress s!"too long: {address.utf8ByteSize} chars")
    let hexPart ← match address.toList with
      | '0' :: 'x' :: rest => .ok rest
      | '0' :: 'X' :: rest => .ok rest
      | _ => .error (.invalidAddress "must start with 0x")
    let count := (String.ofList hexPart).utf8ByteSize
    ensure (count = 40) (.invalidAddress s!"expected 40 hex chars, got {count}")
    ensure (hexPart.all fun c => (hexDigit c).isSome)
      (.invalidAddress "contains invalid hex characters")
  else .ok ()

/-- Validate nonce. -/
def validateNonce (nonce : Nat) : Check :=
  if V.config.enabled then
    ensure (V.config.minNonce ≤ nonce)
      (.invalidNonce s!"nonce {nonce} is below minimum {V.config.minNonce}")
  else .ok ()

/-- Validate leverage. -/
def validateLeverage (leverage : UInt8) : Check :=
  ensure (1 ≤ leverage ∧ leverage ≤ 50) (.invalidLeverage leverage 50)

/-- Validate order type. -/
def validateOrderType : OrderTypeWire → Check
  | .limit tif =>
    ensure (tif ∈ ["Gtc", "Ioc", "Alo", "Fok", "gtc", "ioc", "alo", "fok"])
      (.invalidTimeInForce tif)
  | .trigger trigger => do
    V.validatePrice trigger.triggerPx
    ensure (trigger.tpsl ∈ ["tp", "sl", "TP", "SL"])
      (.invalidOrderType ("invalid tpsl: " ++ trigger.tpsl))

/-- Validate client order id. -/
def validateClientOrderId (cloid : ClientOrderId) : Check := do
  ensure (cloid.utf8ByteSize ≤ 64)
    (.invalidOrderType s!"client order ID too long: {cloid.utf8ByteSize} chars (max 64)")
  ensure (cloid.toList.all fun c => V.isAlphanumeric c || c == '-' || c == '_')
    (.invalidOrderType "client order ID contains invalid characters")

/-- Validate grouping. -/
def validateGrouping (grouping : String) : Check :=
  ensure (grouping ∈ ["na", "Na", "NA", "normalTpsl", "positionTpsl"]) (.invalidGrouping grouping)

/-- Validate orders count. -/
def validateOrdersCount (count : Nat) : Check := do
  ensure (count ≠ 0) .emptyOrdersList
  ensure (count ≤ V.config.maxOrdersPerRequest)
    (.tooManyOrders count V.config.maxOrdersPerRequest)

/-- Validate cancels count. -/
def validateCancelsCount (count : Nat) : Check :=
  ensure (count ≤ V.config.maxCancelsPerRequest)
    (.tooManyCancels count V.config.maxCancelsPerRequest)

/-- Validate order wire. -/
def validateOrderWire (order : OrderWire) : Check := do
  V.validatePrice order.p
  V.validateSize order.s
  V.validateOrderType order.t
  match order.c with
  | some cloid => V.validateClientOrderId cloid
  | none => .ok ()

/-- Validate spot order wire. -/
def validateSpotOrderWire (order : OrderWire) : Check := V.validateOrderWire order

/-- Validate the length of some cancels. -/
def validateCancels (count : Nat) : Check := do
  V.validateCancelsCount count
  ensure (count ≠ 0) .emptyCancelsList

/-- Validate exchange action. -/
def validateExchangeAction : SignedExchangeAction → Check
  | .order orders grouping => do
    V.validateOrdersCount orders.length
    validateGrouping grouping
    orders.forM V.validateOrderWire
  | .cancel cancels => V.validateCancels cancels.length
  | .cancelByCloid cancels => V.validateCancels cancels.length
  | .cancelAll => .ok ()
  | .updateLeverage _ _ leverage => validateLeverage leverage
  | .usdTransfer destination amount => do
    V.validateAddress destination
    V.validateAmount amount
  | .withdraw destination amount => do
    V.validateAddress destination
    V.validateAmount amount
  | .spotOrder orders grouping => do
    V.validateOrdersCount orders.length
    validateGrouping grouping
    orders.forM V.validateSpotOrderWire
  | .spotCancel cancels => V.validateCancels cancels.length
  | .spotCancelAll _ => .ok ()
  | .viewTransfer _ amount _ => V.validateAmount amount

/-- Validate an exchange request. -/
def validateExchangeRequest (request : SignedExchangeRequest) : Check :=
  if V.config.enabled then do
    V.validateNonce request.nonce
    V.validateExchangeAction request.action
  else .ok ()

end Validator

end Hypercore
