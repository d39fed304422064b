import Hypercore.Primitives.Signature
import Hypercore.Chain.Tx
/-!
# Hypercore.Chain.TypedData

Transactions as they are signed: all fields of the action, the signature, and the
typed data hash that the signer is recovered from.

`Chain.Tx` keeps of a transaction what execution reads. A signed transaction is
executed as that one (`SignedTransaction.executed`).
-/

namespace Hypercore

open Exec SymbolicKeccak

/-- Order grouping for batch orders. -/
inductive OrderGrouping
  /-- No grouping. -/
  | na
  | normalTpsl
  | positionTpsl
  deriving DecidableEq, Repr

def OrderGrouping.asStr : OrderGrouping → String
  | na => "na"
  | normalTpsl => "normalTpsl"
  | positionTpsl => "positionTpsl"

/-- Transaction types, with all their fields. -/
inductive SignedTransactionType
  | order (orders : List OrderWire) (grouping : OrderGrouping)
  | cancel (cancels : List CancelWire)
  | cancelByCloid (cancels : List CancelByCloidWire)
  | cancelAll
  | updateLeverage (asset : MarketId) (isCross : Bool) (leverage : UInt8)
  | usdTransfer (destination : AccountAddress) (amount : String)
  | withdraw (destination : AccountAddress) (amount : String)
  | evmAction (actionType : UInt8) (data : List UInt8)
  | spotOrder (orders : List OrderWire) (grouping : OrderGrouping)
  | spotCancelAll (market : Option MarketId)
  | viewTransfer (token : TokenIndex) (amount : String) (toEvm : Bool)
  | setMarginMode (mode : MarginMode)
  | cancelTrigger (asset : MarketId) (orderId : OrderId)
  deriving DecidableEq, Repr

/-- Transaction envelope, with its signature. -/
structure SignedTransaction where
  action : SignedTransactionType
  nonce : Nat
  signature : Signature
  deriving DecidableEq, Repr

/-! ### Struct hashes -/

section Hashes

variable (S : Signing)

/-- The time-in-force that is hashed, in lower case. -/
def OrderTypeWire.toTifString : OrderTypeWire → String
  | limit tif => S.lowercase tif
  | trigger _ => "trigger"

def OrderWire.computeHashEip712 (w : OrderWire) : S.Digest :=
  S.structHash "Order(uint8 a,bool b,string p,string s,bool r,string t)"
    [encodeUint8 w.a, encodeBool w.b, [.inr (S.encodeString w.p)], [.inr (S.encodeString w.s)],
      encodeBool w.r, [.inr (S.encodeString (w.t.toTifString S))]]

/-- A spot order is hashed without `reduce_only`. -/
def OrderWire.computeHashEip712Spot (w : OrderWire) : S.Digest :=
  S.structHash "SpotOrder(uint8 a,bool b,string p,string s,string t)"
    [encodeUint8 w.a, encodeBool w.b, [.inr (S.encodeString w.p)], [.inr (S.encodeString w.s)],
      [.inr (S.encodeString (w.t.toTifString S))]]

def CancelWire.computeHashEip712 (w : CancelWire) : S.Digest :=
  S.structHash "Cancel(uint8 a,uint64 o)" [encodeUint8 w.a, encodeUint64 w.o]

def CancelByCloidWire.computeHashEip712 (w : CancelByCloidWire) : S.Digest :=
  S.structHash "CancelByCloid(uint8 asset,string cloid)"
    [encodeUint8 w.asset, [.inr (S.encodeString w.cloid)]]

/-- The struct hash of an action. -/
def SignedTransactionType.computeStructHash (nonce : Nat) : SignedTransactionType → S.Digest
  | order orders grouping =>
    S.structHash "Action(string type,Order[] orders,string grouping,uint64 nonce)Order(uint8 a,bool b,string p,string s,bool r,string t)"
      [[.inr (S.encodeString "order")],
        [.inr (S.encodeArray (orders.map (·.computeHashEip712 S)))],
        [.inr (S.encodeString grouping.asStr)], encodeUint64 nonce]
  | cancel cancels =>
    S.structHash "Action(string type,Cancel[] cancels,uint64 nonce)Cancel(uint8 a,uint64 o)"
      [[.inr (S.encodeString "cancel")],
        [.inr (S.encodeArray (cancels.map (·.computeHashEip712 S)))], encodeUint64 nonce]
  | cancelByCloid cancels =>
    S.structHash "Action(string type,CancelByCloid[] cancels,uint64 nonce)CancelByCloid(uint8 asset,string cloid)"
      [[.inr (S.encodeString "cancelByCloid")],
        [.inr (S.encodeArray (cancels.map (·.computeHashEip712 S)))], encodeUint64 nonce]
  | cancelAll =>
    S.structHash "Action(string type,uint64 nonce)"
      [[.inr (S.encodeString "cancelAll")], encodeUint64 nonce]
  | updateLeverage asset isCross leverage =>
    S.structHash "Action(string type,uint8 asset,bool isCross,uint8 leverage,uint64 nonce)"
      [[.inr (S.encodeString "updateLeverage")], encodeUint8 asset, encodeBool isCross,
        encodeUint8 leverage, encodeUint64 nonce]
  | usdTransfer destination amount =>
    S.structHash "Action(string type,address destination,string amount,uint64 nonce)"
      [[.inr (S.encodeString "usdTransfer")], encodeAddressBytes (addressBytes destination),
        [.inr (S.encodeString amount)], encodeUint64 nonce]
  | withdraw destination amount =>
    S.structHash "Action(string type,address destination,string amount,uint64 nonce)"
      [[.inr (S.encodeString "withdraw")], encodeAddressBytes (addressBytes destination),
        [.inr (S.encodeString amount)], encodeUint64 nonce]
  -- no type hash here
  | evmAction actionType data =>
    S.keccak (encodeUint8 actionType ++ data.map .inl ++ encodeUint64 nonce)
  | spotOrder orders grouping =>
    S.structHash "Action(string type,SpotOrder[] orders,string grouping,uint64 nonce)SpotOrder(uint8 a,bool b,string p,string s,string t)"
      [[.inr (S.encodeString "spotOrder")],
        [.inr (S.encodeArray (orders.map (·.computeHashEip712Spot S)))],
        [.inr (S.encodeString grouping.asStr)], encodeUint64 nonce]
  -- the market is not signed
  | spotCancelAll _ =>
    S.structHash "Action(string type,uint64 nonce)"
      [[.inr (S.encodeString "spotCancelAll")], encodeUint64 nonce]
  | viewTransfer token amount toEvm =>
    S.structHash "Action(string type,uint8 token,string amount,bool toEvm,uint64 nonce)"
      [[.inr (S.encodeString "viewTransfer")], encodeUint8 token, [.inr (S.encodeString amount)],
        encodeBool toEvm, encodeUint64 nonce]
  | setMarginMode mode =>
    S.structHash "Action(string type,bool isCross,uint64 nonce)"
      [[.inr (S.encodeString "setMarginMode")], encodeBool (mode = .cross), encodeUint64 nonce]
  | cancelTrigger asset orderId =>
    S.structHash "Action(string type,uint8 asset,uint64 orderId,uint64 nonce)"
      [[.inr (S.encodeString "cancelTrigger")], encodeUint8 asset, encodeUint64 orderId,
        encodeUint64 nonce]

/-- The typed data hash of a transaction. The chain id is always the default one. -/
def SignedTransaction.computeEip712Hash (tx : SignedTransaction) : S.Digest :=
  S.typedDataHash (S.computeDomainSeparator defaultChainId)
    (tx.action.computeStructHash S tx.nonce)

/-! ### The signer -/

/-- Recover address from message hash and signature. A `v` below 27 underflows. -/
def recoverAddress (hash : S.Digest) (sig : Signature) :
    Exec (Except TransactionError AccountAddress) :=
  if S.isSignature sig.r sig.s then
    if sig.v < 27 then .error .panic
    else
      match S.recoveryIdFrom (sig.v - 27) with
      | none => return .error .invalidSignature
      | some id =>
        match S.recoverFromPrehash hash sig.r sig.s id with
        | none => return .error .signatureRecoveryFailed
        | some a => return .ok a
  else return .error .invalidSignature

/-- Recover signer address from signature. -/
def SignedTransaction.recoverSigner (tx : SignedTransaction) :
    Exec (Except TransactionError AccountAddress) :=
  recoverAddress S (tx.computeEip712Hash S) tx.signature

end Hashes

/-! ### Execution -/

/-- What execution reads of an action. -/
def SignedTransactionType.executed : SignedTransactionType → TransactionType
  | order orders _ => .order orders
  | cancel cancels => .cancel cancels
  | cancelByCloid cancels => .cancelByCloid cancels
  | cancelAll => .cancelAll
  | updateLeverage asset _ leverage => .updateLeverage asset leverage
  | usdTransfer destination amount => .usdTransfer destination amount
  | withdraw destination amount => .withdraw destination amount
  | evmAction actionType data => .evmAction actionType data
  | spotOrder orders _ => .spotOrder orders
  | spotCancelAll market => .spotCancelAll market
  | viewTransfer token amount toEvm => .viewTransfer token amount toEvm
  | setMarginMode mode => .setMarginMode mode
  | cancelTrigger asset orderId => .cancelTrigger asset orderId

/-- What execution reads of a transaction: its action, its nonce and its signer. -/
def SignedTransaction.executed (S : Signing) (tx : SignedTransaction) : Transaction where
  action := tx.action.executed
  nonce := tx.nonce
  signer :=
    match tx.recoverSigner S with
    | .ok (.ok a) => some a
    | _ => none

variable {S : Signing}

/-- What a recovered address was recovered from. -/
theorem recoverAddress_eq_ok {hash : S.Digest} {sig : Signature} {a : AccountAddress} :
    recoverAddress S hash sig = .ok (.ok a) ↔ S.isSignature sig.r sig.s = true ∧
      27 ≤ sig.v ∧ ∃ id, S.recoveryIdFrom (sig.v - 27) = some id ∧
        S.recoverFromPrehash hash sig.r sig.s id = some a := by
  unfold recoverAddress
  by_cases hsig : S.isSignature sig.r sig.s = true
  · rw [if_pos hsig]
    by_cases hv : sig.v < 27
    · rw [if_pos hv]
      simp [UInt8.not_le.mpr hv]
    · rw [if_neg hv]
      have hv := UInt8.not_lt.mp hv
      cases hid : S.recoveryIdFrom (sig.v - 27) with
      | none => simp [pure, Except.pure]
      | some id =>
        cases hrec : S.recoverFromPrehash hash sig.r sig.s id <;>
          simp [hsig, hv, hrec, pure, Except.pure]
  · rw [if_neg hsig]
    simp [hsig, pure, Except.pure]

end Hypercore
