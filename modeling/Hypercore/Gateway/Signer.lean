import Hypercore.Gateway.Validation
import Hypercore.Chain.TypedData
/-!
# Hypercore.Gateway.Signer

Who signed a request, for the gateway and for the chain.

The gateway recovers the signer from the request as it came; the chain recovers it
from the transaction that the handlers built of it. The typed data of the two is
encoded twice in the source, and the conversion in between loses the spelling of a
grouping and the kind of a spot cancellation. The two also read `v` differently.
-/

namespace Hypercore

open Exec SymbolicKeccak

/-- How transactions leave the gateway: executed by the node's own application, or broadcast. -/
inductive TxRouter
  | direct
  | cometBft
  deriving DecidableEq, Repr

namespace Gateway

/-! ### The typed data of a request -/

section Hashes

variable (S : Signing)

def orderTypeToTif : OrderTypeWire → String
  | .limit tif => S.lowercase tif
  | .trigger _ => "trigger"

def hashOrder (order : OrderWire) : S.Digest :=
  S.structHash "Order(uint8 a,bool b,string p,string s,bool r,string t)"
    [encodeUint8 order.a, encodeBool order.b, [.inr (S.encodeString order.p)],
      [.inr (S.encodeString order.s)], encodeBool order.r,
      [.inr (S.encodeString (orderTypeToTif S order.t))]]

def hashCancel (cancel : CancelWire) : S.Digest :=
  S.structHash "Cancel(uint8 a,uint64 o)" [encodeUint8 cancel.a, encodeUint64 cancel.o]

def hashCancelByCloid (cancel : CancelByCloidWire) : S.Digest :=
  S.structHash "CancelByCloid(uint8 asset,string cloid)"
    [encodeUint8 cancel.asset, [.inr (S.encodeString cancel.cloid)]]

def hashSpotOrder (order : OrderWire) : S.Digest :=
  S.structHash "SpotOrder(uint8 a,bool b,string p,string s,string t)"
    [encodeUint8 order.a, encodeBool order.b, [.inr (S.encodeString order.p)],
      [.inr (S.encodeString order.s)], [.inr (S.encodeString (orderTypeToTif S order.t))]]

def hashSpotCancel (cancel : CancelWire) : S.Digest :=
  S.structHash "SpotCancel(uint8 a,uint64 o)" [encodeUint8 cancel.a, encodeUint64 cancel.o]

/-- The struct hash of an exchange action. -/
def computeActionStructHash [HexCrate] (nonce : Nat) : SignedExchangeAction → S.Digest
  | .order orders grouping =>
    S.structHash "Action(string type,Order[] orders,string grouping,uint64 nonce)Order(uint8 a,bool b,string p,string s,bool r,string t)"
      [[.inr (S.encodeString "order")], [.inr (S.encodeArray (orders.map (hashOrder S)))],
        [.inr (S.encodeString grouping)], encodeUint64 nonce]
  | .cancel cancels =>
    S.structHash "Action(string type,Cancel[] cancels,uint64 nonce)Cancel(uint8 a,uint64 o)"
      [[.inr (S.encodeString "cancel")], [.inr (S.encodeArray (cancels.map (hashCancel S)))],
        encodeUint64 nonce]
  | .cancelByCloid cancels =>
    S.structHash "Action(string type,CancelByCloid[] cancels,uint64 nonce)CancelByCloid(uint8 asset,string cloid)"
      [[.inr (S.encodeString "cancelByCloid")],
        [.inr (S.encodeArray (cancels.map (hashCancelByCloid S)))], encodeUint64 nonce]
  | .cancelAll =>
    S.structHash "Action(string type,uint64 nonce)"
      [[.inr (S.encodeString "cancelAll")], encodeUint64 nonce]
  | .updateLeverage asset isCross leverage =>
    S.structHash "Action(string type,uint8 asset,bool isCross,uint8 leverage,uint64 nonce)"
      [[.inr (S.encodeString "updateLeverage")], encodeUint8 asset, encodeBool isCross,
        encodeUint8 leverage, encodeUint64 nonce]
  | .usdTransfer destination amount =>
    S.structHash "Action(string type,address destination,string amount,uint64 nonce)"
      [[.inr (S.encodeString "usdTransfer")], encodeAddressStr destination,
        [.inr (S.encodeString amount)], encodeUint64 nonce]
  | .withdraw destination amount =>
    S.structHash "Action(string type,address destination,string amount,uint64 nonce)"
      [[.inr (S.encodeString "withdraw")], encodeAddressStr destination,
        [.inr (S.encodeString amount)], encodeUint64 nonce]
  | .spotOrder orders grouping =>
    S.structHash "Action(string type,SpotOrder[] orders,string grouping,uint64 nonce)SpotOrder(uint8 a,bool b,string p,string s,string t)"
      [[.inr (S.encodeString "spotOrder")], [.inr (S.encodeArray (orders.map (hashSpotOrder S)))],
        [.inr (S.encodeString grouping)], encodeUint64 nonce]
  | .spotCancel cancels =>
    S.structHash "Action(string type,SpotCancel[] cancels,uint64 nonce)SpotCancel(uint8 a,uint64 o)"
      [[.inr (S.encodeString "spotCancel")],
        [.inr (S.encodeArray (cancels.map (hashSpotCancel S)))], encodeUint64 nonce]
  | .spotCancelAll _ =>
    S.structHash "Action(string type,uint64 nonce)"
      [[.inr (S.encodeString "spotCancelAll")], encodeUint64 nonce]
  | .viewTransfer token amount toEvm =>
    S.structHash "Action(string type,uint8 token,string amount,bool toEvm,uint64 nonce)"
      [[.inr (S.encodeString "viewTransfer")], encodeUint8 token, [.inr (S.encodeString amount)],
        encodeBool toEvm, encodeUint64 nonce]

/-- The typed data hash of a request. -/
def computeTypedDataHash [HexCrate] (request : SignedExchangeRequest) (chainId : Nat) : S.Digest :=
  S.typedDataHash (S.computeDomainSeparator chainId)
    (computeActionStructHash S request.nonce request.action)

/-! ### Signatures -/

/-- A number of a signature, of 64 hex digits. -/
def verifiedNumber [HexCrate] (text : String) : Except HandlerError Bytes32 :=
  let hex := stripHexPrefix text
  if (String.ofList hex).utf8ByteSize ≠ 64 then .error .invalidSignature
  else match hexDecode hex with
    | none => .error .invalidSignature
    | some bytes => .ok (.ofPrefix bytes)

/-- Verify signature and extract sender address. -/
def verifySignature [HexCrate] (request : SignedExchangeRequest) (chainId : Nat) :
    Except HandlerError AccountAddress := do
  let r ← verifiedNumber request.signature.r
  let s ← verifiedNumber request.signature.s
  match (Signature.mk r s request.signature.v).recover S
      (computeTypedDataHash S request chainId) with
  | .error _ => .error .invalidSignature
  | .ok sender => .ok sender

end Hashes

/-- A number of a signature, as it is put in a transaction: no length is checked. -/
def transactionNumber [HexCrate] (text : String) : Except HandlerError Bytes32 :=
  match hexDecode (stripHexPrefix text) with
  | none => .error .invalidSignature
  | some bytes => .ok (.ofPrefix bytes)

/-! ### The transaction of a request -/

/-- A grouping string as an enum. -/
def orderGrouping (grouping : String) : OrderGrouping :=
  let grouping := toLowercase grouping
  if grouping = "normalTpsl" ∨ grouping = "normaltpsl" then .normalTpsl
  else if grouping = "positionTpsl" ∨ grouping = "positiontpsl" then .positionTpsl
  else .na

/-- The transaction type of a perpetual action, in both modes. -/
def perpTransactionType : SignedExchangeAction → Except HandlerError SignedTransactionType
  | .order orders grouping => .ok (.order orders (orderGrouping grouping))
  | .cancel cancels => .ok (.cancel cancels)
  | .cancelByCloid cancels => .ok (.cancelByCloid cancels)
  | .cancelAll => .ok .cancelAll
  | .usdTransfer destination amount => do
    let dest ← parseAddress destination
    return .usdTransfer dest amount
  | .withdraw destination amount => do
    let dest ← parseAddress destination
    return .withdraw dest amount
  | .updateLeverage asset isCross leverage => .ok (.updateLeverage asset isCross leverage)
  | _ => .error (.internal "Unsupported action type")

/-- The transaction type of a spot action, when it is broadcast. A spot cancellation becomes a
cancellation, and every grouping becomes none. -/
def spotTransactionType : SignedExchangeAction → Except HandlerError SignedTransactionType
  | .spotOrder orders _ => .ok (.spotOrder orders .na)
  | .spotCancel cancels => .ok (.cancel cancels)
  | .spotCancelAll market => .ok (.spotCancelAll market)
  | .viewTransfer token amount toEvm => .ok (.viewTransfer token amount toEvm)
  | _ => .error (.internal "Unsupported spot action type")

/-- Spot actions and view transfers. -/
def isSpotAction : SignedExchangeAction → Bool
  | .spotOrder .. | .spotCancel _ | .spotCancelAll _ | .viewTransfer .. => true
  | _ => false

/-- The transaction of a request with the given type. -/
def transactionWith [HexCrate] (request : SignedExchangeRequest)
    (action : Except HandlerError SignedTransactionType) :
    Except HandlerError SignedTransaction := do
  let action ← action
  let r ← transactionNumber request.signature.r
  let s ← transactionNumber request.signature.s
  return ⟨action, request.nonce, ⟨r, s, request.signature.v⟩⟩

/-- The transaction that the handlers build of a request. A node that executes directly builds
none of a spot action. -/
def buildTransaction [HexCrate] (router : TxRouter) (request : SignedExchangeRequest) :
    Except HandlerError (Option SignedTransaction) :=
  if isSpotAction request.action then
    match router with
    | .direct => .ok none
    | .cometBft => do
      let tx ← transactionWith request (spotTransactionType request.action)
      return some tx
  else do
    let tx ← transactionWith request (perpTransactionType request.action)
    return some tx

/-! ### The two encodings -/

/-- The action is encoded alike on both sides: its grouping is spelled as the chain spells the
grouping it becomes, and it is no spot cancellation. -/
def SpelledAlike : SignedExchangeAction → Prop
  | .order _ grouping => grouping ∈ ["na", "normalTpsl", "positionTpsl"]
  | .spotOrder _ grouping => grouping = "na"
  | .spotCancel _ => False
  | _ => True

/-- Only the chain's own spellings survive the conversion. -/
theorem asStr_orderGrouping {grouping : String} :
    (orderGrouping grouping).asStr = grouping ↔
      grouping ∈ ["na", "normalTpsl", "positionTpsl"] := by
  constructor
  · intro h
    rw [← h]
    cases orderGrouping grouping <;> decide
  · intro h
    simp only [List.mem_cons, List.not_mem_nil, or_false] at h
    obtain rfl | rfl | rfl := h <;> decide

/-- What `parseAddress` makes of the digits behind the optional prefix. -/
def parseDigits (text : String) (hex : List Char) : Except HandlerError AccountAddress :=
  if (String.ofList hex).utf8ByteSize ≠ 40 then .error (.invalidAddress text)
  else match hex.mapM hexDigit with
    | none => .error (.invalidAddress text)
    | some digits => .ok (Fin.ofNat (2 ^ 160) (digits.foldl (fun n d => 16 * n + d) 0))

variable {text : String} {a : AccountAddress}

/-- An address that parses has forty hexadecimal digits and is the number they write. -/
theorem parseAddress_eq_ok (h : parseAddress text = .ok a) :
    ∃ digits, (String.ofList (stripHexPrefix text)).utf8ByteSize = 40 ∧
      (stripHexPrefix text).mapM hexDigit = some digits ∧
      a = Fin.ofNat (2 ^ 160) (digits.foldl (fun n d => 16 * n + d) 0) := by
  have hparse : parseDigits text (stripHexPrefix text) = .ok a := h
  unfold parseDigits at hparse
  split at hparse
  · cases hparse
  next hsize =>
  split at hparse
  · cases hparse
  next digits hdigits =>
  cases hparse
  exact ⟨digits, not_not.mp hsize, hdigits, rfl⟩

/-- An address string that parses is encoded as the bytes of the address. -/
theorem encodeAddressStr_of_parse [HexCrate] {K : SymbolicKeccak} (h : parseAddress text = .ok a) :
    (encodeAddressStr text : K.Data) = encodeAddressBytes (addressBytes a) := by
  obtain ⟨digits, hsize, hdigits, rfl⟩ := parseAddress_eq_ok h
  have hlen : (stripHexPrefix text).length = 2 * 20 := by
    rw [← utf8ByteSize_of_hex hdigits, hsize]
  obtain ⟨bytes, hbytes, hblen, hfold⟩ := hexDecode_of_digits hdigits hlen
  have hnum : digits.foldl (fun n d => 16 * n + d) 0 = ofBeBytes bytes := hfold 0
  have haddress : addressBytes (Fin.ofNat (2 ^ 160) (ofBeBytes bytes)) = bytes := by
    have hlt : ofBeBytes bytes < 2 ^ 160 := by
      have := ofBeBytes_lt bytes
      rwa [hblen] at this
    unfold addressBytes
    rw [Fin.val_ofNat, Nat.mod_eq_of_lt hlt]
    simpa [hblen] using beBytes_ofBeBytes bytes
  unfold encodeAddressStr
  rw [hbytes, hnum, haddress]
  exact if_pos hblen

section Agreement

variable {S : Signing}

/-- Structs of different types never hash alike. -/
theorem structHash_ne {typeStr typeStr' : String} (hne : typeStr ≠ typeStr')
    (fields fields' : List S.Data) :
    S.structHash typeStr fields ≠ S.structHash typeStr' fields' := by
  intro heq
  injection S.injective heq with hhead
  exact hne (encodeString_inj.mp (Sum.inr.inj hhead))

/-- A string in a struct decides its hash when the other fields are the same. -/
theorem structHash_string {typeStr text text' : String} (before : List S.Data)
    {after : List S.Data} :
    S.structHash typeStr (before ++ [.inr (S.encodeString text)] :: after) =
        S.structHash typeStr (before ++ [.inr (S.encodeString text')] :: after) ↔
      text = text' := by
  rw [structHash_inj]
  simp

variable {nonce : Nat} {action : SignedExchangeAction} {t : SignedTransactionType}
  {tx : SignedTransaction}

/-- **Perpetual actions.** They are hashed alike on both sides just when their grouping survives
the conversion. -/
theorem structHash_perp [HexCrate] (h : perpTransactionType action = .ok t) :
    t.computeStructHash S nonce = computeActionStructHash S nonce action ↔
      SpelledAlike action := by
  cases action with
  | order orders grouping =>
    cases h
    refine Iff.trans ?_ asStr_orderGrouping
    exact structHash_string [[.inr (S.encodeString "order")],
      [.inr (S.encodeArray (orders.map (hashOrder S)))]]
  | cancel cancels =>
    cases h
    exact iff_of_true rfl trivial
  | cancelByCloid cancels =>
    cases h
    exact iff_of_true rfl trivial
  | cancelAll =>
    cases h
    exact iff_of_true rfl trivial
  | updateLeverage asset isCross leverage =>
    cases h
    exact iff_of_true rfl trivial
  | usdTransfer destination amount =>
    obtain ⟨dest, hdest, h⟩ := ok_of_bind h
    cases h
    refine iff_of_true ?_ trivial
    simp only [computeActionStructHash, SignedTransactionType.computeStructHash,
      encodeAddressStr_of_parse hdest]
  | withdraw destination amount =>
    obtain ⟨dest, hdest, h⟩ := ok_of_bind h
    cases h
    refine iff_of_true ?_ trivial
    simp only [computeActionStructHash, SignedTransactionType.computeStructHash,
      encodeAddressStr_of_parse hdest]
  | spotOrder orders grouping => cases h
  | spotCancel cancels => cases h
  | spotCancelAll market => cases h
  | viewTransfer token amount toEvm => cases h

/-- **Spot actions.** They are hashed alike on both sides unless they have a grouping or are
cancellations by id. -/
theorem structHash_spot [HexCrate] (h : spotTransactionType action = .ok t) :
    t.computeStructHash S nonce = computeActionStructHash S nonce action ↔
      SpelledAlike action := by
  cases action with
  | spotOrder orders grouping =>
    cases h
    refine Iff.trans ?_ eq_comm
    exact structHash_string [[.inr (S.encodeString "spotOrder")],
      [.inr (S.encodeArray (orders.map (hashSpotOrder S)))]]
  | spotCancel cancels =>
    cases h
    exact iff_of_false (structHash_ne (by decide) _ _) id
  | spotCancelAll market =>
    cases h
    exact iff_of_true rfl trivial
  | viewTransfer token amount toEvm =>
    cases h
    exact iff_of_true rfl trivial
  | order orders grouping => cases h
  | cancel cancels => cases h
  | cancelByCloid cancels => cases h
  | cancelAll => cases h
  | updateLeverage asset isCross leverage => cases h
  | usdTransfer destination amount => cases h
  | withdraw destination amount => cases h

/-! ### The two signers -/

/-- Of the `v` that both sides read, they make the same recovery id. -/
theorem recoveryId_of_from {v : UInt8} {id id' : RecoveryId}
    (hid : Signature.recoveryId v = some id) (hid' : S.recoveryIdFrom (v - 27) = some id') :
    (v = 27 ∨ v = 28) ∧ id = id' := by
  rw [S.recoveryIdFrom_eq] at hid'
  have hlt : v - 27 < 4 := by
    by_contra hge
    rw [RecoveryId.ofByte_above _ hge] at hid'
    cases hid'
  have hv : v = 27 ∨ v = 28 ∨ v = 29 ∨ v = 30 := by
    rw [UInt8.lt_iff_toNat_lt, UInt8.toNat_sub] at hlt
    have := v.toNat_lt
    simp only [← UInt8.toNat_inj]
    simp at hlt ⊢
    omega
  obtain rfl | rfl | rfl | rfl := hv
  · cases hid
    cases hid'
    exact ⟨.inl rfl, rfl⟩
  · cases hid
    cases hid'
    exact ⟨.inr rfl, rfl⟩
  · cases hid
  · cases hid

/-- A number that was verified is the one that is put in the transaction. -/
theorem transactionNumber_of_verified [HexCrate] {text : String} {n : Bytes32}
    (h : verifiedNumber text = .ok n) : transactionNumber text = .ok n := by
  unfold verifiedNumber at h
  dsimp only at h
  split at h
  · cases h
  · exact h

variable {request : SignedExchangeRequest}

/-- What a verified sender was recovered from. -/
theorem verifySignature_eq_ok [HexCrate] {chainId : Nat} {a : AccountAddress}
    (h : verifySignature S request chainId = .ok a) :
    ∃ r s, verifiedNumber request.signature.r = .ok r ∧
      verifiedNumber request.signature.s = .ok s ∧
      (Signature.mk r s request.signature.v).recover S (computeTypedDataHash S request chainId) =
        .ok a := by
  obtain ⟨r, hr, h⟩ := ok_of_bind h
  obtain ⟨s, hs, h⟩ := ok_of_bind h
  refine ⟨r, s, hr, hs, ?_⟩
  cases hrec : (Signature.mk r s request.signature.v).recover S
      (computeTypedDataHash S request chainId) with
  | error e =>
    rw [hrec] at h
    cases h
  | ok b =>
    rw [hrec] at h
    cases h
    rfl

/-- What a transaction was built from. -/
theorem transactionWith_eq_ok [HexCrate] {action : Except HandlerError SignedTransactionType}
    (h : transactionWith request action = .ok tx) :
    ∃ t r s, action = .ok t ∧ transactionNumber request.signature.r = .ok r ∧
      transactionNumber request.signature.s = .ok s ∧
      tx = ⟨t, request.nonce, ⟨r, s, request.signature.v⟩⟩ := by
  obtain ⟨t, ht, h⟩ := ok_of_bind h
  obtain ⟨r, hr, h⟩ := ok_of_bind h
  obtain ⟨s, hs, h⟩ := ok_of_bind h
  cases h
  exact ⟨t, r, s, ht, hr, hs, rfl⟩

/-- A transaction carries the request's nonce and signature, and an action that is hashed as the
request's just when the two are spelled alike. -/
theorem buildTransaction_cases [HexCrate] {router : TxRouter}
    (h : buildTransaction router request = .ok (some tx)) :
    ∃ r s, transactionNumber request.signature.r = .ok r ∧
      transactionNumber request.signature.s = .ok s ∧
      tx.signature = ⟨r, s, request.signature.v⟩ ∧
      (tx.computeEip712Hash S = computeTypedDataHash S request defaultChainId ↔
        SpelledAlike request.action) := by
  have hbuilt : ∃ action, transactionWith request action = .ok tx ∧
      (action = perpTransactionType request.action ∨
        action = spotTransactionType request.action) := by
    unfold buildTransaction at h
    by_cases hspot : isSpotAction request.action = true
    · rw [if_pos hspot] at h
      cases router with
      | direct => cases h
      | cometBft =>
        obtain ⟨tx', htx, h⟩ := ok_of_bind h
        cases h
        exact ⟨_, htx, .inr rfl⟩
    · rw [if_neg hspot] at h
      obtain ⟨tx', htx, h⟩ := ok_of_bind h
      cases h
      exact ⟨_, htx, .inl rfl⟩
  obtain ⟨action, htx, haction⟩ := hbuilt
  obtain ⟨t, r, s, ht, hr, hs, rfl⟩ := transactionWith_eq_ok htx
  refine ⟨r, s, hr, hs, rfl, ?_⟩
  refine typedDataHash_inj.trans ?_
  obtain rfl | rfl := haction
  · exact structHash_perp ht
  · exact structHash_spot ht

/-- **The signer.** Of an accepted request, the chain hashes the same typed data and recovers the
same signer as the gateway exactly when `v` is 27 or 28 and the conversion keeps the spelling.
With one spelling the digests are the same, and from one digest the two recover alike when they
read one recovery id. -/
theorem signer_agrees_iff [HexCrate] {router : TxRouter} {request : SignedExchangeRequest}
    {a : AccountAddress} {tx : SignedTransaction}
    (hverified : verifySignature S request defaultChainId = .ok a)
    (hbuilt : buildTransaction router request = .ok (some tx)) :
    (tx.computeEip712Hash S = computeTypedDataHash S request defaultChainId ∧
        tx.recoverSigner S = .ok (.ok a)) ↔
      (request.signature.v = 27 ∨ request.signature.v = 28) ∧ SpelledAlike request.action := by
  obtain ⟨r, s, hr, hs, hrec⟩ := verifySignature_eq_ok hverified
  obtain ⟨r', s', hr', hs', hsig, hhash⟩ := buildTransaction_cases (S := S) hbuilt
  obtain rfl := Except.ok.inj ((transactionNumber_of_verified hr).symm.trans hr')
  obtain rfl := Except.ok.inj ((transactionNumber_of_verified hs).symm.trans hs')
  obtain ⟨hvalid, id, hid, hkey⟩ := Signature.recover_eq_ok.mp hrec
  constructor
  · intro ⟨heq, hsigner⟩
    unfold SignedTransaction.recoverSigner at hsigner
    obtain ⟨-, -, id', hid', -⟩ := recoverAddress_eq_ok.mp hsigner
    rw [hsig] at hid'
    exact ⟨(recoveryId_of_from hid hid').1, hhash.mp heq⟩
  · intro ⟨hv, halike⟩
    refine ⟨hhash.mpr halike, ?_⟩
    unfold SignedTransaction.recoverSigner
    rw [hhash.mpr halike, hsig]
    refine recoverAddress_eq_ok.mpr ⟨hvalid, ?_, id, ?_, hkey⟩
    · have hle : 27 ≤ request.signature.v := by
        obtain hv | hv := hv <;> rw [hv] <;> decide
      exact hle
    · dsimp only at hid ⊢
      rw [S.recoveryIdFrom_eq]
      obtain hv | hv := hv
      · rw [hv] at hid ⊢
        exact hid
      · rw [hv] at hid ⊢
        exact hid

end Agreement

/-! ### Two signed requests -/

/-- An account whose key signed the requests below. -/
def requestSigner : AccountAddress := 0xf39fd6e51aad88f6f4ce6ab8827279cfffb92266

/-- A signed request to cancel everything. -/
def cancelAllRequest : SignedExchangeRequest where
  action := .cancelAll
  nonce := 1700000000000
  signature :=
    { r := "0x2d8a7d2879264b4dba8e58204a86469ecee9f52a8aad3a1b514b005b6e9eddb9"
      s := "0x07f54f72693ff922c73000ecbfc14a932bcf8e9b23cb4b33d9b397b1eebcf645"
      v := 28 }

/-- A signed request to cancel a spot order. -/
def spotCancelRequest : SignedExchangeRequest where
  action := .spotCancel [⟨128, 1⟩]
  nonce := 1700000000000
  signature :=
    { r := "0x544e77a4dbfad982648d8e4c293bc8bb5185e04417b4b073d7155c4ee55a1350"
      s := "0x54ff3967747ffbca85864ca45508dc7d2e23fe78d35b3d62216df9e7962d051d"
      v := 28 }

/-- Signing with the recoveries of two digests. The signatures are in range. -/
def recovering (S : Signing) (first : S.Digest × AccountAddress)
    (second : S.Digest × AccountAddress) : Signing where
  toSymbolicKeccak := S.toSymbolicKeccak
  lowercase := S.lowercase
  isSignature _ _ := true
  recoverFromPrehash hash _ _ id :=
    if id = ⟨true, false⟩ then
      if hash = first.1 then some first.2 else if hash = second.1 then some second.2 else none
    else none
  recoveryIdFrom_below := RecoveryId.ofByte_below
  recoveryIdFrom_above := RecoveryId.ofByte_above

/-- The gateway recovers the signer of a request whose digest is known. -/
theorem verifySignature_recovering [HexCrate] (S : Signing) {request : SignedExchangeRequest}
    {r s : Bytes32} (hr : verifiedNumber request.signature.r = .ok r)
    (hs : verifiedNumber request.signature.s = .ok s) (hv : request.signature.v = 28)
    (a : AccountAddress) (second : S.Digest × AccountAddress) :
    verifySignature (recovering S (computeTypedDataHash S request defaultChainId, a) second)
      request defaultChainId = .ok a := by
  let T := recovering S (computeTypedDataHash S request defaultChainId, a) second
  have hrecover : (Signature.mk r s request.signature.v).recover T
      (computeTypedDataHash T request defaultChainId) = .ok a := by
    refine Signature.recover_eq_ok.mpr ⟨rfl, ⟨true, false⟩, ?_, ?_⟩
    · rw [hv]
      rfl
    · exact if_pos rfl
  unfold verifySignature
  rw [hr, hs]
  simp only [bind, Except.bind, T] at hrecover ⊢
  rw [hrecover]

/-- The chain recovers another signer of a transaction whose digest is another. -/
theorem recoverSigner_recovering (S : Signing) {tx : SignedTransaction}
    (hv : tx.signature.v = 28) {first : S.Digest × AccountAddress}
    (hne : tx.computeEip712Hash S ≠ first.1) (b : AccountAddress) :
    tx.recoverSigner (recovering S first (tx.computeEip712Hash S, b)) = .ok (.ok b) := by
  refine recoverAddress_eq_ok.mpr ⟨rfl, ?_, ⟨true, false⟩, ?_, ?_⟩
  · rw [hv]
    decide
  · rw [hv]
    rfl
  · exact (if_neg hne).trans (if_pos rfl)

/-- The accepted request to cancel everything is the same signer's on the chain. -/
theorem cancelAll_signer_agrees :
    ∃ (S : Signing) (tx : SignedTransaction),
      verifySignature S cancelAllRequest defaultChainId = .ok requestSigner ∧
      buildTransaction .direct cancelAllRequest = .ok (some tx) ∧
      tx.recoverSigner S = .ok (.ok requestSigner) := by
  obtain ⟨r, hr⟩ : ∃ r, verifiedNumber cancelAllRequest.signature.r = .ok r := ⟨_, rfl⟩
  obtain ⟨s, hs⟩ : ∃ s, verifiedNumber cancelAllRequest.signature.s = .ok s := ⟨_, rfl⟩
  obtain ⟨tx, hbuilt⟩ : ∃ tx, buildTransaction .direct cancelAllRequest = .ok (some tx) := ⟨_, rfl⟩
  have hverified := verifySignature_recovering hashesOnly hr hs rfl requestSigner
    (hashesOnly.zero, requestSigner)
  exact ⟨_, tx, hverified, hbuilt, ((signer_agrees_iff hverified hbuilt).mpr ⟨.inr rfl, trivial⟩).2⟩

/-- **A stranger.** The validator accepts the cancellation of a spot order and the gateway
recovers its signer; the chain takes the broadcast transaction for another account's. -/
theorem spotCancel_signer_differs :
    ∃ (V : Validator) (S : Signing) (tx : SignedTransaction) (stranger : AccountAddress),
      V.config = {} ∧ V.validateExchangeRequest spotCancelRequest = .ok () ∧
      verifySignature S spotCancelRequest defaultChainId = .ok requestSigner ∧
      buildTransaction .cometBft spotCancelRequest = .ok (some tx) ∧
      tx.recoverSigner S = .ok (.ok stranger) ∧ stranger ≠ requestSigner := by
  obtain ⟨r, hr⟩ : ∃ r, verifiedNumber spotCancelRequest.signature.r = .ok r := ⟨_, rfl⟩
  obtain ⟨s, hs⟩ : ∃ s, verifiedNumber spotCancelRequest.signature.s = .ok s := ⟨_, rfl⟩
  obtain ⟨tx, hbuilt⟩ : ∃ tx, buildTransaction .cometBft spotCancelRequest = .ok (some tx) :=
    ⟨_, rfl⟩
  obtain ⟨r', s', -, -, hsig, hhash⟩ := buildTransaction_cases (S := hashesOnly) hbuilt
  have hv : tx.signature.v = 28 := by
    rw [hsig]
    rfl
  -- what the key recovery gives for the chain's digest
  let stranger : AccountAddress := 0x1324eb5e8ef3a7735252f0f8530f618e1f7811b4
  exact ⟨⟨{}, Char.isAlphanum⟩, _, tx, stranger, rfl, rfl,
    verifySignature_recovering hashesOnly hr hs rfl requestSigner _, hbuilt,
    recoverSigner_recovering hashesOnly hv (fun heq => hhash.mp heq) stranger, by decide⟩

end Gateway

end Hypercore
