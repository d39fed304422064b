import Hypercore.Evm.State
import Hypercore.Primitives.Word
/-!
# Hypercore.Evm.CoreWriter

Actions that contracts queue, and the decoders of their data.

Indexing and slicing halt beyond the end of the data. `decode_place_order` asks for 96 bytes
and slices up to 128; `decode_uint256` drops the high half of a word and takes the low one for
an `i128`.
-/

namespace Hypercore

open Exec Int128

/-- Action types that can be queued. -/
inductive ActionType
  | placeOrder
  | cancelOrder
  | updateLeverage
  | transfer
  | withdraw
  deriving DecidableEq, Repr

/-- Action queue errors that decoding gives. -/
inductive ActionQueueError
  | invalidData
  deriving DecidableEq, Repr

/-- A queued action. -/
structure CoreWriterAction (Id : Type) where
  actionId : Id
  /-- The contract that called. -/
  sender : AccountAddress
  /-- Who the action is for. -/
  beneficiary : AccountAddress
  actionType : ActionType
  /-- ABI-encoded parameters. -/
  data : Bytes
  queuedBlock : Nat
  queuedTime : Timestamp
  deriving DecidableEq

/-! ### Reading bytes -/

/-- `data[i]`. -/
def byteAt (data : Bytes) (i : Nat) : Exec UInt8 :=
  match data[i]? with
  | some b => .ok b
  | none => .error .panic

/-- `data[i..j]`. -/
def slice (data : Bytes) (i j : Nat) : Exec Bytes :=
  if i ≤ j ∧ j ≤ data.length then .ok ((data.drop i).take (j - i)) else .error .panic

/-- `data.get(i).map(|&b| b != 0).unwrap_or(default)`. -/
def flagAt (data : Bytes) (i : Nat) (default : Bool) : Bool :=
  ((data[i]?).map fun b => decide (b ≠ 0)).getD default

/-- Decode uint256 from ABI-encoded bytes to Decimal: 18 decimals, brought to 8. -/
def decodeUint256 (data : Bytes) : Exec (Except ActionQueueError Decimal) :=
  if data.length ≠ 32 then return .error .invalidData
  else do
    let high := ofBeBytes (data.take 16)
    let low := ofBeBytes (data.drop 16)
    if high > 0 then return .ok (← (⟨ofU128 low, 18⟩ : Decimal).toDecimals 8)
    else return .ok (← (⟨ofU128 low, 18⟩ : Decimal).toDecimals 8)

/-! ### The decoders -/

structure PlaceOrderParams where
  marketId : MarketId
  side : OrderSide
  price : Decimal
  size : Decimal
  reduceOnly : Bool
  deriving DecidableEq, Repr

structure CancelOrderParams where
  marketId : MarketId
  orderId : Nat
  deriving DecidableEq, Repr

structure UpdateLeverageParams where
  marketId : MarketId
  leverage : UInt8
  isCross : Bool
  deriving DecidableEq, Repr

structure TransferParams where
  destination : AccountAddress
  amount : Decimal
  deriving DecidableEq, Repr

structure WithdrawParams where
  destination : AccountAddress
  amount : Decimal
  deriving DecidableEq, Repr

/-- The address of 20 bytes. -/
def addressOfBytes (bytes : Bytes) : AccountAddress := Fin.ofNat _ (ofBeBytes bytes)

namespace CoreWriterAction

variable {Id : Type} (a : CoreWriterAction Id)

/-- Decode place order action. -/
def decodePlaceOrder : Exec (Except ActionQueueError PlaceOrderParams) :=
  if a.data.length < 96 then return .error .invalidData
  else do
    let marketId ← byteAt a.data 31
    let isBuy := (← byteAt a.data 63) ≠ 0
    match ← decodeUint256 (← slice a.data 64 96) with
    | .error e => return .error e
    | .ok price =>
      match ← decodeUint256 (← slice a.data 96 128) with
      | .error e => return .error e
      | .ok size =>
        let reduceOnly := flagAt a.data 159 false
        return .ok { marketId, side := if isBuy then .buy else .sell, price, size, reduceOnly }

/-- Decode cancel order action. -/
def decodeCancelOrder : Exec (Except ActionQueueError CancelOrderParams) :=
  if a.data.length < 64 then return .error .invalidData
  else do
    let marketId ← byteAt a.data 31
    let orderId := ofBeBytes (← slice a.data 56 64)
    return .ok { marketId, orderId }

/-- Decode update leverage action. -/
def decodeUpdateLeverage : Exec (Except ActionQueueError UpdateLeverageParams) :=
  if a.data.length < 64 then return .error .invalidData
  else do
    let marketId ← byteAt a.data 31
    let leverage ← byteAt a.data 63
    let isCross := flagAt a.data 95 true
    return .ok { marketId, leverage, isCross }

/-- Destination and amount of a transfer or a withdrawal. -/
def decodePayment : Exec (Except ActionQueueError (AccountAddress × Decimal)) :=
  if a.data.length < 64 then return .error .invalidData
  else do
    let destination := addressOfBytes (← slice a.data 12 32)
    match ← decodeUint256 (← slice a.data 32 64) with
    | .error e => return .error e
    | .ok amount => return .ok (destination, amount)

/-- Decode transfer action. -/
def decodeTransfer : Exec (Except ActionQueueError TransferParams) := do
  return (← a.decodePayment).map fun p => ⟨p.1, p.2⟩

/-- Decode withdraw action. -/
def decodeWithdraw : Exec (Except ActionQueueError WithdrawParams) := do
  return (← a.decodePayment).map fun p => ⟨p.1, p.2⟩

/-- The amounts and prices that the decoder of an action's type gives. -/
def decodedAmounts : Exec (Except ActionQueueError (List Decimal)) :=
  match a.actionType with
  | .placeOrder => do return (← a.decodePlaceOrder).map fun p => [p.price, p.size]
  | .cancelOrder => do return (← a.decodeCancelOrder).map fun _ => []
  | .updateLeverage => do return (← a.decodeUpdateLeverage).map fun _ => []
  | .transfer => do return (← a.decodeTransfer).map fun p => [p.amount]
  | .withdraw => do return (← a.decodeWithdraw).map fun p => [p.amount]

/-- The words of the amounts and prices in the data. -/
def encodedWords : List Nat :=
  match a.actionType with
  | .placeOrder => [wordAt a.data 64, wordAt a.data 96]
  | .cancelOrder => []
  | .updateLeverage => []
  | .transfer => [wordAt a.data 32]
  | .withdraw => [wordAt a.data 32]

/-- A word of 18 decimals, rounded down to 8. -/
def scaledWord (w : Nat) : Decimal := ⟨(w / 10 ^ 10 : Nat), 8⟩

/-- The decoder of the action's type returns, and gives the encoded amounts and prices if it
accepts the data. -/
structure DecodesExactly : Prop where
  returns : ∃ r, a.decodedAmounts = .ok r
  exact : ∀ amounts, a.decodedAmounts = .ok (.ok amounts) →
    amounts = a.encodedWords.map scaledWord

/-- How many bytes of data the decoder asks for. -/
def minLength : Nat :=
  match a.actionType with
  | .placeOrder => 96
  | _ => 64

/-- How many bytes of data the decoder reads. -/
def readLength : Nat :=
  match a.actionType with
  | .placeOrder => 128
  | _ => 64

/-- The data is refused for its length, or it has the bytes that are read, with words that fit. -/
def Readable : Prop :=
  a.data.length < a.minLength ∨
    (a.readLength ≤ a.data.length ∧ ∀ w ∈ a.encodedWords, w < 2 ^ 127)

end CoreWriterAction

/-! ### Totality and exactness -/

section Reading

variable {data : Bytes} {i j : Nat}

theorem byteAt_of_lt (h : i < data.length) : byteAt data i = .ok data[i] := by
  unfold byteAt
  rw [List.getElem?_eq_getElem h]

theorem slice_of_le (hij : i ≤ j) (h : j ≤ data.length) :
    slice data i j = .ok ((data.drop i).take (j - i)) := if_pos ⟨hij, h⟩

/-- A word as it is decoded: its low half, as an `i128`, without the last ten places. -/
def lowWord (w : Nat) : Decimal := ⟨(ofU128 (w % 2 ^ 128)).tdiv (10 ^ 10), 8⟩

theorem decodeUint256_word (h : i + 32 ≤ data.length) :
    decodeUint256 ((data.drop i).take 32) = .ok (.ok (lowWord (wordAt data i))) := by
  obtain ⟨-, hlow⟩ := wordAt_halves h
  have hlen : ((data.drop i).take 32).length = 32 := by
    rw [List.length_take, List.length_drop]
    omega
  have hhalf : ((data.drop i).take 32).drop 16 = (data.drop (i + 16)).take 16 := by
    rw [List.drop_take, List.drop_drop]
  have hscaled : (⟨ofU128 (wordAt data i % 2 ^ 128), 18⟩ : Decimal).toDecimals 8 =
      .ok ⟨(ofU128 (wordAt data i % 2 ^ 128)).tdiv (10 ^ 10), 8⟩ :=
    (Decimal.toDecimals_down (show 8 < 18 by decide)).mpr
      ⟨show InRange (10 ^ 10) by decide, rfl⟩
  unfold decodeUint256
  rw [if_neg (not_not.mpr hlen), hhalf, hlow]
  simp only [hscaled]
  split <;> rfl

/-- It is the word rounded down exactly when the word fits. -/
theorem lowWord_eq_iff (w : Nat) : lowWord w = CoreWriterAction.scaledWord w ↔ w < 2 ^ 127 := by
  have h := @low_tdiv_eq_iff w (10 ^ 10) (by decide) (by decide)
  unfold lowWord CoreWriterAction.scaledWord
  rw [Decimal.mk.injEq, and_iff_left rfl]
  exact h

end Reading

namespace CoreWriterAction

variable {Id : Type} {a : CoreWriterAction Id}

/-- With 64 bytes a payment is decoded. -/
theorem decodePayment_of_le (h : 64 ≤ a.data.length) :
    a.decodePayment = .ok (.ok (addressOfBytes ((a.data.drop 12).take 20),
      lowWord (wordAt a.data 32))) := by
  unfold decodePayment
  rw [if_neg (by omega), slice_of_le (by decide) (by omega : 32 ≤ a.data.length),
    slice_of_le (by decide) (by omega : 64 ≤ a.data.length)]
  simp only [bind, Except.bind]
  rw [decodeUint256_word (by omega : 32 + 32 ≤ a.data.length)]
  rfl

/-- With 128 bytes an order is decoded; with 96 to 127 the size is sliced out of bounds. -/
theorem decodePlaceOrder_cases :
    (a.data.length < 96 ∧ a.decodePlaceOrder = .ok (.error .invalidData)) ∨
    (96 ≤ a.data.length ∧ a.data.length < 128 ∧ a.decodePlaceOrder = .error .panic) ∨
    (128 ≤ a.data.length ∧ ∃ p, a.decodePlaceOrder = .ok (.ok p) ∧
      p.price = lowWord (wordAt a.data 64) ∧ p.size = lowWord (wordAt a.data 96)) := by
  by_cases hshort : a.data.length < 96
  · exact .inl ⟨hshort, if_pos hshort⟩
  · right
    unfold decodePlaceOrder
    rw [if_neg hshort, byteAt_of_lt (by omega : 31 < a.data.length),
      byteAt_of_lt (by omega : 63 < a.data.length),
      slice_of_le (by decide) (by omega : 96 ≤ a.data.length)]
    simp only [bind, Except.bind]
    rw [decodeUint256_word (by omega : 64 + 32 ≤ a.data.length)]
    by_cases hlong : 128 ≤ a.data.length
    · right
      rw [slice_of_le (by decide) hlong]
      dsimp only
      rw [decodeUint256_word (by omega : 96 + 32 ≤ a.data.length)]
      exact ⟨hlong, _, rfl, rfl, rfl⟩
    · left
      refine ⟨by omega, by omega, ?_⟩
      have hpanic : slice a.data 96 128 = .error .panic := if_neg fun h => hlong h.2
      rw [hpanic]

theorem decodeCancelOrder_cases :
    (a.data.length < 64 ∧ a.decodeCancelOrder = .ok (.error .invalidData)) ∨
    (64 ≤ a.data.length ∧ ∃ p, a.decodeCancelOrder = .ok (.ok p)) := by
  by_cases hshort : a.data.length < 64
  · exact .inl ⟨hshort, if_pos hshort⟩
  · right
    unfold decodeCancelOrder
    rw [if_neg hshort, byteAt_of_lt (by omega : 31 < a.data.length),
      slice_of_le (by decide) (by omega : 64 ≤ a.data.length)]
    exact ⟨by omega, _, rfl⟩

theorem decodeUpdateLeverage_cases :
    (a.data.length < 64 ∧ a.decodeUpdateLeverage = .ok (.error .invalidData)) ∨
    (64 ≤ a.data.length ∧ ∃ p, a.decodeUpdateLeverage = .ok (.ok p)) := by
  by_cases hshort : a.data.length < 64
  · exact .inl ⟨hshort, if_pos hshort⟩
  · right
    unfold decodeUpdateLeverage
    rw [if_neg hshort, byteAt_of_lt (by omega : 31 < a.data.length),
      byteAt_of_lt (by omega : 63 < a.data.length)]
    exact ⟨by omega, _, rfl⟩

theorem minLength_le (a : CoreWriterAction Id) : a.minLength ≤ a.readLength := by
  unfold minLength readLength
  cases a.actionType <;> decide

/-- Short data is refused, orders of 96 to 127 bytes halt, and else the low halves of the words are
given. -/
theorem decodedAmounts_cases :
    (a.data.length < a.minLength ∧ a.decodedAmounts = .ok (.error .invalidData)) ∨
    (a.minLength ≤ a.data.length ∧ a.data.length < a.readLength ∧
      a.decodedAmounts = .error .panic) ∨
    (a.readLength ≤ a.data.length ∧ a.decodedAmounts = .ok (.ok (a.encodedWords.map lowWord))) := by
  have hpayment : (a.data.length < 64 ∧ a.decodePayment = .ok (.error .invalidData)) ∨
      (64 ≤ a.data.length ∧ ∃ d, a.decodePayment = .ok (.ok (d, lowWord (wordAt a.data 32)))) := by
    by_cases hshort : a.data.length < 64
    · exact .inl ⟨hshort, if_pos hshort⟩
    · exact .inr ⟨by omega, _, decodePayment_of_le (by omega)⟩
  unfold decodedAmounts minLength readLength encodedWords
  cases a.actionType with
  | placeOrder =>
    obtain ⟨hlen, heq⟩ | ⟨hlen, hlen', heq⟩ | ⟨hlen, p, heq, hprice, hsize⟩ :=
      a.decodePlaceOrder_cases
    · refine .inl ⟨hlen, ?_⟩
      dsimp only
      rw [heq]
      rfl
    · refine .inr (.inl ⟨hlen, hlen', ?_⟩)
      dsimp only
      rw [heq]
      rfl
    · refine .inr (.inr ⟨hlen, ?_⟩)
      dsimp only
      rw [heq, List.map_cons, List.map_cons, ← hprice, ← hsize]
      rfl
  | cancelOrder =>
    obtain ⟨hlen, heq⟩ | ⟨hlen, p, heq⟩ := a.decodeCancelOrder_cases
    · exact .inl ⟨hlen, by dsimp only; rw [heq]; rfl⟩
    · exact .inr (.inr ⟨hlen, by dsimp only; rw [heq]; rfl⟩)
  | updateLeverage =>
    obtain ⟨hlen, heq⟩ | ⟨hlen, p, heq⟩ := a.decodeUpdateLeverage_cases
    · exact .inl ⟨hlen, by dsimp only; rw [heq]; rfl⟩
    · exact .inr (.inr ⟨hlen, by dsimp only; rw [heq]; rfl⟩)
  | transfer =>
    unfold decodeTransfer
    obtain ⟨hlen, heq⟩ | ⟨hlen, d, heq⟩ := hpayment
    · exact .inl ⟨hlen, by dsimp only; rw [heq]; rfl⟩
    · exact .inr (.inr ⟨hlen, by dsimp only; rw [heq]; rfl⟩)
  | withdraw =>
    unfold decodeWithdraw
    obtain ⟨hlen, heq⟩ | ⟨hlen, d, heq⟩ := hpayment
    · exact .inl ⟨hlen, by dsimp only; rw [heq]; rfl⟩
    · exact .inr (.inr ⟨hlen, by dsimp only; rw [heq]; rfl⟩)

/-- **Decoding.** The decoder of an action returns and gives the encoded amounts exactly when it
refuses the data for its length, or has all the bytes it reads and words below 2^127. The lengths
decide whether it refuses, panics or reads, and a word below 2^127 is its own low half. -/
theorem decodesExactly_iff (a : CoreWriterAction Id) : a.DecodesExactly ↔ a.Readable := by
  have hexact : a.encodedWords.map lowWord = a.encodedWords.map scaledWord ↔
      ∀ w ∈ a.encodedWords, w < 2 ^ 127 := by
    rw [List.map_inj_left]
    exact forall₂_congr fun w _ => lowWord_eq_iff w
  unfold Readable
  obtain ⟨hlen, heq⟩ | ⟨hlen, hlen', heq⟩ | ⟨hlen, heq⟩ := a.decodedAmounts_cases
  · refine iff_of_true ⟨⟨_, heq⟩, fun amounts h => ?_⟩ (.inl hlen)
    rw [heq] at h
    cases h
  · refine iff_of_false (fun h => ?_) (by omega)
    obtain ⟨r, hr⟩ := h.returns
    rw [heq] at hr
    cases hr
  · rw [← hexact, or_iff_right (by have := a.minLength_le; omega), and_iff_right hlen]
    constructor
    · intro h
      exact h.exact _ heq
    · intro h
      refine ⟨⟨_, heq⟩, fun amounts hamounts => ?_⟩
      rw [heq] at hamounts
      cases hamounts
      exact h

/-- An order of 96 bytes is read out of bounds, and a transfer of 2^127 decodes to a negative
amount. -/
theorem order_of_96_halts : ∃ order transfer : CoreWriterAction Unit,
    order.data.length = 96 ∧ order.decodePlaceOrder = .error .panic ∧
    wordAt transfer.data 32 = 2 ^ 127 ∧
    ∃ p, transfer.decodeTransfer = .ok (.ok p) ∧ p.amount.value < 0 := by
  refine ⟨⟨(), 1, 1, .placeOrder, List.replicate 96 0, 1, 1⟩,
    ⟨(), 1, 1, .transfer, List.replicate 48 0 ++ 128 :: List.replicate 15 0, 1, 1⟩,
    by decide +kernel, by decide +kernel, by decide +kernel,
    ⟨0, -17014118346046923173168730371, 8⟩, by decide +kernel, by decide⟩

end CoreWriterAction

end Hypercore
