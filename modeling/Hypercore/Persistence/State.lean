import Hypercore.Primitives.Keccak
import Hypercore.Primitives.Types
import Mathlib.Data.Countable.Basic
import Mathlib.Tactic.DeriveCountable
/-!
# Hypercore.Persistence.State

The state that is persisted, and its validation.

Positions and orders leave the type of their decimals open, and contract code that of
its bytes: both are `String` in the text form of a state (`PersistedState String String`),
where all other data is plain.
-/

namespace Hypercore

open Exec Int128

/-! ### Entries -/

instance countableUInt8 : Countable UInt8 :=
  Function.Injective.countable fun _ _ => UInt8.toNat_inj.mp
instance countableUInt32 : Countable UInt32 :=
  Function.Injective.countable fun _ _ => UInt32.toNat_inj.mp
instance countableUInt64 : Countable UInt64 :=
  Function.Injective.countable fun _ _ => UInt64.toNat_inj.mp
instance countableChar : Countable Char :=
  Function.Injective.countable fun _ _ h => Char.ext (UInt32.toNat_inj.mp h : _ = _)
instance countableString : Countable String :=
  Function.Injective.countable fun _ _ => String.toList_inj.mp

deriving instance Countable for OrderSide, TimeInForce, OrderType, OrderStatus, TriggerDirection

/-- A position, with the type of its decimals open. -/
structure PositionOf (D : Type) where
  size : D
  entryNotional : D
  realizedPnl : D
  lastFundingIndex : D
  deriving DecidableEq, Repr, Countable

/-- An order, with the type of its decimals open. -/
structure OrderOf (D : Type) where
  id : UInt64
  owner : AccountAddress
  marketId : MarketId
  side : OrderSide
  price : D
  originalSize : D
  remainingSize : D
  orderType : OrderType
  reduceOnly : Bool
  postOnly : Bool
  clientOrderId : Option ClientOrderId
  timestamp : UInt64
  status : OrderStatus
  triggerPrice : Option D
  triggerDirection : Option TriggerDirection
  isTriggered : Bool
  deriving DecidableEq, Repr, Countable

/-- The three amounts of a balance as text, and their precision. -/
structure UnifiedBalanceData where
  total : String
  coreView : String
  evmView : String
  decimals : UInt8
  deriving DecidableEq, Repr, Countable

structure BalanceEntry where
  account : AccountAddress
  token : TokenIndex
  balance : UnifiedBalanceData
  deriving DecidableEq, Repr, Countable

structure AccountEntry where
  account : AccountAddress
  equity : String
  marginUsed : String
  availableBalance : String
  deriving DecidableEq, Repr, Countable

structure PositionEntry (D : Type) where
  account : AccountAddress
  market : MarketId
  position : PositionOf D
  deriving DecidableEq, Repr, Countable

structure LeverageEntry where
  account : AccountAddress
  market : MarketId
  leverage : UInt8
  deriving DecidableEq, Repr, Countable

structure MarketEntry where
  id : MarketId
  symbol : String
  maxLeverage : UInt8
  tickSize : String
  lotSize : String
  makerFeeRate : String
  takerFeeRate : String
  markPrice : String
  indexPrice : String
  fundingRate : String
  fundingAccumulator : String
  openInterestLong : String
  openInterestShort : String
  nextFundingTime : UInt64
  deriving DecidableEq, Repr, Countable

structure OrderEntry (D : Type) where
  market : MarketId
  orderId : UInt64
  order : OrderOf D
  deriving DecidableEq, Repr, Countable

structure SpotTokenEntry where
  index : TokenIndex
  symbol : String
  name : String
  weiDecimals : UInt8
  szDecimals : UInt8
  maxSupply : String
  deployer : AccountAddress
  deriving DecidableEq, Repr, Countable

structure SpotMarketEntry where
  id : UInt32
  symbol : String
  baseToken : TokenIndex
  quoteToken : TokenIndex
  tickSize : String
  lotSize : String
  makerFeeRate : String
  takerFeeRate : String
  deriving DecidableEq, Repr, Countable

structure ReservedEntry where
  account : AccountAddress
  token : TokenIndex
  amount : String
  deriving DecidableEq, Repr, Countable

structure EvmAccountEntry where
  address : AccountAddress
  nonce : UInt64
  codeHash : Option Bytes32
  deriving DecidableEq, Repr, Countable

structure EvmStorageEntry where
  address : AccountAddress
  slot : Bytes32
  value : Bytes32
  deriving DecidableEq, Repr, Countable

/-- Contract code, with the type of its bytes open. -/
structure EvmCodeEntry (B : Type) where
  codeHash : Bytes32
  bytecode : B
  deriving DecidableEq, Repr, Countable

structure EvmBlockHashEntry where
  height : UInt64
  hash : Bytes32
  deriving DecidableEq, Repr, Countable

structure NonceEntry where
  account : AccountAddress
  nonce : UInt64
  deriving DecidableEq, Repr, Countable

structure BlockMetaEntry where
  height : UInt64
  timestamp : UInt64
  hash : Bytes32
  appHash : Bytes32
  txCount : UInt32
  deriving DecidableEq, Repr, Countable

structure CloidEntry where
  account : AccountAddress
  cloid : ClientOrderId
  market : MarketId
  orderId : UInt64
  deriving DecidableEq, Repr, Countable

/-! ### States -/

/-- Core trading state. -/
structure CoreState (D : Type) where
  balances : List BalanceEntry := []
  accounts : List AccountEntry := []
  positions : List (PositionEntry D) := []
  leverage : List LeverageEntry := []
  markets : List MarketEntry := []
  orders : List (OrderEntry D) := []
  insuranceFund : String := ""
  nextOrderId : UInt64 := 0
  deriving DecidableEq, Repr, Countable

/-- Spot trading state. -/
structure SpotState (D : Type) where
  tokens : List SpotTokenEntry := []
  markets : List SpotMarketEntry := []
  reserved : List ReservedEntry := []
  orders : List (OrderEntry D) := []
  nextTokenIndex : TokenIndex := 0
  nextMarketId : UInt32 := 0
  nextOrderId : UInt64 := 0
  deriving DecidableEq, Repr, Countable

/-- EVM state data. -/
structure EvmStateData (B : Type) where
  accounts : List EvmAccountEntry := []
  storage : List EvmStorageEntry := []
  code : List (EvmCodeEntry B) := []
  blockHashes : List EvmBlockHashEntry := []
  deriving DecidableEq, Repr, Countable

/-- Chain metadata. -/
structure ChainState where
  nonces : List NonceEntry := []
  blocks : List BlockMetaEntry := []
  cloidIndex : List CloidEntry := []
  deriving DecidableEq, Repr, Countable

/-- State of the perpetual engine. -/
structure PerpState (D : Type) where
  positions : List (PositionEntry D) := []
  leverage : List LeverageEntry := []
  markets : List MarketEntry := []
  orders : List (OrderEntry D) := []
  nextOrderId : UInt64 := 0
  insuranceFund : String := ""
  deriving DecidableEq, Repr, Countable

/-- `SCHEMA_VERSION`. -/
def schemaVersion : UInt32 := 2

/-- Complete persisted state. -/
structure PersistedState (D B : Type) where
  schemaVersion : UInt32 := Hypercore.schemaVersion
  height : UInt64 := 0
  timestamp : UInt64 := 0
  appHash : Bytes32 := .ofPrefix []
  core : CoreState D := {}
  spot : SpotState D := {}
  evm : EvmStateData B := {}
  chain : ChainState := {}
  perp : PerpState D := {}
  deriving DecidableEq, Repr, Countable

/-! ### Decimals and code

`map` replaces every decimal and every contract's code; `decimals` and `codes` list them. -/

section Map

variable {D D' D'' B B' B'' : Type}

def PositionOf.map (f : D → D') (p : PositionOf D) : PositionOf D' where
  size := f p.size
  entryNotional := f p.entryNotional
  realizedPnl := f p.realizedPnl
  lastFundingIndex := f p.lastFundingIndex

def PositionOf.decimals (p : PositionOf D) : List D :=
  [p.size, p.entryNotional, p.realizedPnl, p.lastFundingIndex]

def OrderOf.map (f : D → D') (o : OrderOf D) : OrderOf D' :=
  { o with
    price := f o.price
    originalSize := f o.originalSize
    remainingSize := f o.remainingSize
    triggerPrice := o.triggerPrice.map f }

def OrderOf.decimals (o : OrderOf D) : List D :=
  [o.price, o.originalSize, o.remainingSize] ++ o.triggerPrice.toList

def PositionEntry.map (f : D → D') (e : PositionEntry D) : PositionEntry D' :=
  { e with position := e.position.map f }

def OrderEntry.map (f : D → D') (e : OrderEntry D) : OrderEntry D' :=
  { e with order := e.order.map f }

def EvmCodeEntry.map (g : B → B') (e : EvmCodeEntry B) : EvmCodeEntry B' :=
  { e with bytecode := g e.bytecode }

/-- Replace every decimal and every contract's code. -/
def PersistedState.map (f : D → D') (g : B → B') (s : PersistedState D B) :
    PersistedState D' B' :=
  { s with
    core := { s.core with
      positions := s.core.positions.map (·.map f)
      orders := s.core.orders.map (·.map f) }
    spot := { s.spot with orders := s.spot.orders.map (·.map f) }
    evm := { s.evm with code := s.evm.code.map (·.map g) }
    perp := { s.perp with
      positions := s.perp.positions.map (·.map f)
      orders := s.perp.orders.map (·.map f) } }

/-- All decimals of a state. -/
def PersistedState.decimals (s : PersistedState D B) : List D :=
  (s.core.positions ++ s.perp.positions).flatMap (·.position.decimals) ++
    (s.core.orders ++ s.spot.orders ++ s.perp.orders).flatMap (·.order.decimals)

/-- All contracts' code. -/
def PersistedState.codes (s : PersistedState D B) : List B := s.evm.code.map (·.bytecode)

@[simp] theorem OrderOf.decimals_map (f : D → D') (o : OrderOf D) :
    (o.map f).decimals = o.decimals.map f := by
  unfold OrderOf.decimals OrderOf.map
  cases o.triggerPrice <;> rfl

theorem OrderOf.map_congr {f f' : D → D'} {o : OrderOf D} (h : ∀ d ∈ o.decimals, f d = f' d) :
    o.map f = o.map f' := by
  have htrigger : o.triggerPrice.map f = o.triggerPrice.map f' := by
    cases ht : o.triggerPrice with
    | none => rfl
    | some d => exact congrArg some (h d (by simp [OrderOf.decimals, ht]))
  have hprice := h o.price (by simp [OrderOf.decimals])
  have horiginal := h o.originalSize (by simp [OrderOf.decimals])
  have hremaining := h o.remainingSize (by simp [OrderOf.decimals])
  simp only [OrderOf.map, htrigger, hprice, horiginal, hremaining]

theorem PositionOf.map_congr {f f' : D → D'} {p : PositionOf D}
    (h : ∀ d ∈ p.decimals, f d = f' d) : p.map f = p.map f' := by
  have hsize := h p.size (by simp [PositionOf.decimals])
  have hnotional := h p.entryNotional (by simp [PositionOf.decimals])
  have hpnl := h p.realizedPnl (by simp [PositionOf.decimals])
  have hindex := h p.lastFundingIndex (by simp [PositionOf.decimals])
  simp only [PositionOf.map, hsize, hnotional, hpnl, hindex]

namespace PersistedState

theorem map_map (f : D → D') (f' : D' → D'') (g : B → B') (g' : B' → B'')
    (s : PersistedState D B) : (s.map f g).map f' g' = s.map (f' ∘ f) (g' ∘ g) := by
  have horder (o : OrderEntry D) : (o.map f).map f' = o.map (f' ∘ f) := by
    simp [OrderEntry.map, OrderOf.map]
  simp [PersistedState.map, horder, PositionEntry.map, PositionOf.map, EvmCodeEntry.map]

@[simp] theorem decimals_map (f : D → D') (g : B → B') (s : PersistedState D B) :
    (s.map f g).decimals = s.decimals.map f := by
  have hposition (p : PositionEntry D) :
      (p.map f).position.decimals = p.position.decimals.map f := rfl
  have horder (o : OrderEntry D) : (o.map f).order.decimals = o.order.decimals.map f :=
    OrderOf.decimals_map f o.order
  simp [PersistedState.map, PersistedState.decimals, List.flatMap_map, List.map_flatMap,
    hposition, horder]

@[simp] theorem codes_map (f : D → D') (g : B → B') (s : PersistedState D B) :
    (s.map f g).codes = s.codes.map g := by
  simp [PersistedState.map, codes, EvmCodeEntry.map]

/-- What is done to a state's own decimals and code decides what becomes of the state. -/
theorem map_congr {f f' : D → D'} {g g' : B → B'} {s : PersistedState D B}
    (hf : ∀ d ∈ s.decimals, f d = f' d) (hg : ∀ b ∈ s.codes, g b = g' b) :
    s.map f g = s.map f' g' := by
  have hposition {l : List (PositionEntry D)}
      (hl : ∀ p ∈ l, p ∈ s.core.positions ++ s.perp.positions) :
      l.map (·.map f) = l.map (·.map f') := by
    refine List.map_congr_left fun p hp => ?_
    have hmap : p.position.map f = p.position.map f' := PositionOf.map_congr fun d hd => hf d
      (List.mem_append_left _ (List.mem_flatMap.mpr ⟨p, hl p hp, hd⟩))
    simp only [PositionEntry.map, hmap]
  have horder {l : List (OrderEntry D)}
      (hl : ∀ o ∈ l, o ∈ s.core.orders ++ s.spot.orders ++ s.perp.orders) :
      l.map (·.map f) = l.map (·.map f') := by
    refine List.map_congr_left fun o ho => ?_
    have hmap : o.order.map f = o.order.map f' := OrderOf.map_congr fun d hd => hf d
      (List.mem_append_right _ (List.mem_flatMap.mpr ⟨o, hl o ho, hd⟩))
    simp only [OrderEntry.map, hmap]
  have hcode : s.evm.code.map (·.map g) = s.evm.code.map (·.map g') := by
    refine List.map_congr_left fun c hc => ?_
    simp only [EvmCodeEntry.map, hg c.bytecode (List.mem_map.mpr ⟨c, hc, rfl⟩)]
  simp only [PersistedState.map, hcode, hposition fun p hp => List.mem_append_left _ hp,
    hposition fun p hp => List.mem_append_right _ hp,
    horder fun o ho => List.mem_append_left _ (List.mem_append_left _ ho),
    horder fun o ho => List.mem_append_left _ (List.mem_append_right _ ho),
    horder fun o ho => List.mem_append_right _ ho]

end PersistedState

end Map

/-! ### Validation -/

/-- The integer part that `from_str_exact` reads. -/
def integerPart (text : List Char) : Option Int :=
  let s := Decimal.trim text
  let s := if s.head? = some '-' then s.tail else s
  match s.splitOn '.' with
  | [integerStr] => Decimal.parseI128 integerStr
  | [integerStr, _] => Decimal.parseI128 integerStr
  | _ => none

/-- `from_str_exact` at any precision: the scale is computed once the integer part is read. -/
def parseAmount (text : String) (decimals : UInt8) : Exec (Option Decimal) := do
  if (integerPart text.toList).isSome then
    let _ ← Decimal.pow10 decimals.toNat
  return Decimal.fromStrExact text.toList decimals.toNat

/-- Check if the balance invariant holds. -/
def UnifiedBalanceData.isValid (b : UnifiedBalanceData) : Exec Bool := do
  let total ← parseAmount b.total b.decimals
  let core ← parseAmount b.coreView b.decimals
  let evm ← parseAmount b.evmView b.decimals
  match total, core, evm with
  | some t, some c, some e => return t == (← c.add e)
  | _, _, _ => return false

/-- What is wrong with a state. -/
inductive StateError
  | schemaVersion (found : UInt32)
  | invalidBalance (account : AccountAddress) (token : TokenIndex)
  deriving DecidableEq, Repr

/-- The first balance that is not valid. -/
def validateBalances : List BalanceEntry → Exec (Except StateError Unit)
  | [] => return .ok ()
  | b :: rest => do
    if ← b.balance.isValid then
      validateBalances rest
    else
      return .error (.invalidBalance b.account b.token)

/-- Validate the state invariants. -/
def PersistedState.validate {D B : Type} (s : PersistedState D B) : Exec (Except StateError Unit) :=
  if s.schemaVersion ≠ Hypercore.schemaVersion then
    return .error (.schemaVersion s.schemaVersion)
  else
    validateBalances s.core.balances

/-- Neither decimals nor code are validated. -/
@[simp] theorem PersistedState.validate_map {D D' B B' : Type} (f : D → D') (g : B → B')
    (s : PersistedState D B) : (s.map f g).validate = s.validate := rfl

end Hypercore
