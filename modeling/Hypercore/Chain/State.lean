import Hypercore.Engine.Upkeep
import Hypercore.Spot.Engine
import Hypercore.Chain.Tx
/-!
# Hypercore.Chain.State

The application state: both engines on one balance sheet, nonces, client order
ids, and the app hash that commits to a block.

The source shares the balance sheet between the application and its engines
through handles. Here the application owns it: `perp` and `spot` hand it to an
engine for a call, `setPerp` and `setSpot` take it back.

Locks are taken without contention. No code adds pending transactions; they and the
transaction counts of blocks are left out.
-/

namespace Hypercore

open Exec Int128

abbrev BlockHeight := Nat

/-! ### Block events -/

/-- One party's side of a trade. -/
structure FillEvent where
  tradeId : Nat
  orderId : OrderId
  account : AccountAddress
  marketId : MarketId
  side : OrderSide
  price : Decimal
  size : Decimal
  fee : Decimal
  isTaker : Bool
  realizedPnl : Int
  timestamp : Timestamp
  deriving DecidableEq, Repr

/-- An order that rests. -/
structure OrderPlacedEvent where
  orderId : OrderId
  account : AccountAddress
  marketId : MarketId
  side : OrderSide
  price : Decimal
  size : Decimal
  reduceOnly : Bool
  clientOrderId : Option ClientOrderId
  timestamp : Timestamp
  deriving DecidableEq, Repr

/-- Events of a block, for indexing. -/
inductive BlockEvent
  | fill (e : FillEvent)
  | orderPlaced (e : OrderPlacedEvent)
  | fundingApplied (marketId : MarketId) (fundingRate : Int) (markPrice indexPrice : Decimal)
      (timestamp : Timestamp)
  | liquidation (account : AccountAddress) (marketId : MarketId) (size : Int) (price : Decimal)
      (timestamp : Timestamp)
  deriving DecidableEq, Repr

/-! ### The app hash -/

/-- A Merkle root. With an injective hash it determines its leaves, and is taken as
the list of them. -/
abbrev Root (κ ν : Type) := List (κ × ν)

/-- What `compute_app_hash` hashes besides the previous app hash. -/
structure HashInputs where
  height : BlockHeight
  timestamp : Timestamp
  /-- Total, core view and EVM view. -/
  unifiedState : Root (AccountAddress × TokenIndex) (Int × Int × Int)
  nonces : Root AccountAddress Nat
  /-- Size, entry notional, realized PnL, last funding index. -/
  positions : Root (AccountAddress × MarketId) (Int × Int × Int × Int)
  /-- Owner, side, price, original size, remaining size. -/
  orders : Root (MarketId × OrderId) (AccountAddress × OrderSide × Int × Int × Int)
  /-- Mark price, index price, funding rate, long and short open interest. -/
  markets : Root MarketId (Int × Int × Int × Int × Int)
  leverage : Root (AccountAddress × MarketId) UInt8
  insuranceFund : Int
  nextOrderId : OrderId
  cloids : Root (AccountAddress × ClientOrderId) (MarketId × OrderId)
  evmRoot : Option Nat
  deriving DecidableEq, Repr

/-- An app hash. With an injective hash it determines everything hashed into it: the
inputs of its block and of all blocks before it, newest first. -/
abbrev AppHash := List HashInputs

namespace EngineState

/-- The leaves of a map of maps. -/
def leaves {κ μ ν ρ : Type} [Ord κ] [Ord μ] [Std.TransOrd κ] [Std.TransOrd μ]
    [Std.LawfulEqOrd κ] [Std.LawfulEqOrd μ] (m : FinMap κ (FinMap μ ν)) (f : ν → ρ) :
    Root (κ × μ) ρ :=
  m.toList.flatMap fun p => p.2.toList.map fun q => ((p.1, q.1), f q.2)

/-- `positions_root_from_engine`. -/
def positionsRoot (s : EngineState) : Root (AccountAddress × MarketId) (Int × Int × Int × Int) :=
  leaves s.positions fun p =>
    (p.size.value, p.entryNotional.value, p.realizedPnl.value, p.lastFundingIndex.value)

/-- `orders_root_from_engine`. -/
def ordersRoot (s : EngineState) :
    Root (MarketId × OrderId) (AccountAddress × OrderSide × Int × Int × Int) :=
  leaves s.orders fun o =>
    (o.owner, o.side, o.price.value, o.originalSize.value, o.remainingSize.value)

/-- `markets_root_from_engine`. -/
def marketsRoot (s : EngineState) : Root MarketId (Int × Int × Int × Int × Int) :=
  s.markets.toList.map fun p => (p.2.id,
    (p.2.state.markPrice.value, p.2.state.indexPrice.value, p.2.state.fundingRate.value,
      p.2.state.openInterestLong.value, p.2.state.openInterestShort.value))

/-- `leverage_root_from_engine`. -/
def leverageRoot (s : EngineState) : Root (AccountAddress × MarketId) UInt8 :=
  leaves s.leverage id

end EngineState

/-- The root of the balance sheet. -/
def UnifiedState.root (u : UnifiedState) :
    Root (AccountAddress × TokenIndex) (Int × Int × Int) :=
  u.balances.toList.map fun p =>
    ((p.1.fst, p.1.snd), (p.2.total.value, p.2.coreView.value, p.2.evmView.value))

/-! ### Blocks -/

/-- Block metadata. -/
structure BlockMeta where
  height : BlockHeight
  timestamp : Timestamp
  hash : AppHash
  deriving DecidableEq, Repr

/-- What the legacy perp state notes of a block, for the indexer. -/
structure BlockMetadata where
  hash : AppHash
  timestamp : Timestamp
  events : List BlockEvent
  deriving DecidableEq, Repr

/-! ### The application state -/

/-- Application state containing engine state and chain metadata. -/
structure AppState where
  /-- The master balance sheet. -/
  unifiedState : UnifiedState
  /-- Full perpetuals engine. -/
  perpEngine : Option Engine
  /-- Legacy perpetuals state, read when there is no full engine. -/
  engine : EngineState
  spotEngine : Option SpotEngineState
  /-- State root of the EVM executor, when one is set. Execution does not touch it. -/
  evmRoot : Option Nat
  height : BlockHeight
  timestamp : Timestamp
  /-- Last block's app hash. -/
  appHash : AppHash
  /-- Nat counter per account. -/
  nonces : FinMap AccountAddress Nat
  blockEvents : FinMap BlockHeight (List BlockEvent)
  cloidToOid : FinMap (PairKey AccountAddress ClientOrderId) (MarketId × OrderId)
  oidToCloid : FinMap (PairKey MarketId OrderId) (AccountAddress × ClientOrderId)
  /-- Last timestamp nonce per account. -/
  lastTimestampNonces : FinMap AccountAddress Nat
  /-- Accumulated during block execution. -/
  pendingBlockEvents : List BlockEvent
  nextTradeId : Nat
  blockHashes : FinMap BlockHeight AppHash
  blockMetadata : FinMap BlockHeight BlockMeta
  /-- Merkle tree of the balance sheet, cached at the end of a block for proofs. -/
  unifiedStateTree : Option (Root (AccountAddress × TokenIndex) (Int × Int × Int))
  /-- Merkle tree of the nonces, cached at the end of a block for proofs. -/
  nonceTree : Option (Root AccountAddress Nat)
  /-- Last block noted in the legacy perp state. -/
  engineHeight : BlockHeight
  /-- Blocks noted in the legacy perp state. -/
  engineBlocks : FinMap BlockHeight BlockMetadata

namespace AppState

/-- A new app state without engines. -/
def new : AppState where
  unifiedState := .new
  perpEngine := none
  engine := .new
  spotEngine := none
  evmRoot := none
  height := 0
  timestamp := 0
  appHash := []
  nonces := ∅
  blockEvents := ∅
  cloidToOid := ∅
  oidToCloid := ∅
  lastTimestampNonces := ∅
  pendingBlockEvents := []
  nextTradeId := 1
  blockHashes := ∅
  blockMetadata := ∅
  unifiedStateTree := none
  nonceTree := none
  engineHeight := 0
  engineBlocks := ∅

variable (s : AppState)

/-! ### Engines on the shared balance sheet -/

/-- The perp engine, reading the current balance sheet if it shares it. -/
def perp : Option Engine :=
  s.perpEngine.map fun e => { e with unifiedState := e.unifiedState.map fun _ => s.unifiedState }

/-- Put the perp engine and the balance sheet it leaves back. -/
def setPerp (e : Engine) : AppState :=
  { s with perpEngine := some e, unifiedState := e.unifiedState.getD s.unifiedState }

/-- The spot engine, on the current balance sheet. -/
def spot : Option SpotEngineState :=
  s.spotEngine.map fun e => { e with unifiedState := s.unifiedState }

/-- Put the spot engine and the balance sheet it leaves back. -/
def setSpot (e : SpotEngineState) : AppState :=
  { s with spotEngine := some e, unifiedState := e.unifiedState }

def setUnified (u : UnifiedState) : AppState := { s with unifiedState := u }

/-! ### Client order ids -/

/-- Register a client order id. -/
def registerCloid (owner : AccountAddress) (cloid : ClientOrderId) (marketId : MarketId)
    (orderId : OrderId) : AppState :=
  { s with
    cloidToOid := s.cloidToOid.insert ⟨owner, cloid⟩ (marketId, orderId)
    oidToCloid := s.oidToCloid.insert ⟨marketId, orderId⟩ (owner, cloid) }

def getOrderByCloid (owner : AccountAddress) (cloid : ClientOrderId) :
    Option (MarketId × OrderId) :=
  s.cloidToOid[(⟨owner, cloid⟩ : PairKey _ _)]?

/-- Remove a client order id. -/
def removeCloid (owner : AccountAddress) (cloid : ClientOrderId) : AppState :=
  match s.getOrderByCloid owner cloid with
  | none => s
  | some (marketId, orderId) =>
    { s with
      cloidToOid := s.cloidToOid.erase ⟨owner, cloid⟩
      oidToCloid := s.oidToCloid.erase ⟨marketId, orderId⟩ }

/-- Remove the client order id of an order that is gone. -/
def removeCloidByOrder (marketId : MarketId) (orderId : OrderId) : AppState :=
  match s.oidToCloid[(⟨marketId, orderId⟩ : PairKey _ _)]? with
  | none => s
  | some (owner, cloid) =>
    { s with
      oidToCloid := s.oidToCloid.erase ⟨marketId, orderId⟩
      cloidToOid := s.cloidToOid.erase ⟨owner, cloid⟩ }

/-! ### Block events -/

def addPendingBlockEvent (e : BlockEvent) : AppState :=
  { s with pendingBlockEvents := s.pendingBlockEvents ++ [e] }

/-- Take the next trade id. -/
def takeTradeId : Exec (Nat × AppState) := do
  let next ← u64 (s.nextTradeId + 1)
  return (s.nextTradeId, { s with nextTradeId := next })

/-! ### Nonces -/

/-- Nonces above this (milliseconds) are timestamps. -/
def timestampThreshold : Nat := 1000000000000

/-- One hour in milliseconds. -/
def oneHourMs : Nat := 3600000

/-- The nonce counter of an account. -/
def getNonce (a : AccountAddress) : Nat := (s.nonces[a]?).getD 0

/-- The last timestamp nonce of an account. -/
def lastTimestamp (a : AccountAddress) : Nat := (s.lastTimestampNonces[a]?).getD 0

def incrementNonce (a : AccountAddress) : Exec AppState := do
  let next ← u64 (s.getNonce a + 1)
  return { s with nonces := s.nonces.insert a next }

/-- `validate_nonce`: a timestamp must be within an hour of the reference time, which
saturates at both ends of `u64`, and above the last one; a sequential nonce must be
within 100 of the counter. -/
def validateNonce (a : AccountAddress) (nonce : Nat) (referenceTime : Timestamp) : Bool :=
  if timestampThreshold < nonce then
    referenceTime - oneHourMs < nonce ∧
      nonce < min (referenceTime + oneHourMs) (2 ^ 64 - 1) ∧
      s.lastTimestamp a < nonce
  else
    s.getNonce a ≤ nonce ∧ nonce < s.getNonce a + 100

/-- Remember a timestamp nonce. -/
def updateTimestampNonce (a : AccountAddress) (nonce : Nat) : AppState :=
  if timestampThreshold < nonce then
    { s with lastTimestampNonces :=
        s.lastTimestampNonces.insert a (max (s.lastTimestamp a) nonce) }
  else s

/-- State errors that validation gives. -/
inductive StateError
  | invalidNonce
  | invalidSignature
  deriving DecidableEq, Repr

def validateTx (tx : Transaction) (referenceTime : Timestamp) : Except StateError Unit :=
  match tx.sender with
  | .error _ => .error .invalidSignature
  | .ok sender =>
    if s.validateNonce sender tx.nonce referenceTime then .ok () else .error .invalidNonce

/-! ### The app hash of a block -/

/-- The engine state that the app hash commits to. -/
def committedEngine : EngineState :=
  match s.perpEngine with
  | some e => e.state
  | none => s.engine

/-- What `compute_app_hash` hashes, less the previous app hash. -/
def hashInputs : HashInputs where
  height := s.height
  timestamp := s.timestamp
  unifiedState := s.unifiedState.root
  nonces := s.nonces.toList
  positions := s.committedEngine.positionsRoot
  orders := s.committedEngine.ordersRoot
  markets := s.committedEngine.marketsRoot
  leverage := s.committedEngine.leverageRoot
  insuranceFund := s.committedEngine.insuranceFund
  nextOrderId := s.committedEngine.nextOrderId
  cloids := s.cloidToOid.toList.map fun p => ((p.1.fst, p.1.snd), p.2)
  evmRoot := s.evmRoot

/-- `compute_app_hash`. -/
def computeAppHash : AppHash := s.hashInputs :: s.appHash

/-- `AppState::end_block`. -/
def endBlock : AppState :=
  { s with
    unifiedStateTree := some s.unifiedState.root
    nonceTree := some s.nonces.toList
    appHash := s.computeAppHash
    blockHashes := s.blockHashes.insert s.height s.computeAppHash }

/-- Note the block that ended, in the application and in the legacy perp state. -/
def storeBlock (events : List BlockEvent) : AppState :=
  { s with
    blockMetadata := s.blockMetadata.insert s.height ⟨s.height, s.timestamp, s.appHash⟩
    engineHeight := s.height
    engineBlocks := s.engineBlocks.insert s.height ⟨s.appHash, s.timestamp, events⟩ }

end AppState

end Hypercore
