import Hypercore.Chain.Run
import Hypercore.Evm.Executor
/-!
# Hypercore.Chain.Abci

The ABCI application: proposals and the delivery of blocks.

Raw transactions are bytes. A JSON-encoded transaction of the exchange is tried
first, then a raw EVM transaction; the two parsers and the signature recovery in
them are parameters (`RawDecoders`).

The balance sheet is shared with the EVM executor. The model hands the executor
the application's sheet when it is called, and takes it back.
-/

namespace Hypercore

open Exec Int128

/-! ### Raw transactions -/

/-- The parsers of raw transactions. Those of EVM transactions can panic. -/
structure RawDecoders where
  /-- `serde_json::from_slice::<Transaction>`. -/
  transaction : Bytes → Option Transaction
  legacy : Bytes → Exec (Option EvmTransaction)
  eip1559 : Bytes → Exec (Option EvmTransaction)

namespace RawDecoders

variable (D : RawDecoders)

/-- An EIP-2930 transaction is decoded as an EIP-1559 one. -/
def eip2930 (raw : Bytes) : Exec (Option EvmTransaction) := D.eip1559 raw

/-- `decode_raw_transaction`: the first byte selects the transaction type. -/
def decodeRawTransaction (raw : Bytes) : Exec (Option EvmTransaction) :=
  match raw with
  | [] => return none
  | firstByte :: rest =>
    if 0xc0 ≤ firstByte then D.legacy raw
    else if firstByte = 0x02 then D.eip1559 rest
    else if firstByte = 0x01 then D.eip2930 rest
    else return none

end RawDecoders

/-! ### Proposals -/

/-- Answer to a proposal. -/
inductive ProposalStatus
  | accept
  | reject
  deriving DecidableEq, Repr

namespace AppState

/-- `check_tx`: validation against the node's own clock. -/
def checkTx (s : AppState) (tx : Transaction) (now : Timestamp) : Except StateError Unit :=
  s.validateTx tx now

/-- `prepare_proposal` returns the transactions as they are. -/
def prepareProposal (txs : List Bytes) : List Bytes := txs

/-- `process_proposal`. The clock is read anew for each transaction. -/
def processProposal (D : RawDecoders) (s : AppState) (clock : Nat → Timestamp) :
    List Bytes → Exec ProposalStatus
  | [] => return .accept
  | raw :: rest =>
    match D.transaction raw with
    | some tx =>
      match s.checkTx tx (clock 0) with
      | .error _ => return .reject
      | .ok () => processProposal D s (fun k => clock (k + 1)) rest
    | none => do
      match ← D.decodeRawTransaction raw with
      | none => return .reject
      | some _ => processProposal D s (fun k => clock (k + 1)) rest

/-- A transaction whose nonce is in order for each of some clocks: in sequence, or a new
timestamp within an hour of all of them. -/
def NonceInOrder {Node : Type} (s : AppState) (times : Node → Timestamp) (tx : Transaction) :
    Prop :=
  ∃ a, tx.signer = some a ∧
    if timestampThreshold < tx.nonce then
      s.lastTimestamp a < tx.nonce ∧ ∀ v, times v - oneHourMs < tx.nonce ∧
        tx.nonce < min (times v + oneHourMs) (2 ^ 64 - 1)
    else s.getNonce a ≤ tx.nonce ∧ tx.nonce < s.getNonce a + 100

/-- A raw transaction that every node accepts: one of the exchange whose nonce is in order,
or else a raw EVM transaction. -/
def Acceptable {Node : Type} (D : RawDecoders) (s : AppState) (times : Node → Timestamp)
    (raw : Bytes) : Prop :=
  match D.transaction raw with
  | some tx => s.NonceInOrder times tx
  | none => ∃ tx, D.decodeRawTransaction raw = .ok (some tx)

section Proposals

variable {D : RawDecoders} {s : AppState} {Node : Type} [Nonempty Node]

theorem checkTx_all_iff {times : Node → Timestamp} {tx : Transaction} :
    (∀ v, s.checkTx tx (times v) = .ok ()) ↔ s.NonceInOrder times tx := by
  unfold checkTx validateTx Transaction.sender NonceInOrder
  cases ha : tx.signer with
  | none => simp
  | some a =>
    simp only [Option.some.injEq, exists_eq_left']
    have hone : ∀ t, (if s.validateNonce a tx.nonce t = true then (.ok () : Except StateError Unit)
        else .error .invalidNonce) = .ok () ↔ s.validateNonce a tx.nonce t = true := by
      intro t
      split <;> simp_all
    simp only [hone]
    unfold validateNonce
    by_cases hn : timestampThreshold < tx.nonce
    · simp only [if_pos hn, decide_eq_true_eq]
      constructor
      · intro h
        exact ⟨(h (Classical.arbitrary Node)).2.2, fun v => ⟨(h v).1, (h v).2.1⟩⟩
      · rintro ⟨hlast, h⟩ v
        exact ⟨(h v).1, (h v).2, hlast⟩
    · simp only [if_neg hn, decide_eq_true_eq, forall_const]

theorem processProposal_cons {clock : Nat → Timestamp} {raw : Bytes} {rest : List Bytes} :
    s.processProposal D clock (raw :: rest) =
      (match D.transaction raw with
      | some tx =>
        match s.checkTx tx (clock 0) with
        | .error _ => return .reject
        | .ok () => s.processProposal D (fun k => clock (k + 1)) rest
      | none => do
        match ← D.decodeRawTransaction raw with
        | none => return .reject
        | some _ => s.processProposal D (fun k => clock (k + 1)) rest) := rfl

/-- **Proposals.** The list that a proposer returns is accepted by every node in its state,
whatever their clocks read, exactly when each transaction offered is acceptable. -/
theorem proposal_accepted_iff {clock : Node → Nat → Timestamp} {txs : List Bytes} :
    (∀ v, s.processProposal D (clock v) (prepareProposal txs) = .ok .accept) ↔
      ∀ k raw, txs[k]? = some raw → s.Acceptable D (fun v => clock v k) raw := by
  unfold prepareProposal
  induction txs generalizing clock with
  | nil => exact ⟨fun _ k raw h => by simp at h, fun _ _ => rfl⟩
  | cons raw rest ih =>
    -- the head, and the rest with clocks that have been read once
    have hsplit : (∀ k r, (raw :: rest)[k]? = some r → s.Acceptable D (fun v => clock v k) r) ↔
        s.Acceptable D (fun v => clock v 0) raw ∧
          ∀ k r, rest[k]? = some r → s.Acceptable D (fun v => clock v (k + 1)) r := by
      constructor
      · exact fun h => ⟨h 0 raw rfl, fun k r hr => h (k + 1) r hr⟩
      · rintro ⟨h0, h⟩ k r hr
        cases k with
        | zero =>
          cases hr
          exact h0
        | succ k => exact h k r hr
    rw [hsplit, ← ih]
    simp only [processProposal_cons]
    unfold Acceptable
    cases htx : D.transaction raw with
    | some tx =>
      dsimp only
      rw [← checkTx_all_iff, ← forall_and]
      refine forall_congr' fun v => ?_
      cases hc : s.checkTx tx (clock v 0) with
      | error e => simp [pure, Except.pure]
      | ok u => simp
    | none =>
      dsimp only
      cases hd : D.decodeRawTransaction raw with
      | error e => simp
      | ok decoded =>
        cases decoded with
        | none => simp [pure, Except.pure]
        | some tx => simp

end Proposals

/-- A signed EIP-1559 transaction, as it is sent: no value, to address 2, no fees. -/
def transferBytes (nonce parity : UInt8) (r s : Nat) : Bytes :=
  [0x02, 0xf8, 0x64, 0x82, 0x05, 0x39, nonce, 0x80, 0x80, 0x82, 0x52, 0x08, 0x94] ++
    beBytes 20 2 ++ [0x80, 0x80, 0xc0, parity, 0xa0] ++ beBytes 32 r ++ 0xa0 :: beBytes 32 s

/-- The transfer with nonce 0, which is sent as an empty string. -/
def signedTransfer : Bytes :=
  transferBytes 0x80 0x80 0xc6047f9441ed7d6d3045406e95c07cd85c778e4b8cef3ca7abac09b95c709ee5
    0x29b81291234fc453476bfecefdf719366226a164243fcc302fcb7e3fb0086c09

/-- The same sender's with nonce 1. -/
def secondTransfer : Bytes :=
  transferBytes 0x01 0x01 0xf9308a019258c31049344f85f89d5229b531c845836f99b08601f113bce036f9
    0x243eae890fd8b1e14adac7c609952b61ef01655a2b9937d56ae63e3b46636f99

/-- Decoders that know these two only. -/
def sampleDecoders : RawDecoders where
  transaction _ := none
  legacy _ := return none
  eip1559 raw := return (match [signedTransfer, secondTransfer].findIdx? (·.tail = raw) with
    | some n => some ⟨0x7e5f4552091a69125d5dfcb7b8c2659029395bdf, some 2, 0, [], 21000, 0,
        UInt64.ofNat n⟩
    | none => none)

/-- Two nodes accept two raw EVM transactions, whatever their clocks read. -/
theorem proposal_accepted_transfers :
    processProposal sampleDecoders .new (fun _ => 0)
      (prepareProposal [signedTransfer, secondTransfer]) = .ok .accept ∧
    processProposal sampleDecoders .new (fun k => 1700000000000 + k)
      (prepareProposal [signedTransfer, secondTransfer]) = .ok .accept := by
  have h : ∀ v : Bool,
      processProposal sampleDecoders .new (fun k => if v then 0 else 1700000000000 + k)
        (prepareProposal [signedTransfer, secondTransfer]) = .ok .accept :=
    proposal_accepted_iff.mpr fun k raw h => by
      match k with
      | 0 =>
        cases h
        exact ⟨_, rfl⟩
      | 1 =>
        cases h
        exact ⟨_, rfl⟩
      | k + 2 => simp at h
  exact ⟨h true, h false⟩

/-- Bytes that no parser knows make every node reject the proposal they are in. -/
theorem undecodable_rejected : ∃ s, Reachable s ∧ ∀ clock : Nat → Timestamp,
    s.processProposal sampleDecoders clock (prepareProposal [signedTransfer, [0x00]]) ≠
      .ok .accept := by
  obtain ⟨s, hs, -⟩ := exists_of_test (x := nodeRun (usdcGenesis [(1, 1000000000)]) [])
    (p := fun _ => True) (by decide +kernel)
  refine ⟨s, nodeRun_reachable (usdcGenesis_nonneg _) hs, fun clock h => ?_⟩
  have hall := proposal_accepted_iff.mp (fun _ : Unit => h) 1 [0x00] rfl
  obtain ⟨tx, htx⟩ := hall
  cases htx

end AppState

/-! ### Blocks -/

/-- The ABCI application. -/
structure CometBftApp where
  app : AppState
  evmExecutor : Option EvmExecutor

/-- What became of a raw transaction. -/
inductive TxOutcome
  | core (result : Except AppError TxResult)
  | evm (result : Except EvmExecutorError EvmExecutionResult)
  | noExecutor
  | undecodable

/-- The response code: zero for success. -/
def TxOutcome.code : TxOutcome → Nat
  | core (.ok _) => 0
  | core (.error _) => 1
  | evm (.ok result) => if result.success then 0 else 1
  | evm (.error _) => 1
  | noExecutor => 1
  | undecodable => 1

/-- The state root of the EVM. With an injective hash it determines accounts, non-zero
storage and code lengths, and is taken as the list of them. -/
structure EvmRoot where
  accounts : Root Address (Nat × B256)
  storage : Root (Address × U256) U256
  code : Root B256 Nat
  deriving DecidableEq

/-- `compute_state_root`. -/
def EvmState.stateRoot (s : EvmState) : EvmRoot where
  accounts := s.accounts.toList.map fun p => (p.1, p.2.nonce, p.2.codeHash.getD .zero)
  storage := (EngineState.leaves s.storage fun v => v).filter fun p => p.2 ≠ 0
  code := s.code.toList.map fun p => (p.1, p.2.length)

/-- What a node is built with: parsers, hash functions, the interpreter and the precompiles,
which read the exchange's legacy state. -/
structure NodeParts where
  decoders : RawDecoders
  keccak : Keccak256
  rootHash : EvmRoot → Nat
  interpreter : Interpreter
  precompiles : EngineState → Precompiles

namespace CometBftApp

variable (N : NodeParts) (c : CometBftApp)

/-- The executor, on the application's balance sheet. -/
def executor : Option EvmExecutor :=
  c.evmExecutor.map fun x => { x with db := x.db.setUnified c.app.unifiedState }

/-- Take an executor's state back. -/
def putExecutor (x : EvmExecutor) : CometBftApp where
  app := c.app.setUnified x.db.unifiedState
  evmExecutor := some x

/-- Deliver one raw transaction. After an EVM transaction that returned, the executor's block
number and timestamp are advanced. -/
def deliverTx (timestamp : Timestamp) (raw : Bytes) (now : Nat) :
    Exec (TxOutcome × CometBftApp) :=
  match N.decoders.transaction raw with
  | some tx => do
    let (result, app) ← c.app.executeTx tx timestamp
    return (.core result, { c with app })
  | none => do
    match ← N.decoders.decodeRawTransaction raw with
    | none => return (.undecodable, c)
    | some tx =>
      match c.executor with
      | none => return (.noExecutor, c)
      | some x =>
        let (result, x) ← x.executeTx N.keccak N.interpreter (N.precompiles c.app.engine) tx
        match result with
        | .ok _ => do
          let x ← x.commit now
          return (.evm result, c.putExecutor x)
        | .error _ => return (.evm result, c.putExecutor x)

/-- Deliver the transactions of a block, each with the clock reading it would use. -/
def deliverTxs (timestamp : Timestamp) :
    List (Bytes × Nat) → CometBftApp → Exec (List TxOutcome × CometBftApp)
  | [], c => return ([], c)
  | (raw, now) :: rest, c => do
    let (outcome, c) ← c.deliverTx N timestamp raw now
    let (outcomes, c) ← deliverTxs timestamp rest c
    return (outcome :: outcomes, c)

/-- End the block: the application's end of block over the EVM's state root. -/
def endBlock (ord : HashOrder) : Exec CometBftApp := do
  let evmRoot := c.evmExecutor.map fun x => N.rootHash x.db.stateRoot
  return { c with app := ← AppState.finishBlock ord { c.app with evmRoot } }

/-- `finalize_block`. A block at the height the node is at is skipped. -/
def finalizeBlock (height : BlockHeight) (timestamp : Timestamp) (txs : List (Bytes × Nat))
    (ord : HashOrder) : Exec (List TxOutcome × CometBftApp) :=
  if c.app.height = height then return ([], c)
  else do
    let c := { c with app := c.app.beginBlock height timestamp }
    let (outcomes, c) ← c.deliverTxs N timestamp txs
    return (outcomes, ← c.endBlock N ord)

end CometBftApp

end Hypercore
