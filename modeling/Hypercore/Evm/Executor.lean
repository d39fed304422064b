import Hypercore.Evm.Db
/-!
# Hypercore.Evm.Executor

The EVM executor: fee pre-check, direct calls of the exchange's precompiles, the
interpreter, the commit of its changes and the fee distribution.

The interpreter (`Interpreter`) is a parameter. It is called without its own
validation (`transact_preverified`); what the results rely on is stated where they
are proved. Precompiles read exchange state, and are a parameter too.
-/

namespace Hypercore

open Exec Int128

/-- EVM transaction. -/
structure EvmTransaction where
  /-- `from`. -/
  sender : Address
  /-- `to`; without it a contract is created. -/
  target : Option Address
  value : U256
  data : Bytes
  gasLimit : UInt64
  gasPrice : UInt64
  nonce : UInt64
  deriving DecidableEq

/-- EVM log. -/
structure EvmLog where
  address : Address
  topics : List B256
  data : Bytes
  deriving DecidableEq, Repr

/-- Execution result. -/
structure EvmExecutionResult where
  success : Bool
  gasUsed : UInt64
  output : Bytes
  logs : List EvmLog
  contractAddress : Option Address
  deriving DecidableEq

/-- EVM executor error. -/
inductive EvmExecutorError
  | reverted (message : String)
  | outOfGas
  | insufficientGasBalance (required available : U256)
  | invalidTransaction (message : String)
  | internal (message : String)
  deriving DecidableEq

/-- Receives gas fees. -/
def feeCollectorAddress : Address := 0xFEE1

/-! ### Precompiles -/

/-- Precompile addresses. -/
inductive PrecompileAddress
  | position | account | market | order | funding | orderBook
  | spotBalance | spotMarket | spotOrderBook
  deriving DecidableEq, Repr

namespace PrecompileAddress

def fromAddress (a : Address) : Option PrecompileAddress :=
  match a.val with
  | 0x0800 => some position
  | 0x0801 => some account
  | 0x0802 => some market
  | 0x0803 => some order
  | 0x0804 => some funding
  | 0x0805 => some orderBook
  | 0x0806 => some spotBalance
  | 0x0807 => some spotMarket
  | 0x0808 => some spotOrderBook
  | _ => none

def gasCost : PrecompileAddress → UInt64
  | position => 100
  | account => 150
  | market => 100
  | order => 100
  | funding => 50
  | orderBook => 500
  | spotBalance => 100
  | spotMarket => 100
  | spotOrderBook => 500

end PrecompileAddress

/-- What the precompiles answer, or the text of their error. -/
abbrev Precompiles := PrecompileAddress → Bytes → Except String Bytes

/-- `HyperCorePrecompiles::execute`: gas and output. -/
def Precompiles.execute (P : Precompiles) (p : PrecompileAddress) (input : Bytes)
    (gasLimit : UInt64) : Except String (UInt64 × Bytes) :=
  if gasLimit < p.gasCost then .error "Error(OutOfGas)"
  else do return (p.gasCost, ← P p input)

/-! ### The interpreter -/

/-- Block environment. -/
structure BlockEnv where
  number : Nat
  timestamp : Nat
  gasLimit : Nat
  coinbase : Address
  basefee : Nat
  deriving DecidableEq

/-- Transaction environment. -/
structure TxEnv where
  caller : Address
  gasLimit : UInt64
  gasPrice : UInt64
  /-- `none` creates a contract. -/
  transactTo : Option Address
  value : U256
  data : Bytes
  nonce : UInt64
  chainId : Nat
  deriving DecidableEq

/-- Execution environment. -/
structure Env where
  chainId : Nat
  block : BlockEnv
  tx : TxEnv
  deriving DecidableEq

/-- Output of a call, or of a contract creation. -/
inductive Output
  | call (data : Bytes)
  | create (data : Bytes) (address : Option Address)
  deriving DecidableEq

/-- How an execution ended. -/
inductive ExecutionResult
  | success (gasUsed : UInt64) (output : Output) (logs : List EvmLog)
  | revert (gasUsed : UInt64) (output : Bytes)
  | halt (gasUsed : UInt64) (reason : String)
  deriving DecidableEq

namespace ExecutionResult

def gasUsed : ExecutionResult → UInt64
  | success g _ _ => g
  | revert g _ => g
  | halt g _ => g

/-- What `execute_tx` answers. A halt is answered with an error. -/
def answer : ExecutionResult → Except EvmExecutorError EvmExecutionResult
  | success g (.call data) logs => .ok ⟨true, g, data, logs, none⟩
  | success g (.create data address) logs => .ok ⟨true, g, data, logs, address⟩
  | revert g output => .ok ⟨false, g, output, [], none⟩
  | halt _ reason => .error (.internal ("Execution halted: " ++ reason))

end ExecutionResult

/-- The interpreter: reads the database, and gives a result and the changes to commit. -/
structure Interpreter where
  transactPreverified : EvmState → Env → Except String (ExecutionResult × Changes)

/-! ### The executor -/

/-- EVM executor. -/
structure EvmExecutor where
  db : EvmState
  chainId : Nat
  blockGasLimit : Nat
  blockNumber : Nat
  blockTimestamp : Nat
  enforceGasFees : Bool

namespace EvmExecutor

/-- An executor on a balance sheet, constructed at a clock reading. -/
def withUnifiedState (unifiedState : UnifiedState) (chainId now : Nat) : EvmExecutor where
  db := .withUnifiedState unifiedState
  chainId := chainId
  blockGasLimit := 30000000
  blockNumber := 1
  blockTimestamp := now
  enforceGasFees := false

variable (x : EvmExecutor)

/-- Block environment of the current block. -/
def blockEnv : BlockEnv where
  number := x.blockNumber
  timestamp := x.blockTimestamp
  gasLimit := x.blockGasLimit
  coinbase := feeCollectorAddress
  basefee := 1000000000

/-- Environment of a transaction. -/
def env (tx : EvmTransaction) : Env where
  chainId := x.chainId
  block := x.blockEnv
  tx :=
    { caller := tx.sender, gasLimit := tx.gasLimit, gasPrice := tx.gasPrice,
      transactTo := tx.target, value := tx.value, data := tx.data, nonce := tx.nonce,
      chainId := x.chainId }

/-- Gas at a price. -/
def gasCost (gas price : UInt64) : U256 := Fin.ofNat (2 ^ 256) (gas.toNat * price.toNat)

/-- What the pre-check requires; the sum wraps. -/
def totalRequired (tx : EvmTransaction) : U256 := gasCost tx.gasLimit tx.gasPrice + tx.value

/-- The fee pre-check: the error it gives, if any. -/
def preflight (tx : EvmTransaction) (charged : Bool) : Exec (Option EvmExecutorError) :=
  if charged then do
    let senderBalance ← x.db.getBalance tx.sender
    if senderBalance < totalRequired tx then
      return some (.insufficientGasBalance (totalRequired tx) senderBalance)
    else return none
  else return none

/-- `apply_gas_fee`: move the fee from the sender to the fee collector. -/
def applyGasFee (sender : Address) (gasUsed gasPrice : UInt64) : Exec EvmExecutor :=
  let gasFee := gasCost gasUsed gasPrice
  if gasFee = 0 then return x
  else do
    let (debitSuccess, db) ← x.db.subBalance sender gasFee
    if debitSuccess then
      return { x with db := ← db.addBalance feeCollectorAddress gasFee }
    else return { x with db }

/-- `execute_precompile`. -/
def executePrecompile (P : Precompiles) (tx : EvmTransaction) (p : PrecompileAddress) :
    Except EvmExecutorError EvmExecutionResult :=
  match P.execute p tx.data tx.gasLimit with
  | .ok (gasUsed, output) => .ok ⟨true, gasUsed, output, [], none⟩
  | .error e => .error (.reverted ("Precompile error: " ++ e))

/-- Without enforced fees, a sender without an account is given a balance. -/
def fundSender (tx : EvmTransaction) (commitState : Bool) : Exec EvmExecutor :=
  if commitState ∧ x.db.accounts[tx.sender]? = none ∧ ¬ x.enforceGasFees then do
    return { x with db := ← x.db.setBalance tx.sender (Fin.ofNat (2 ^ 256) (10 ^ 20)) }
  else return x

/-- Commit the changes of an execution, unless it is a simulation. -/
def commitChanges (K : Keccak256) (changes : Changes) (commitState : Bool) : Exec EvmExecutor :=
  if commitState then do return { x with db := ← x.db.commit K changes } else return x

/-- Distribute the fee, if fees are charged. -/
def settleFee (sender : Address) (gasUsed gasPrice : UInt64) (charged : Bool) :
    Exec EvmExecutor :=
  if charged then x.applyGasFee sender gasUsed gasPrice else return x

/-- The part of `execute_tx_inner` after the pre-check. -/
def executeChecked (K : Keccak256) (R : Interpreter) (P : Precompiles) (tx : EvmTransaction)
    (commitState : Bool) :
    Exec (Except EvmExecutorError EvmExecutionResult × EvmExecutor) :=
  match tx.target.bind PrecompileAddress.fromAddress with
  | some p =>
    match executePrecompile P tx p with
    | .error e => return (.error e, x)
    | .ok result => do
      let x ← x.settleFee tx.sender result.gasUsed tx.gasPrice (x.enforceGasFees && commitState)
      return (.ok result, x)
  | none => do
    let x ← x.fundSender tx commitState
    match R.transactPreverified x.db (x.env tx) with
    | .error e => return (.error (.internal ("EVM error: " ++ e)), x)
    | .ok (result, changes) =>
      let x ← x.commitChanges K changes commitState
      let x ← x.settleFee tx.sender result.gasUsed tx.gasPrice (x.enforceGasFees && commitState)
      return (result.answer, x)

/-- `execute_tx_inner`. -/
def executeTxInner (K : Keccak256) (R : Interpreter) (P : Precompiles) (tx : EvmTransaction)
    (commitState : Bool) :
    Exec (Except EvmExecutorError EvmExecutionResult × EvmExecutor) := do
  match ← x.preflight tx (x.enforceGasFees && commitState) with
  | some e => return (.error e, x)
  | none => x.executeChecked K R P tx commitState

/-- `execute_tx`. -/
def executeTx (K : Keccak256) (R : Interpreter) (P : Precompiles) (tx : EvmTransaction) :
    Exec (Except EvmExecutorError EvmExecutionResult × EvmExecutor) :=
  x.executeTxInner K R P tx true

/-- `commit`: the next block number, and the clock's reading as its timestamp. -/
def commit (now : Nat) : Exec EvmExecutor := do
  return { x with blockNumber := ← u64 (x.blockNumber + 1), blockTimestamp := now }

/-! ### What a call does -/

section Spec

variable {x x' : EvmExecutor} {K : Keccak256} {R : Interpreter} {P : Precompiles}
  {tx : EvmTransaction} {r : Except EvmExecutorError EvmExecutionResult}

/-- The pre-check lets a transaction through. -/
def Passes (x : EvmExecutor) (tx : EvmTransaction) : Prop :=
  x.preflight tx (x.enforceGasFees && true) = .ok none

/-- **Inversion of `execute_tx`.** The pre-check refuses it; or a precompile answers it,
with an error or for its gas; or the interpreter, with an error or with changes that are
committed before the fee is distributed. -/
theorem executeTx_cases (h : x.executeTx K R P tx = .ok (r, x')) :
    (∃ e, x.preflight tx (x.enforceGasFees && true) = .ok (some e) ∧ r = .error e ∧ x' = x) ∨
    x.Passes tx ∧
    ((∃ p e, tx.target.bind PrecompileAddress.fromAddress = some p ∧
        executePrecompile P tx p = .error e ∧ r = .error e ∧ x' = x) ∨
      (∃ p result, tx.target.bind PrecompileAddress.fromAddress = some p ∧
        executePrecompile P tx p = .ok result ∧ r = .ok result ∧
        x.settleFee tx.sender result.gasUsed tx.gasPrice x.enforceGasFees = .ok x') ∨
      tx.target.bind PrecompileAddress.fromAddress = none ∧
      ∃ x₁, x.fundSender tx true = .ok x₁ ∧
        ((∃ e, R.transactPreverified x₁.db (x₁.env tx) = .error e ∧
            r = .error (.internal ("EVM error: " ++ e)) ∧ x' = x₁) ∨
          ∃ result changes x₂, R.transactPreverified x₁.db (x₁.env tx) = .ok (result, changes) ∧
            x₁.commitChanges K changes true = .ok x₂ ∧ r = result.answer ∧
            x₂.settleFee tx.sender result.gasUsed tx.gasPrice x₂.enforceGasFees = .ok x')) := by
  unfold executeTx executeTxInner at h
  obtain ⟨check, hcheck, h⟩ := bind_inv h
  cases check with
  | some e =>
    obtain ⟨rfl, rfl⟩ := pair_inv h
    exact .inl ⟨e, hcheck, rfl, rfl⟩
  | none =>
    refine .inr ⟨hcheck, ?_⟩
    unfold executeChecked at h
    simp only [Bool.and_true] at h
    cases hp : tx.target.bind PrecompileAddress.fromAddress with
    | some p =>
      rw [hp] at h
      dsimp only at h
      cases hr : executePrecompile P tx p with
      | error e =>
        rw [hr] at h
        obtain ⟨rfl, rfl⟩ := pair_inv h
        exact .inl ⟨p, e, rfl, hr, rfl, rfl⟩
      | ok result =>
        rw [hr] at h
        obtain ⟨x₁, hfee, h⟩ := bind_inv h
        obtain ⟨rfl, rfl⟩ := pair_inv h
        exact .inr (.inl ⟨p, result, rfl, hr, rfl, hfee⟩)
    | none =>
      rw [hp] at h
      obtain ⟨x₁, hfund, h⟩ := bind_inv h
      refine .inr (.inr ⟨rfl, x₁, hfund, ?_⟩)
      cases hr : R.transactPreverified x₁.db (x₁.env tx) with
      | error e =>
        rw [hr] at h
        obtain ⟨rfl, rfl⟩ := pair_inv h
        exact .inl ⟨e, rfl, rfl, rfl⟩
      | ok out =>
        obtain ⟨result, changes⟩ := out
        rw [hr] at h
        obtain ⟨x₂, hcommit, h⟩ := bind_inv h
        obtain ⟨x₃, hfee, h⟩ := bind_inv h
        obtain ⟨rfl, rfl⟩ := pair_inv h
        exact .inr ⟨result, changes, x₂, rfl, hcommit, rfl, hfee⟩

theorem fundSender_enforced (h : x.enforceGasFees = true) (commitState : Bool) :
    x.fundSender tx commitState = .ok x := by
  unfold fundSender
  rw [h]
  simp

end Spec

end EvmExecutor

end Hypercore
