import Hypercore.Contracts.Solidity
/-!
# Hypercore.Contracts.ValidatorRegistry

The on-chain registry of validators.

A slot of `validators` that was never written, or was deleted, reads as `Validator.empty`.
`processEpoch` looks an update's validator up by the hash of the public key, in
`pubKeyToOperator`.
-/

namespace Hypercore.Contracts

open Solidity Std

/-- One validator. -/
structure Validator where
  /-- Zero where nobody is registered. -/
  operator : AccountAddress
  pubKey : List UInt8
  stake : Nat
  votingPower : Nat
  active : Bool
  activeSince : Nat
  /-- Zero while not unbonding. -/
  unbondingStart : Nat
  moniker : String
  deriving DecidableEq, Repr

/-- A slot that is not written. -/
def Validator.empty : Validator where
  operator := 0
  pubKey := []
  stake := 0
  votingPower := 0
  active := false
  activeSince := 0
  unbondingStart := 0
  moniker := ""

/-- A change of the validator set; power 0 removes. -/
structure ValidatorUpdate where
  pubKey : List UInt8
  power : Int
  deriving DecidableEq, Repr

/-- The storage of the registry. -/
structure ValidatorRegistry (Digest : Type) where
  minStake : Nat
  maxEffectiveStake : Nat
  maxValidators : Nat
  unbondingPeriod : Nat
  currentEpoch : Nat
  lastEpochBlock : Nat
  epochLength : Nat
  totalStaked : Nat
  validators : FinMap AccountAddress Validator
  pubKeyToOperator : Digest → AccountAddress
  validatorList : List AccountAddress
  activeValidatorCount : Nat
  pendingUpdates : List ValidatorUpdate
  admin : AccountAddress
  initialized : Bool
  permissionedMode : Bool
  approvedValidators : AccountAddress → Bool

namespace ValidatorRegistry

variable {Digest : Type} [DecidableEq Digest] (keccak256 : List UInt8 → Digest)

/-- The constructor. -/
def deployed (deployer : AccountAddress) : ValidatorRegistry Digest where
  minStake := 0
  maxEffectiveStake := 0
  maxValidators := 0
  unbondingPeriod := 0
  currentEpoch := 0
  lastEpochBlock := 0
  epochLength := 0
  totalStaked := 0
  validators := ∅
  pubKeyToOperator _ := 0
  validatorList := []
  activeValidatorCount := 0
  pendingUpdates := []
  admin := deployer
  initialized := false
  permissionedMode := false
  approvedValidators _ := false

variable (r : ValidatorRegistry Digest)

/-- `validators[a]`. -/
def validator (a : AccountAddress) : Validator := r.validators[a]?.getD .empty

/-- `validators[a] = v`. -/
def setValidator (a : AccountAddress) (v : Validator) : ValidatorRegistry Digest :=
  { r with validators := r.validators.insert a v }

/-- `pendingUpdates.push(ValidatorUpdate(pubKey, power))`. -/
def pushUpdate (pubKey : List UInt8) (power : Int) : ValidatorRegistry Digest :=
  { r with pendingUpdates := r.pendingUpdates ++ [⟨pubKey, power⟩] }

/-! ### Internal functions -/

def computeVotingPower (stake : Nat) : Nat :=
  if stake > r.maxEffectiveStake then r.maxEffectiveStake else stake

def registerValidator (operator : AccountAddress) (pubKey : List UInt8) (stake : Nat)
    (moniker : String) : Solidity (ValidatorRegistry Digest) := do
  let totalStaked ← add r.totalStaked stake
  return { r with
    validators := r.validators.insert operator {
      operator := operator
      pubKey := pubKey
      stake := stake
      votingPower := r.computeVotingPower stake
      active := false
      activeSince := 0
      unbondingStart := 0
      moniker := moniker }
    pubKeyToOperator := Function.update r.pubKeyToOperator (keccak256 pubKey) operator
    validatorList := r.validatorList ++ [operator]
    totalStaked := totalStaked }

/-! ### Admin functions -/

section Admin

variable {callee : AccountAddress} (msg : Msg callee)

/-- The modifier `onlyAdmin`. -/
def onlyAdmin : Solidity Unit := require (msg.sender = r.admin) "Not admin"

/-- The modifier `onlyInitialized`. -/
def onlyInitialized : Solidity Unit := require (r.initialized = true) "Not initialized"

def initializeRegistry
    (minStake maxEffectiveStake maxValidators unbondingPeriod epochLength : Nat) :
    Solidity (ValidatorRegistry Digest) := do
  r.onlyAdmin msg
  require (r.initialized = false) "Already initialized"
  return { r with
    minStake := minStake
    maxEffectiveStake := maxEffectiveStake
    maxValidators := maxValidators
    unbondingPeriod := unbondingPeriod
    epochLength := epochLength
    lastEpochBlock := msg.block
    currentEpoch := 1
    permissionedMode := true
    initialized := true }

/-- `approveValidator` and `revokeValidator`. -/
def setApproval (operator : AccountAddress) (approved : Bool) :
    Solidity (ValidatorRegistry Digest) := do
  r.onlyAdmin msg
  return { r with approvedValidators := Function.update r.approvedValidators operator approved }

def setPermissionedMode (permissioned : Bool) : Solidity (ValidatorRegistry Digest) := do
  r.onlyAdmin msg
  return { r with permissionedMode := permissioned }

/-- A validator of the genesis. -/
structure Genesis where
  operator : AccountAddress
  pubKey : List UInt8
  stake : Nat
  moniker : String

/-- One pass of the loop of `addGenesisValidators`. -/
def addGenesisValidator (block : Nat) (r : ValidatorRegistry Digest) (g : Genesis) :
    Solidity (ValidatorRegistry Digest) := do
  let r ← r.registerValidator keccak256 g.operator g.pubKey g.stake g.moniker
  let activeValidatorCount ← add r.activeValidatorCount 1
  return { r.setValidator g.operator
      { r.validator g.operator with
        active := true
        activeSince := block } with
    activeValidatorCount := activeValidatorCount }

/-- The entries of parallel arrays. -/
def genesisEntries (operators : List AccountAddress) (pubKeys : List (List UInt8))
    (stakes : List Nat) (monikers : List String) : List Genesis :=
  (operators.zip (pubKeys.zip (stakes.zip monikers))).map fun e =>
    ⟨e.1, e.2.1, e.2.2.1, e.2.2.2⟩

def addGenesisValidators (operators : List AccountAddress) (pubKeys : List (List UInt8))
    (stakes : List Nat) (monikers : List String) : Solidity (ValidatorRegistry Digest) := do
  r.onlyAdmin msg
  require (operators.length = pubKeys.length) "Length mismatch"
  require (operators.length = stakes.length) "Length mismatch"
  require (operators.length = monikers.length) "Length mismatch"
  (genesisEntries operators pubKeys stakes monikers).foldlM
    (addGenesisValidator keccak256 msg.block) r

def updateParams (minStake maxEffectiveStake maxValidators unbondingPeriod : Nat) :
    Solidity (ValidatorRegistry Digest) := do
  r.onlyAdmin msg
  return { r with
    minStake := minStake
    maxEffectiveStake := maxEffectiveStake
    maxValidators := maxValidators
    unbondingPeriod := unbondingPeriod }

def renounceAdmin : Solidity (ValidatorRegistry Digest) := do
  r.onlyAdmin msg
  return { r with admin := 0 }

/-! ### Slashing -/

def slash (operator : AccountAddress) (amount : Nat) : Solidity (ValidatorRegistry Digest) := do
  r.onlyAdmin msg
  let v := r.validator operator
  require (v.operator ≠ 0) "Not registered"
  let slashAmount := if amount > v.stake then v.stake else amount
  let stake ← sub v.stake slashAmount
  let totalStaked ← sub r.totalStaked slashAmount
  let v := { v with
    stake := stake
    votingPower := r.computeVotingPower stake }
  let r := { r with totalStaked := totalStaked }
  if v.stake < r.minStake ∧ v.unbondingStart = 0 then
    return (r.setValidator operator { v with unbondingStart := msg.block }).pushUpdate v.pubKey 0
  return r.setValidator operator v

/-! ### Epochs -/

/-- One pass of the loop of `processEpoch`. -/
def applyUpdate (block : Nat) (r : ValidatorRegistry Digest) (update : ValidatorUpdate) :
    Solidity (ValidatorRegistry Digest) :=
  let operator := r.pubKeyToOperator (keccak256 update.pubKey)
  if operator = 0 then return r
  else
    let v := r.validator operator
    if update.power > 0 then
      if v.active = true then return r
      else do
        let activeValidatorCount ← add r.activeValidatorCount 1
        return { r.setValidator operator { v with active := true, activeSince := block } with
          activeValidatorCount := activeValidatorCount }
    else if v.active = true then do
      let activeValidatorCount ← sub r.activeValidatorCount 1
      return { r.setValidator operator { v with active := false } with
        activeValidatorCount := activeValidatorCount }
    else return r

def processEpoch : Solidity (List ValidatorUpdate × ValidatorRegistry Digest) := do
  r.onlyInitialized
  let due ← add r.lastEpochBlock r.epochLength
  require (msg.block ≥ due) "Epoch not complete"
  let updates := r.pendingUpdates
  let r ← updates.foldlM (applyUpdate keccak256 msg.block) r
  let currentEpoch ← add r.currentEpoch 1
  return (updates, { r with
    pendingUpdates := []
    currentEpoch := currentEpoch
    lastEpochBlock := msg.block })

end Admin

/-! ### Views -/

/-- The loop of `getActiveValidators`: it stops when `room` slots are filled. -/
def fillActive : List AccountAddress → Nat → List Validator
  | [], _ => []
  | _ :: _, 0 => []
  | a :: list, room + 1 =>
    if (r.validator a).active = true then r.validator a :: fillActive list room
    else fillActive list (room + 1)

/-- The arrays of operators, public keys and powers. They have as many slots as there are
active validators, and slots that are not filled hold zeros. -/
def getActiveValidators : List AccountAddress × List (List UInt8) × List Nat :=
  let filled := r.fillActive r.validatorList r.activeValidatorCount
  let padding := List.replicate (r.activeValidatorCount - filled.length) Validator.empty
  ((filled ++ padding).map (·.operator), (filled ++ padding).map (·.pubKey),
    (filled ++ padding).map (·.votingPower))

end ValidatorRegistry

/-! ### Calls that move tokens -/

/-- The registry and its staking token. -/
structure Staking (T : Erc20) (Digest : Type) where
  registry : ValidatorRegistry Digest
  token : T.State

namespace Staking

variable {T : Erc20} {Digest : Type} [DecidableEq Digest] (keccak256 : List UInt8 → Digest)
  {callee : AccountAddress} (s : Staking T Digest) (msg : Msg callee)

def register (pubKey : List UInt8) (moniker : String) : Solidity (Staking T Digest) := do
  let r := s.registry
  r.onlyInitialized
  require (pubKey.length = 32) "Invalid pubKey length"
  require ((r.validator msg.sender).operator = 0) "Already registered"
  require (r.pubKeyToOperator (keccak256 pubKey) = 0) "PubKey already used"
  require (r.permissionedMode = true → r.approvedValidators msg.sender = true)
    "Not approved in permissioned mode"
  let stake := r.minStake
  let (paid, token) ← T.transferFrom callee msg.sender callee stake s.token
  require (paid = true) "Transfer failed"
  let r ← r.registerValidator keccak256 msg.sender pubKey stake moniker
  return ⟨r.pushUpdate pubKey (int64 (r.computeVotingPower stake)), token⟩

def increaseStake (amount : Nat) : Solidity (Staking T Digest) := do
  let r := s.registry
  r.onlyInitialized
  let v := r.validator msg.sender
  require (v.operator ≠ 0) "Not registered"
  require (v.unbondingStart = 0) "Unbonding"
  let (paid, token) ← T.transferFrom callee msg.sender callee amount s.token
  require (paid = true) "Transfer failed"
  let stake ← add v.stake amount
  let totalStaked ← add r.totalStaked amount
  let v := { v with stake := stake }
  let r := { r with totalStaked := totalStaked }
  let newPower := r.computeVotingPower v.stake
  if newPower ≠ v.votingPower then
    return ⟨(r.setValidator msg.sender { v with votingPower := newPower }).pushUpdate v.pubKey
      (int64 newPower), token⟩
  return ⟨r.setValidator msg.sender v, token⟩

def startUnbonding : Solidity (Staking T Digest) := do
  let r := s.registry
  r.onlyInitialized
  let v := r.validator msg.sender
  require (v.operator ≠ 0) "Not registered"
  require (v.unbondingStart = 0) "Already unbonding"
  return ⟨(r.setValidator msg.sender { v with unbondingStart := msg.block }).pushUpdate v.pubKey 0,
    s.token⟩

/-- The number of active validators when an operator leaves. -/
def countWithout (r : ValidatorRegistry Digest) (operator : AccountAddress) : Solidity Nat :=
  if (r.validator operator).active = true then sub r.activeValidatorCount 1
  else .ok r.activeValidatorCount

def completeUnbonding : Solidity (Staking T Digest) := do
  let r := s.registry
  r.onlyInitialized
  let v := r.validator msg.sender
  require (v.operator ≠ 0) "Not registered"
  require (v.unbondingStart ≠ 0) "Not unbonding"
  let due ← add v.unbondingStart r.unbondingPeriod
  require (msg.block ≥ due) "Unbonding period not complete"
  let stake := v.stake
  let totalStaked ← sub r.totalStaked stake
  let r := { r with
    totalStaked := totalStaked
    pubKeyToOperator := Function.update r.pubKeyToOperator (keccak256 v.pubKey) 0
    validators := r.validators.erase msg.sender }
  -- `v` refers to the slot in storage, which is deleted by now
  let activeValidatorCount ← countWithout r msg.sender
  let (paid, token) ← T.transfer callee msg.sender stake s.token
  require (paid = true) "Transfer failed"
  return ⟨{ r with activeValidatorCount := activeValidatorCount }, token⟩

/-- The calls of the registry that write. -/
inductive Call
  | initializeRegistry (minStake maxEffectiveStake maxValidators unbondingPeriod epochLength : Nat)
  | approveValidator (operator : AccountAddress)
  | revokeValidator (operator : AccountAddress)
  | setPermissionedMode (permissioned : Bool)
  | addGenesisValidators (operators : List AccountAddress) (pubKeys : List (List UInt8))
      (stakes : List Nat) (monikers : List String)
  | updateParams (minStake maxEffectiveStake maxValidators unbondingPeriod : Nat)
  | renounceAdmin
  | register (pubKey : List UInt8) (moniker : String)
  | increaseStake (amount : Nat)
  | startUnbonding
  | completeUnbonding
  | processEpoch
  | slash (operator : AccountAddress) (amount : Nat)

/-- A call that returns nothing and leaves the token alone. -/
def onRegistry (r : Solidity (ValidatorRegistry Digest)) :
    Solidity (List ValidatorUpdate × Staking T Digest) := do
  return ([], ⟨← r, s.token⟩)

/-- A call that returns nothing. -/
def silent (s : Solidity (Staking T Digest)) :
    Solidity (List ValidatorUpdate × Staking T Digest) := do
  return ([], ← s)

/-- Make a call: what it returns, and the state it leaves. -/
def call : Call → Solidity (List ValidatorUpdate × Staking T Digest)
  | .initializeRegistry minStake maxEffectiveStake maxValidators unbondingPeriod epochLength =>
    s.onRegistry (s.registry.initializeRegistry msg minStake maxEffectiveStake maxValidators
      unbondingPeriod epochLength)
  | .approveValidator operator => s.onRegistry (s.registry.setApproval msg operator true)
  | .revokeValidator operator => s.onRegistry (s.registry.setApproval msg operator false)
  | .setPermissionedMode permissioned =>
    s.onRegistry (s.registry.setPermissionedMode msg permissioned)
  | .addGenesisValidators operators pubKeys stakes monikers =>
    s.onRegistry (s.registry.addGenesisValidators keccak256 msg operators pubKeys stakes monikers)
  | .updateParams minStake maxEffectiveStake maxValidators unbondingPeriod =>
    s.onRegistry (s.registry.updateParams msg minStake maxEffectiveStake maxValidators
      unbondingPeriod)
  | .renounceAdmin => s.onRegistry (s.registry.renounceAdmin msg)
  | .register pubKey moniker => silent (s.register keccak256 msg pubKey moniker)
  | .increaseStake amount => silent (s.increaseStake msg amount)
  | .startUnbonding => silent (s.startUnbonding msg)
  | .completeUnbonding => silent (s.completeUnbonding keccak256 msg)
  | .processEpoch => do
    let (updates, registry) ← s.registry.processEpoch keccak256 msg
    return (updates, ⟨registry, s.token⟩)
  | .slash operator amount => s.onRegistry (s.registry.slash msg operator amount)

/-- A transaction: a call of the registry, or a call of its token by anybody else. -/
inductive Tx (T : Erc20) (callee : AccountAddress)
  | registry (msg : Msg callee) (call : Call)
  | token (sender : AccountAddress) (sender_ne_self : sender ≠ callee) (call : T.Call)

/-- Execute a transaction. -/
def execute : Tx T callee → Solidity (List ValidatorUpdate × Staking T Digest)
  | .registry msg c => s.call keccak256 msg c
  | .token sender _ c => do return ([], { s with token := ← T.call sender c s.token })

/-- A transaction as a step: one that reverts changes nothing, and is no step. -/
def step (tx : Tx T callee) (s : Staking T Digest) : Exec (Staking T Digest) :=
  (do return (← s.execute keccak256 tx).2 : Solidity (Staking T Digest)).toExec

end Staking

end Hypercore.Contracts
