import Hypercore.Evm.Executor
/-!
# Hypercore.Evm.Restart

The EVM executor over a restart of its node.

The database is persisted as lists of accounts, slots, codes and block hashes, in
whatever order the hash maps yield them, and put back by insertion. The block number
and the block timestamp are not persisted: the constructor starts them anew, from one
and from the clock.
-/

namespace Hypercore

open Exec Int128

/-- The EVM part of the persisted state. -/
structure PersistedEvm where
  accounts : List (Address × EvmAccount)
  storage : List (Address × U256 × U256)
  code : List (B256 × Bytes)
  blockHashes : List (Nat × B256)

namespace EvmState

/-- The EVM state extracted for persistence. -/
def persisted (ord : HashOrder) (s : EvmState) : PersistedEvm where
  accounts := ord.visit s.accounts.toList
  storage := ord.entries s.storage
  code := ord.visit s.code.toList
  blockHashes := ord.visit s.blockHashes.toList

/-- Put persisted EVM state back. Without accounts, slots and codes it counts as empty. -/
def restore (s : EvmState) (p : PersistedEvm) : EvmState :=
  if p.accounts ≠ [] ∨ p.storage ≠ [] ∨ p.code ≠ [] then
    { s with
      accounts := FinMap.insertAll s.accounts p.accounts
      code := FinMap.insertAll s.code p.code
      storage := FinMap.insertAllIn s.storage p.storage
      blockHashes := FinMap.insertAll s.blockHashes p.blockHashes }
  else s

/-- A database as the program leaves it: no account has an empty slot map, and no block hash
is known, since nothing writes them. -/
structure Tidy (s : EvmState) : Prop where
  slots : ∀ (a : Address) (row : FinMap U256 U256), s.storage[a]? = some row →
    ∃ (key : U256) (value : U256), row[key]? = some value
  blockHashes : s.blockHashes = ∅

variable {K : Keccak256} {s s' : EvmState} {a : Address}

theorem tidy_withUnifiedState (u : UnifiedState) : (withUnifiedState u).Tidy where
  slots a row h := by simp [withUnifiedState] at h
  blockHashes := rfl

theorem Tidy.setUnified (h : s.Tidy) (u : UnifiedState) : (s.setUnified u).Tidy :=
  ⟨h.slots, h.blockHashes⟩

/-- What was persisted without block hashes is put back in good order. -/
theorem tidy_restore (u : UnifiedState) {p : PersistedEvm} (hp : p.blockHashes = []) :
    ((withUnifiedState u).restore p).Tidy := by
  unfold restore
  split
  · refine ⟨fun a row h => FinMap.insertAllIn_inhabited p.storage h, ?_⟩
    rw [hp]
    rfl
  · exact tidy_withUnifiedState u

/-- **Round trip.** In whatever order it is persisted, the database comes back. -/
theorem Tidy.restore_persisted (h : s.Tidy) (ord : HashOrder) (u : UnifiedState) :
    (withUnifiedState u).restore (s.persisted ord) = s.setUnified u := by
  have haccounts : FinMap.insertAll ∅ (ord.visit s.accounts.toList) = s.accounts :=
    HashOrder.insertAll_visit ord s.accounts
  have hcode : FinMap.insertAll ∅ (ord.visit s.code.toList) = s.code :=
    HashOrder.insertAll_visit ord s.code
  have hstorage : FinMap.insertAllIn ∅ (ord.entries s.storage) = s.storage :=
    HashOrder.insertAllIn_entries ord h.slots
  have hhashes : FinMap.insertAll ∅ (ord.visit s.blockHashes.toList) = s.blockHashes :=
    HashOrder.insertAll_visit ord s.blockHashes
  unfold restore persisted withUnifiedState EvmState.setUnified
  dsimp only
  split
  · rw [haccounts, hcode, hstorage, hhashes]
  · rename_i hempty
    simp only [not_or, not_not] at hempty
    obtain ⟨ha, hs, hc⟩ := hempty
    rw [ha] at haccounts
    rw [hs] at hstorage
    rw [hc] at hcode
    rw [h.blockHashes, ← haccounts, ← hstorage, ← hcode]
    rfl

/-! ### What keeps a database in order -/

theorem Tidy.setStorage (h : s.Tidy) (a : Address) (key value : U256) :
    (s.setStorage a key value).Tidy where
  slots b row hrow := by
    unfold EvmState.setStorage at hrow
    dsimp only at hrow
    rw [FinMap.get_insert] at hrow
    split at hrow
    · cases hrow
      exact ⟨key, value, FinMap.get_insert_self _ _ _⟩
    · exact h.slots b row hrow
  blockHashes := h.blockHashes

theorem Tidy.deleteAccount (h : s.Tidy) (a : Address) : (s.deleteAccount a).Tidy where
  slots b row hrow := by
    unfold EvmState.deleteAccount at hrow
    dsimp only at hrow
    rw [FinMap.get_erase] at hrow
    split at hrow
    · cases hrow
    · exact h.slots b row hrow
  blockHashes := h.blockHashes

theorem Tidy.setBalance {v : U256} (h : s.Tidy) (hs : s.setBalance a v = .ok s') : s'.Tidy := by
  obtain ⟨u, -, hs⟩ := bind_inv hs
  cases pure_inv hs
  exact ⟨h.slots, h.blockHashes⟩

theorem Tidy.commitCode (h : s.Tidy) (a : Address) (code : Option Bytes) :
    (s.commitCode K a code).Tidy := by
  unfold EvmState.commitCode
  split
  · split
    · exact ⟨h.slots, h.blockHashes⟩
    · exact h
  · exact h

theorem Tidy.commitAccount {p : Address × Account} (h : s.Tidy)
    (hs : EvmState.commitAccount K s p = .ok s') : s'.Tidy := by
  unfold EvmState.commitAccount at hs
  split at hs
  · cases pure_inv hs
    exact h.deleteAccount p.1
  · obtain ⟨t, ht, hs⟩ := bind_inv hs
    cases pure_inv hs
    have hnonce : (t.setNonce p.1 p.2.nonce).Tidy :=
      ⟨(h.setBalance ht).slots, (h.setBalance ht).blockHashes⟩
    have hcode := hnonce.commitCode (K := K) p.1 p.2.code
    exact List.foldlRecOn p.2.storage _ hcode fun t ht q _ => ht.setStorage p.1 q.1 q.2

theorem Tidy.commit {changes : Changes} (h : s.Tidy) (hs : s.commit K changes = .ok s') :
    s'.Tidy :=
  foldlM_induction (P := Tidy) hs h fun _ _ _ _ ht hc => ht.commitAccount hc

end EvmState

namespace EvmExecutor

/-- An executor as a node has it: at its block gas limit, without enforced fees, over a
database in order. -/
structure Ordinary (x : EvmExecutor) : Prop where
  db : x.db.Tidy
  blockGasLimit : x.blockGasLimit = 30000000
  enforceGasFees : x.enforceGasFees = false

/-- The executor that a node starts with, from what was persisted. -/
def started (u : UnifiedState) (p : PersistedEvm) (chainId now : Nat) : EvmExecutor :=
  let x := withUnifiedState u chainId now
  { x with db := x.db.restore p }

/-- The executor after a restart. -/
def restarted (x : EvmExecutor) (ord : HashOrder) (u : UnifiedState) (now : Nat) : EvmExecutor :=
  started u (x.db.persisted ord) x.chainId now

/-- The executor on a balance sheet, at a block number and a timestamp. -/
def onBlock (x : EvmExecutor) (u : UnifiedState) (number timestamp : Nat) : EvmExecutor :=
  { x with db := x.db.setUnified u, blockNumber := number, blockTimestamp := timestamp }

variable {x x' : EvmExecutor} {K : Keccak256} {R : Interpreter} {P : Precompiles}
  {tx : EvmTransaction} {r : Except EvmExecutorError EvmExecutionResult}

theorem ordinary_started (u : UnifiedState) {p : PersistedEvm} (hp : p.blockHashes = [])
    (chainId now : Nat) : (started u p chainId now).Ordinary :=
  ⟨EvmState.tidy_restore u hp, rfl, rfl⟩

/-- **Restart.** All that a restart changes is the block number and the timestamp. -/
theorem Ordinary.restarted_eq (h : x.Ordinary) (ord : HashOrder) (u : UnifiedState) (now : Nat) :
    x.restarted ord u now = x.onBlock u 1 now := by
  unfold restarted started EvmExecutor.onBlock withUnifiedState
  dsimp only
  rw [h.db.restore_persisted, h.blockGasLimit, h.enforceGasFees]

theorem Ordinary.onBlock (h : x.Ordinary) (u : UnifiedState) (number timestamp : Nat) :
    (x.onBlock u number timestamp).Ordinary :=
  ⟨h.db.setUnified u, h.blockGasLimit, h.enforceGasFees⟩

theorem Ordinary.executeTx (h : x.Ordinary) (hx : x.executeTx K R P tx = .ok (r, x')) :
    x'.Ordinary := by
  have hfund : ∀ {x₁}, x.fundSender tx true = .ok x₁ → x₁.Ordinary := by
    intro x₁ hf
    unfold fundSender at hf
    split at hf
    · obtain ⟨db, hdb, hf⟩ := bind_inv hf
      cases pure_inv hf
      exact ⟨h.db.setBalance hdb, h.blockGasLimit, h.enforceGasFees⟩
    · cases pure_inv hf
      exact h
  -- without enforced fees none is distributed
  have hfee : ∀ {x₁ x₂ : EvmExecutor} {gas : UInt64}, x₁.Ordinary →
      x₁.settleFee tx.sender gas tx.gasPrice x₁.enforceGasFees = .ok x₂ → x₂.Ordinary := by
    intro x₁ x₂ gas h₁ hs
    rw [h₁.enforceGasFees] at hs
    cases pure_inv hs
    exact h₁
  obtain ⟨e, -, rfl, rfl⟩ | ⟨-, ⟨p, e, -, -, rfl, rfl⟩ | ⟨p, result, -, -, -, hsettle⟩ |
      ⟨-, x₁, hf, ⟨e, -, rfl, rfl⟩ | ⟨result, changes, x₂, -, hc, -, hsettle⟩⟩⟩ :=
    executeTx_cases hx
  · exact h
  · exact h
  · exact hfee h hsettle
  · exact hfund hf
  · obtain ⟨db, hdb, hc⟩ := bind_inv hc
    cases pure_inv hc
    have h₁ := hfund hf
    have h₂ : { x₁ with db }.Ordinary :=
      ⟨h₁.db.commit hdb, h₁.blockGasLimit, h₁.enforceGasFees⟩
    exact hfee h₂ hsettle

end EvmExecutor

end Hypercore
