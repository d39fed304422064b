import Hypercore.Chain.Tx
import Hypercore.Lib.Index
import Hypercore.Lib.Run
import Hypercore.Primitives.Text
/-!
# Hypercore.Chain.Mempool

The transaction mempool.

The pool reads of an action only its JSON text, so the type `α` of actions stays open, and
`actionJson` stands for the serializer. Keccak-256 is any function to 32 bytes. A moment of
the monotonic clock is an integer.
-/

namespace Hypercore

open Exec

/-- A transaction as it is submitted. Its cached hash is left out: only `Transaction::hash`
fills it, with the hash it would compute again. -/
structure SignedTx (α : Type) where
  action : α
  /-- For replay protection. -/
  nonce : UInt64
  /-- The signer recovered from the signature, `none` when recovery fails. -/
  signer : Option AccountAddress
  deriving DecidableEq, Repr

/-- Unique transaction identifier. -/
abbrev TxHash := Bytes32

/-- Moments of the monotonic clock, and the spans between them. -/
abbrev Instant := Int

/-- What is hashed to a transaction's identifier: the action's text and the nonce. -/
def SignedTx.hashInput {α : Type} (actionJson : α → List UInt8) (tx : SignedTx α) : List UInt8 :=
  actionJson tx.action ++ leBytes 8 tx.nonce.toNat

/-- Compute a transaction's hash. Neither the signature nor the signer enters it. -/
def SignedTx.computeHash {α : Type} (keccak256 : List UInt8 → Bytes32)
    (actionJson : α → List UInt8) (tx : SignedTx α) : TxHash :=
  keccak256 (tx.hashInput actionJson)

/-- A `u64` addition whose exact value is `n`. -/
def Overflow.u64 : Overflow → Nat → Exec UInt64
  | trap, n => if n < 2 ^ 64 then return UInt64.ofNat n else .error .panic
  | wrap, n => return UInt64.ofNat n

/-- Mempool entry with metadata. -/
structure MempoolEntry (α : Type) where
  tx : SignedTx α
  sender : AccountAddress
  receivedAt : Instant
  deriving DecidableEq, Repr

/-- Mempool configuration. -/
structure MempoolConfig where
  maxTxsPerAccount : Nat := 100
  maxTotalTxs : Nat := 10000
  /-- In nanoseconds. -/
  expiryDuration : Nat := 300 * 10 ^ 9
  deriving DecidableEq, Repr

/-- Mempool errors. -/
inductive MempoolError
  | alreadyExists
  | knownInvalid
  | accountLimitReached
  | mempoolFull
  | nonceTooHigh (expected got : UInt64)
  | invalidTransaction (e : TransactionError)
  deriving DecidableEq, Repr

/-- Transaction mempool. -/
structure Mempool (α : Type) where
  /-- Transactions by hash. -/
  txs : FinMap TxHash (MempoolEntry α)
  /-- Transactions of each account, ordered by nonce. -/
  byAccount : FinMap AccountAddress (FinMap UInt64 TxHash)
  /-- Transactions ordered by arrival time, for eviction. -/
  byTime : FinMap Instant TxHash
  /-- Known invalid hashes. -/
  invalid : FinMap TxHash Unit
  config : MempoolConfig

namespace Mempool

variable {α : Type} (keccak256 : List UInt8 → Bytes32) (actionJson : α → List UInt8)

/-- Create a mempool. -/
def withConfig (config : MempoolConfig) : Mempool α := ⟨∅, ∅, ∅, ∅, config⟩

/-- The hash that the account index has for a sender's nonce. -/
def account (pool : Mempool α) (k : AccountAddress × UInt64) : Option TxHash :=
  (pool.byAccount[k.1]?).bind (·[k.2]?)

/-- Drop a nonce from the account index, and the account with its last one. -/
def dropNonce (byAccount : FinMap AccountAddress (FinMap UInt64 TxHash)) (sender : AccountAddress)
    (nonce : UInt64) : FinMap AccountAddress (FinMap UInt64 TxHash) :=
  match byAccount[sender]? with
  | none => byAccount
  | some accountTxs =>
    if (accountTxs.erase nonce).isEmpty then byAccount.erase sender
    else byAccount.insert sender (accountTxs.erase nonce)

/-- Remove a transaction by its hash. -/
def removeInternal (pool : Mempool α) (hash : TxHash) : Mempool α × Option (SignedTx α) :=
  match pool.txs[hash]? with
  | none => (pool, none)
  | some entry =>
    ({ pool with
        txs := pool.txs.erase hash
        byAccount := dropNonce pool.byAccount entry.sender entry.tx.nonce
        byTime := pool.byTime.filter fun _ h => h ≠ hash }, some entry.tx)

/-- Evict the oldest transactions until there is room for one more. Each turn takes an entry
out of `byTime`, so as many turns as it has entries are enough. -/
def evictWithin : Nat → Mempool α → Mempool α
  | 0, pool => pool
  | turns + 1, pool =>
    if pool.config.maxTotalTxs ≤ pool.txs.size then
      match pool.byTime.toList.head? with
      | none => pool
      | some (t, oldest) =>
        evictWithin turns ({ pool with byTime := pool.byTime.erase t }.removeInternal oldest).1
    else pool

def evict (pool : Mempool α) : Mempool α := evictWithin pool.byTime.size pool

/-- An account has as many transactions as it may have. -/
def accountFull (pool : Mempool α) (sender : AccountAddress) : Bool :=
  match pool.byAccount[sender]? with
  | some accountTxs => pool.config.maxTxsPerAccount ≤ accountTxs.size
  | none => false

/-- The checks before a transaction is stored, with the eviction that they include. -/
def screen (o : Overflow) (pool : Mempool α) (tx : SignedTx α) :
    Exec (Mempool α × Except MempoolError AccountAddress) :=
  let hash := tx.computeHash keccak256 actionJson
  if hash ∈ pool.txs then return (pool, .error .alreadyExists)
  else if hash ∈ pool.invalid then return (pool, .error .knownInvalid)
  else
    match tx.signer with
    | none => return (pool, .error (.invalidTransaction .signatureRecoveryFailed))
    | some sender =>
      if pool.accountFull sender then return (pool, .error .accountLimitReached)
      else
        let pool := pool.evict
        match (pool.byAccount[sender]?).bind (·.keys.getLast?) with
        | none => return (pool, .ok sender)
        | some maxNonce => do
          let expected ← o.u64 (maxNonce.toNat + 1)
          if tx.nonce > expected then
            return (pool, .error (.nonceTooHigh expected tx.nonce))
          else return (pool, .ok sender)

/-- Store a transaction. -/
def insert (pool : Mempool α) (tx : SignedTx α) (sender : AccountAddress) (now : Instant) :
    Mempool α :=
  let hash := tx.computeHash keccak256 actionJson
  { pool with
    byAccount := pool.byAccount.insert sender
      (((pool.byAccount[sender]?).getD ∅).insert tx.nonce hash)
    byTime := pool.byTime.insert now hash
    txs := pool.txs.insert hash ⟨tx, sender, now⟩ }

/-- Add a transaction to the mempool. -/
def add (o : Overflow) (pool : Mempool α) (tx : SignedTx α) (now : Instant) :
    Exec (Mempool α × Except MempoolError TxHash) := do
  match ← pool.screen keccak256 actionJson o tx with
  | (pool, .error e) => return (pool, .error e)
  | (pool, .ok sender) =>
    return (pool.insert keccak256 actionJson tx sender now,
      .ok (tx.computeHash keccak256 actionJson))

/-- Remove a transaction by its hash. -/
def remove (pool : Mempool α) (hash : TxHash) : Mempool α × Option (SignedTx α) :=
  pool.removeInternal hash

/-- Push transactions until the limit is reached, which is looked at after each push. -/
def collect (limit : Nat) : List (SignedTx α) → List (SignedTx α) → List (SignedTx α)
  | result, [] => result
  | result, tx :: rest =>
    if limit ≤ (result ++ [tx]).length then result ++ [tx]
    else collect limit (result ++ [tx]) rest

/-- The transactions that the account index leads to, accounts in hash order. -/
def accountTxs (ord : HashOrder) (pool : Mempool α) : List (SignedTx α) :=
  (ord.visit pool.byAccount.toList).flatMap fun p =>
    p.2.toList.filterMap fun q => (pool.txs[q.2]?).map (·.tx)

/-- Get transactions ready for inclusion. -/
def getPending (ord : HashOrder) (pool : Mempool α) (limit : Nat) : List (SignedTx α) :=
  collect limit [] (pool.accountTxs ord)

/-- Mark a transaction as invalid. -/
def markInvalid (pool : Mempool α) (hash : TxHash) : Mempool α :=
  let pool := (pool.remove hash).1
  { pool with invalid := pool.invalid.insert hash () }

/-- Remove each of a list of hashes. -/
def removeAll (pool : Mempool α) (hashes : List TxHash) : Mempool α :=
  hashes.foldl (fun pool hash => (pool.removeInternal hash).1) pool

/-- The hashes of transactions that arrived too long ago. -/
def expired (pool : Mempool α) (now : Instant) : List TxHash :=
  (pool.byTime.toList.takeWhile fun p => p.1 < now - pool.config.expiryDuration).map (·.2)

/-- Prune expired transactions. -/
def pruneExpired (pool : Mempool α) (now : Instant) : Mempool α × Nat :=
  (pool.removeAll (pool.expired now), (pool.expired now).length)

/-- Update after a block is committed. -/
def updateAfterCommit (pool : Mempool α) (includedHashes : List TxHash) : Mempool α :=
  pool.removeAll includedHashes

/-! ### The three structures describe one set -/

variable {keccak256} {actionJson} {o : Overflow} {pool pool' : Mempool α} {tx : SignedTx α}
  {hash : TxHash} {sender : AccountAddress} {now : Instant}

variable (keccak256) (actionJson) in
/-- `txs` keeps each transaction under its own hash, `byAccount` finds it by its sender and
nonce, `byTime` by the moment it arrived, and neither finds anything else. -/
structure Agrees (pool : Mempool α) : Prop where
  hashed : ∀ (h : TxHash) e, pool.txs[h]? = some e → e.tx.computeHash keccak256 actionJson = h
  signed : ∀ (h : TxHash) e, pool.txs[h]? = some e → e.tx.signer = some e.sender
  accounts : Indexes (fun e : MempoolEntry α => (e.sender, e.tx.nonce)) (fun h => pool.txs[h]?)
    pool.account
  times : Indexes (fun e : MempoolEntry α => e.receivedAt) (fun h => pool.txs[h]?)
    fun t => pool.byTime[t]?

variable (keccak256) (actionJson) in
/-- What every pool has: each transaction is under its own hash, and the account index leads
to stored transactions of the sender and nonce it lists. -/
structure Filed (pool : Mempool α) : Prop where
  hashed : ∀ (h : TxHash) e, pool.txs[h]? = some e → e.tx.computeHash keccak256 actionJson = h
  signed : ∀ (h : TxHash) e, pool.txs[h]? = some e → e.tx.signer = some e.sender
  led : ∀ k h, pool.account k = some h →
    ∃ e, pool.txs[h]? = some e ∧ (e.sender, e.tx.nonce) = k

theorem Agrees.filed (hp : pool.Agrees keccak256 actionJson) : pool.Filed keccak256 actionJson :=
  ⟨hp.hashed, hp.signed, fun k h => (hp.accounts k h).mp⟩

theorem withConfig_agrees (config : MempoolConfig) :
    (withConfig config : Mempool α).Agrees keccak256 actionJson where
  hashed _ _ h := by
    unfold withConfig at h
    simp at h
  signed _ _ h := by
    unfold withConfig at h
    simp at h
  accounts := by
    refine .of_empty (fun h => FinMap.get_empty h) fun k => ?_
    unfold account withConfig
    simp
  times := .of_empty (fun h => FinMap.get_empty h) fun t => FinMap.get_empty t

/-! #### Removal -/

theorem get_dropNonce (m : FinMap AccountAddress (FinMap UInt64 TxHash)) (sender : AccountAddress)
    (nonce : UInt64) (k : AccountAddress × UInt64) :
    ((dropNonce m sender nonce)[k.1]?).bind (·[k.2]?) =
      if (sender, nonce) = k then none else (m[k.1]?).bind (·[k.2]?) := by
  obtain ⟨a, n⟩ := k
  unfold dropNonce
  cases hm : m[sender]? with
  | none =>
    by_cases hk : (sender, nonce) = (a, n)
    · obtain ⟨rfl, rfl⟩ := Prod.mk.inj hk
      rw [if_pos rfl, hm]
      rfl
    · rw [if_neg hk]
  | some accountTxs =>
    dsimp only
    have herase : (accountTxs.erase nonce)[n]? = if nonce = n then none else accountTxs[n]? :=
      FinMap.get_erase accountTxs nonce n
    by_cases ha : sender = a
    · subst ha
      have hkey : ((sender, nonce) = (sender, n)) = (nonce = n) := by simp
      rw [hm, Option.bind_some, if_congr hkey.to_iff rfl rfl, ← herase]
      split
      · -- the account had this nonce only
        rename_i hempty
        rw [FinMap.get_erase_self]
        have hnil := Std.ExtTreeMap.isEmpty_iff.mp hempty
        rw [hnil]
        simp
      · rw [FinMap.get_insert_self, Option.bind_some]
    · have hkey : (sender, nonce) ≠ (a, n) := fun h => ha (Prod.mk.inj h).1
      rw [if_neg hkey]
      split
      · rw [FinMap.get_erase_ne _ ha]
      · rw [FinMap.get_insert_ne _ _ ha]

theorem removeInternal_txs (pool : Mempool α) (hash : TxHash) (h : TxHash) :
    (pool.removeInternal hash).1.txs[h]? = if hash = h then none else pool.txs[h]? := by
  unfold removeInternal
  cases hget : pool.txs[hash]? with
  | none =>
    by_cases hh : hash = h
    · rw [if_pos hh, ← hh]
      exact hget
    · rw [if_neg hh]
  | some entry => exact FinMap.get_erase pool.txs hash h

@[simp] theorem removeInternal_config (pool : Mempool α) (hash : TxHash) :
    (pool.removeInternal hash).1.config = pool.config := by
  unfold removeInternal
  split <;> rfl

theorem removeInternal_account {entry : MempoolEntry α} (hget : pool.txs[hash]? = some entry)
    (k : AccountAddress × UInt64) :
    (pool.removeInternal hash).1.account k =
      if (entry.sender, entry.tx.nonce) = k then none else pool.account k := by
  unfold account removeInternal
  rw [hget]
  exact get_dropNonce pool.byAccount entry.sender entry.tx.nonce k

theorem removeInternal_of_none (hget : pool.txs[hash]? = none) :
    (pool.removeInternal hash).1 = pool := by
  unfold removeInternal
  rw [hget]

theorem Filed.removeInternal (hp : pool.Filed keccak256 actionJson) (hash : TxHash) :
    (pool.removeInternal hash).1.Filed keccak256 actionJson := by
  cases hget : pool.txs[hash]? with
  | none =>
    rw [removeInternal_of_none hget]
    exact hp
  | some entry =>
    have hstored : ∀ (h : TxHash) e, (pool.removeInternal hash).1.txs[h]? = some e →
        pool.txs[h]? = some e := by
      intro h e he
      rw [removeInternal_txs] at he
      split at he
      · cases he
      · exact he
    refine ⟨fun h e he => hp.hashed h e (hstored h e he),
      fun h e he => hp.signed h e (hstored h e he), fun k h hk => ?_⟩
    rw [removeInternal_account hget] at hk
    split at hk
    · cases hk
    · rename_i hne
      obtain ⟨e, he, hkey⟩ := hp.led k h hk
      refine ⟨e, ?_, hkey⟩
      rw [removeInternal_txs]
      split
      · -- the removed transaction is listed under its own key only
        rename_i heq
        rw [← heq, hget] at he
        obtain rfl := Option.some.inj he
        exact absurd hkey hne
      · exact he

/-- Removing a transaction keeps the structures in step. -/
theorem Agrees.removeInternal (hp : pool.Agrees keccak256 actionJson) (hash : TxHash) :
    (pool.removeInternal hash).1.Agrees keccak256 actionJson := by
  have htxs := removeInternal_txs pool hash
  have hstored : ∀ (h : TxHash) e, (pool.removeInternal hash).1.txs[h]? = some e →
      pool.txs[h]? = some e := by
    intro h e he
    rw [htxs] at he
    split at he
    · cases he
    · exact he
  cases hget : pool.txs[hash]? with
  | none =>
    rw [removeInternal_of_none hget]
    exact hp
  | some entry =>
    refine ⟨fun h e he => hp.hashed h e (hstored h e he),
      fun h e he => hp.signed h e (hstored h e he),
      hp.accounts.erase hget htxs (removeInternal_account hget),
      hp.times.erase hget htxs fun t => ?_⟩
    unfold Mempool.removeInternal
    rw [hget]
    dsimp only
    rw [Std.ExtTreeMap.getElem?_filter']
    cases ht : pool.byTime[t]? with
    | none => simp
    | some h =>
      -- an arrival time with this hash is the entry's
      obtain ⟨e, he, rfl⟩ := (hp.times t h).mp ht
      by_cases hh : h = hash
      · subst hh
        obtain rfl := Option.some.inj (hget.symm.trans he)
        simp
      · have hne : entry.receivedAt ≠ e.receivedAt := fun heq =>
          hh (hp.times.id_unique he hget heq.symm)
        rw [if_neg hne]
        simp [hh]

theorem Agrees.removeAll (hp : pool.Agrees keccak256 actionJson) (hashes : List TxHash) :
    (pool.removeAll hashes).Agrees keccak256 actionJson := by
  unfold Mempool.removeAll
  induction hashes generalizing pool with
  | nil => exact hp
  | cons hash hashes ih => exact ih (hp.removeInternal hash)

theorem Filed.removeAll (hp : pool.Filed keccak256 actionJson) (hashes : List TxHash) :
    (pool.removeAll hashes).Filed keccak256 actionJson := by
  unfold Mempool.removeAll
  induction hashes generalizing pool with
  | nil => exact hp
  | cons hash hashes ih => exact ih (hp.removeInternal hash)

theorem Agrees.markInvalid (hp : pool.Agrees keccak256 actionJson) (hash : TxHash) :
    (pool.markInvalid hash).Agrees keccak256 actionJson := by
  obtain ⟨hhashed, hsigned, haccounts, htimes⟩ := hp.removeInternal hash
  exact ⟨hhashed, hsigned, haccounts, htimes⟩

/-! #### Eviction -/

/-- Taking the oldest arrival out first makes no difference to the removal of its transaction. -/
theorem Agrees.popOldest (hp : pool.Agrees keccak256 actionJson) {t : Instant} {oldest : TxHash}
    (ht : pool.byTime[t]? = some oldest) :
    ({ pool with byTime := pool.byTime.erase t }.removeInternal oldest).1 =
      (pool.removeInternal oldest).1 := by
  obtain ⟨entry, hget, rfl⟩ := (hp.times t oldest).mp ht
  unfold Mempool.removeInternal
  dsimp only at hget ht ⊢
  rw [hget]
  dsimp only
  congr 1
  refine Std.ExtTreeMap.ext_getElem? fun t => ?_
  rw [Std.ExtTreeMap.getElem?_filter', Std.ExtTreeMap.getElem?_filter', FinMap.get_erase]
  by_cases h : entry.receivedAt = t
  · subst h
    rw [if_pos rfl, ht, Option.filter_none, Option.filter_some_neg (by simp)]
  · rw [if_neg h]

/-- What an eviction leaves: part of what was there, in step. -/
structure Leaves (pool pool' : Mempool α) : Prop where
  config : pool'.config = pool.config
  invalid : pool'.invalid = pool.invalid
  txs : ∀ (h : TxHash) e, pool'.txs[h]? = some e → pool.txs[h]? = some e

theorem Leaves.refl (pool : Mempool α) : pool.Leaves pool := ⟨rfl, rfl, fun _ _ h => h⟩

theorem Leaves.trans {pool'' : Mempool α} (h : pool.Leaves pool') (h' : pool'.Leaves pool'') :
    pool.Leaves pool'' :=
  ⟨h'.config.trans h.config, h'.invalid.trans h.invalid, fun i e he => h.txs i e (h'.txs i e he)⟩

theorem removeInternal_leaves (pool : Mempool α) (hash : TxHash) :
    pool.Leaves (pool.removeInternal hash).1 := by
  refine ⟨removeInternal_config pool hash, ?_, fun h e he => ?_⟩
  · unfold removeInternal
    split <;> rfl
  · rw [removeInternal_txs] at he
    split at he
    · cases he
    · exact he

theorem removeAll_leaves (pool : Mempool α) (hashes : List TxHash) :
    pool.Leaves (pool.removeAll hashes) := by
  unfold removeAll
  induction hashes generalizing pool with
  | nil => exact .refl pool
  | cons hash hashes ih => exact (removeInternal_leaves pool hash).trans (ih _)

theorem evictWithin_leaves (turns : Nat) (pool : Mempool α) :
    pool.Leaves (evictWithin turns pool) := by
  induction turns generalizing pool with
  | zero => exact .refl pool
  | succ turns ih =>
    unfold evictWithin
    split
    · split
      · exact .refl pool
      · rename_i t oldest _
        have hremoved := removeInternal_leaves { pool with byTime := pool.byTime.erase t } oldest
        exact Leaves.trans ⟨hremoved.config, hremoved.invalid, hremoved.txs⟩ (ih _)
    · exact .refl pool

theorem evict_leaves (pool : Mempool α) : pool.Leaves pool.evict := evictWithin_leaves _ pool

theorem Agrees.evictWithin (hp : pool.Agrees keccak256 actionJson) (turns : Nat) :
    (evictWithin turns pool).Agrees keccak256 actionJson := by
  induction turns generalizing pool with
  | zero => exact hp
  | succ turns ih =>
    unfold Mempool.evictWithin
    split
    · cases hhead : pool.byTime.toList.head? with
      | none => exact hp
      | some p =>
        dsimp only
        rw [hp.popOldest (FinMap.mem_toList.mp (List.mem_of_head? hhead))]
        exact ih (hp.removeInternal p.2)
    · exact hp

theorem Agrees.evict (hp : pool.Agrees keccak256 actionJson) :
    pool.evict.Agrees keccak256 actionJson := hp.evictWithin pool.byTime.size

theorem Filed.evict (hp : pool.Filed keccak256 actionJson) :
    pool.evict.Filed keccak256 actionJson := by
  have hturns : ∀ (turns : Nat) (pool : Mempool α), pool.Filed keccak256 actionJson →
      (Mempool.evictWithin turns pool).Filed keccak256 actionJson := by
    intro turns
    induction turns with
    | zero => exact fun _ hp => hp
    | succ turns ih =>
      intro pool hp
      unfold Mempool.evictWithin
      split
      · split
        · exact hp
        · rename_i t oldest _
          have hpopped : ({ pool with byTime := pool.byTime.erase t } : Mempool α).Filed keccak256
              actionJson := ⟨hp.hashed, hp.signed, hp.led⟩
          exact ih _ (hpopped.removeInternal oldest)
      · exact hp
  exact hturns pool.byTime.size pool hp

/-- An arrival leaves `byTime` when it is taken out and its transaction is removed. -/
theorem size_pop_lt (pool : Mempool α) {p : Instant × TxHash} (h : p ∈ pool.byTime.toList) :
    ({ pool with byTime := pool.byTime.erase p.1 }.removeInternal p.2).1.byTime.size <
      pool.byTime.size := by
  have herase : (pool.byTime.erase p.1).size < pool.byTime.size := by
    have hmem : p.1 ∈ pool.byTime := by
      rw [← Std.ExtTreeMap.isSome_getElem?_iff_mem, FinMap.mem_toList.mp h]
      rfl
    have hpos : pool.byTime.size ≠ 0 := by
      intro h0
      rw [← Std.ExtTreeMap.length_toList, List.length_eq_zero_iff] at h0
      rw [h0] at h
      cases h
    rw [Std.ExtTreeMap.size_erase, if_pos (Std.ExtTreeMap.mem_iff_contains.mp hmem)]
    omega
  unfold removeInternal
  split
  · exact herase
  · refine Nat.lt_of_le_of_lt ?_ herase
    exact Std.ExtTreeMap.size_filter_le_size

/-! #### Addition -/

/-- What the checks let through: a new hash and a signer, with the pool after the eviction.
What they refuse leaves the pool as it was, or evicted. -/
theorem screen_cases {result : Except MempoolError AccountAddress}
    (h : pool.screen keccak256 actionJson o tx = .ok (pool', result)) :
    (pool' = pool ∨ pool' = pool.evict) ∧ ∀ sender, result = .ok sender →
      tx.signer = some sender ∧ pool.txs[tx.computeHash keccak256 actionJson]? = none ∧
        pool' = pool.evict := by
  have hrefused : ∀ {e}, (pool, Except.error e) = (pool', result) →
      (pool' = pool ∨ pool' = pool.evict) ∧ ∀ sender, result = .ok sender →
        tx.signer = some sender ∧ pool.txs[tx.computeHash keccak256 actionJson]? = none ∧
          pool' = pool.evict := by
    rintro e he
    obtain ⟨rfl, rfl⟩ := Prod.mk.inj he
    exact ⟨.inl rfl, nofun⟩
  unfold screen at h
  dsimp only at h
  split at h
  · exact hrefused (pure_inv h)
  · rename_i hunknown
    have hnone : pool.txs[tx.computeHash keccak256 actionJson]? = none :=
      Std.ExtTreeMap.getElem?_eq_none hunknown
    split at h
    · exact hrefused (pure_inv h)
    · split at h
      · exact hrefused (pure_inv h)
      · rename_i signer hsigner
        split at h
        · exact hrefused (pure_inv h)
        · have hstored : ∀ {r}, (pool.evict, r) = (pool', result) →
              (∀ sender, r = .ok sender → signer = sender) →
              (pool' = pool ∨ pool' = pool.evict) ∧ ∀ sender, result = .ok sender →
                tx.signer = some sender ∧
                  pool.txs[tx.computeHash keccak256 actionJson]? = none ∧ pool' = pool.evict := by
            rintro r hr hsender
            obtain ⟨rfl, rfl⟩ := Prod.mk.inj hr
            refine ⟨.inr rfl, fun sender hs => ⟨?_, hnone, rfl⟩⟩
            rw [hsigner, hsender sender hs]
          split at h
          · exact hstored (pure_inv h) fun sender hs => Except.ok.inj hs
          · obtain ⟨expected, -, h⟩ := bind_inv h
            split at h
            · exact hstored (pure_inv h) nofun
            · exact hstored (pure_inv h) fun sender hs => Except.ok.inj hs

theorem insert_txs (pool : Mempool α) (tx : SignedTx α) (sender : AccountAddress) (now : Instant)
    (h : TxHash) :
    (pool.insert keccak256 actionJson tx sender now).txs[h]? =
      if tx.computeHash keccak256 actionJson = h then some ⟨tx, sender, now⟩ else pool.txs[h]? :=
  FinMap.get_insert pool.txs _ h _

theorem insert_account (pool : Mempool α) (tx : SignedTx α) (sender : AccountAddress)
    (now : Instant) (k : AccountAddress × UInt64) :
    (pool.insert keccak256 actionJson tx sender now).account k =
      if (sender, tx.nonce) = k then some (tx.computeHash keccak256 actionJson)
      else pool.account k := by
  obtain ⟨a, n⟩ := k
  unfold account insert
  dsimp only
  by_cases ha : sender = a
  · subst ha
    have hkey : ((sender, tx.nonce) = (sender, n)) = (tx.nonce = n) := by simp
    rw [FinMap.get_insert_self, Option.bind_some, FinMap.get_insert,
      if_congr hkey.to_iff rfl rfl]
    cases pool.byAccount[sender]? <;> simp
  · have hkey : (sender, tx.nonce) ≠ (a, n) := fun h => ha (Prod.mk.inj h).1
    rw [FinMap.get_insert_ne _ _ ha, if_neg hkey]

/-- What a pool has after a transaction is stored. -/
theorem insert_entry {h : TxHash} {e : MempoolEntry α}
    (he : (pool.insert keccak256 actionJson tx sender now).txs[h]? = some e) :
    (tx.computeHash keccak256 actionJson = h ∧ e = ⟨tx, sender, now⟩) ∨
      pool.txs[h]? = some e := by
  rw [insert_txs] at he
  split at he
  · rename_i hh
    exact .inl ⟨hh, (Option.some.inj he).symm⟩
  · exact .inr he

theorem Filed.insert (hp : pool.Filed keccak256 actionJson)
    (hnew : pool.txs[tx.computeHash keccak256 actionJson]? = none)
    (hsigner : tx.signer = some sender) :
    (pool.insert keccak256 actionJson tx sender now).Filed keccak256 actionJson := by
  refine ⟨fun h e he => ?_, fun h e he => ?_, fun k h hk => ?_⟩
  · rcases insert_entry he with ⟨hh, rfl⟩ | he
    · exact hh
    · exact hp.hashed h e he
  · rcases insert_entry he with ⟨-, rfl⟩ | he
    · exact hsigner
    · exact hp.signed h e he
  · rw [insert_account] at hk
    split at hk
    · rename_i hkey
      obtain rfl := Option.some.inj hk
      exact ⟨⟨tx, sender, now⟩, by rw [insert_txs, if_pos rfl], hkey⟩
    · obtain ⟨e, he, hkey⟩ := hp.led k h hk
      refine ⟨e, ?_, hkey⟩
      rw [insert_txs, if_neg, he]
      rintro rfl
      rw [hnew] at he
      cases he

/-- A new transaction keeps the structures in step exactly when the pool has none of its
sender and nonce, and none that arrived at the same moment. -/
theorem Agrees.insert_iff (hp : pool.Agrees keccak256 actionJson)
    (hnew : pool.txs[tx.computeHash keccak256 actionJson]? = none)
    (hsigner : tx.signer = some sender) :
    (pool.insert keccak256 actionJson tx sender now).Agrees keccak256 actionJson ↔
      ∀ (h : TxHash) e, pool.txs[h]? = some e →
        e.receivedAt ≠ now ∧ (e.sender = sender → e.tx.nonce ≠ tx.nonce) := by
  have haccounts :=
    hp.accounts.insert_iff hnew (v := ⟨tx, sender, now⟩) (insert_txs pool tx sender now)
    (insert_account pool tx sender now)
  have htimes := hp.times.insert_iff hnew (v := ⟨tx, sender, now⟩) (insert_txs pool tx sender now)
    (fun t => FinMap.get_insert pool.byTime now t _)
  constructor
  · intro h i e he
    refine ⟨htimes.mp h.times i e he, fun hs hn => ?_⟩
    exact haccounts.mp h.accounts i e he (by rw [hs, hn])
  · intro h
    have hfiled : (pool.insert keccak256 actionJson tx sender now).Filed keccak256 actionJson :=
      hp.filed.insert hnew hsigner
    exact ⟨hfiled.hashed, hfiled.signed,
      haccounts.mpr fun i e he hkey => (h i e he).2 (Prod.mk.inj hkey).1 (Prod.mk.inj hkey).2,
      htimes.mpr fun i e he => (h i e he).1⟩

/-! #### Refusals -/

variable (keccak256) (actionJson) in
/-- The checks that come before the eviction let a transaction through. -/
structure ReachesEviction (pool : Mempool α) (tx : SignedTx α) : Prop where
  unknown : tx.computeHash keccak256 actionJson ∉ pool.txs
  notInvalid : tx.computeHash keccak256 actionJson ∉ pool.invalid
  room : ∃ sender, tx.signer = some sender ∧ pool.accountFull sender = false

/-- The pool is full, and has an oldest transaction to evict. -/
def Evicts (pool : Mempool α) : Prop :=
  pool.config.maxTotalTxs ≤ pool.txs.size ∧ pool.byTime.toList ≠ []

/-- The contents of a pool are those of another one. -/
structure SameContents (pool pool' : Mempool α) : Prop where
  txs : pool'.txs = pool.txs
  byAccount : pool'.byAccount = pool.byAccount
  byTime : pool'.byTime = pool.byTime

theorem SameContents.refl (pool : Mempool α) : pool.SameContents pool := ⟨rfl, rfl, rfl⟩

/-- A pool that need not evict stays as it is. -/
theorem evict_of_not_evicts (h : ¬ pool.Evicts) : pool.evict = pool := by
  unfold evict
  cases pool.byTime.size with
  | zero => rfl
  | succ turns =>
    unfold evictWithin
    split
    · rename_i hfull
      have hnil : pool.byTime.toList = [] := by
        by_contra hne
        exact h ⟨hfull, hne⟩
      rw [hnil]
      rfl
    · rfl

theorem evictWithin_byTime_le (turns : Nat) (pool : Mempool α) :
    (evictWithin turns pool).byTime.size ≤ pool.byTime.size := by
  induction turns generalizing pool with
  | zero => exact Nat.le_refl _
  | succ turns ih =>
    unfold evictWithin
    split
    · cases hhead : pool.byTime.toList.head? with
      | none => exact Nat.le_refl _
      | some p =>
        have hlt := size_pop_lt pool (List.mem_of_head? hhead)
        exact Nat.le_trans (ih _) (Nat.le_of_lt hlt)
    · exact Nat.le_refl _

/-- An eviction takes at least the oldest arrival out. -/
theorem evict_byTime_lt (h : pool.Evicts) : pool.evict.byTime.size < pool.byTime.size := by
  obtain ⟨hfull, hne⟩ := h
  obtain ⟨p, l, hl⟩ := List.exists_cons_of_ne_nil hne
  have hlt := size_pop_lt pool (p := p) (by rw [hl]; exact .head _)
  unfold evict
  cases hturns : pool.byTime.size with
  | zero => omega
  | succ turns =>
    unfold evictWithin
    rw [if_pos hfull, hl]
    have hle := evictWithin_byTime_le turns
      ({ pool with byTime := pool.byTime.erase p.1 }.removeInternal p.2).1
    dsimp only [List.head?_cons]
    omega

/-- What a refusal leaves: the pool itself before the eviction, and the evicted pool after it. -/
theorem screen_refused {e : MempoolError}
    (h : pool.screen keccak256 actionJson o tx = .ok (pool', .error e)) :
    (¬ pool.ReachesEviction keccak256 actionJson tx ∧ pool' = pool) ∨
      (pool.ReachesEviction keccak256 actionJson tx ∧ pool' = pool.evict) := by
  have hrefused : ∀ {e' : MempoolError} {x : Mempool α},
      (pure (x, .error e') : Exec (Mempool α × Except MempoolError AccountAddress)) =
        .ok (pool', .error e) → pool' = x := fun h => (pair_inv h).1.symm
  unfold screen at h
  dsimp only at h
  by_cases hknown : tx.computeHash keccak256 actionJson ∈ pool.txs
  · rw [if_pos hknown] at h
    exact .inl ⟨fun hr => hr.unknown hknown, hrefused h⟩
  rw [if_neg hknown] at h
  by_cases hinvalid : tx.computeHash keccak256 actionJson ∈ pool.invalid
  · rw [if_pos hinvalid] at h
    exact .inl ⟨fun hr => hr.notInvalid hinvalid, hrefused h⟩
  rw [if_neg hinvalid] at h
  cases hsigner : tx.signer with
  | none =>
    rw [hsigner] at h
    refine .inl ⟨fun hr => ?_, hrefused h⟩
    obtain ⟨sender, hs, -⟩ := hr.room
    rw [hsigner] at hs
    cases hs
  | some sender =>
    rw [hsigner] at h
    dsimp only at h
    by_cases hfull : pool.accountFull sender = true
    · rw [if_pos hfull] at h
      refine .inl ⟨fun hr => ?_, hrefused h⟩
      obtain ⟨a, ha, hroom⟩ := hr.room
      obtain rfl := Option.some.inj (hsigner.symm.trans ha)
      rw [hfull] at hroom
      cases hroom
    · rw [if_neg hfull] at h
      refine .inr ⟨⟨hknown, hinvalid, sender, hsigner, Bool.eq_false_iff.mpr hfull⟩, ?_⟩
      split at h
      · cases (pair_inv h).2
      · obtain ⟨expected, -, h⟩ := bind_inv h
        split at h
        · exact hrefused h
        · cases (pair_inv h).2

/-- **Refusals.** A transaction that is refused leaves the contents of the pool unchanged exactly
when it does not get as far as an eviction that evicts. The checks before the eviction change
nothing, and an eviction makes the index by time shorter. -/
theorem refused_unchanged_iff {e : MempoolError}
    (h : pool.add keccak256 actionJson o tx now = .ok (pool', .error e)) :
    pool.SameContents pool' ↔
      ¬ (pool.ReachesEviction keccak256 actionJson tx ∧ pool.Evicts) := by
  obtain ⟨⟨pool₁, r⟩, hscreen, h⟩ := bind_inv h
  cases r with
  | ok sender => cases (pair_inv h).2
  | error e' =>
    obtain ⟨rfl, -⟩ := pair_inv h
    rcases screen_refused hscreen with ⟨hearly, rfl⟩ | ⟨hreaches, rfl⟩
    · exact ⟨fun _ hr => hearly hr.1, fun _ => .refl _⟩
    · constructor
      · rintro hsame ⟨-, hevicts⟩
        have hlt := evict_byTime_lt hevicts
        rw [hsame.byTime] at hlt
        exact Nat.lt_irrefl _ hlt
      · intro hnot
        rw [evict_of_not_evicts fun hevicts => hnot ⟨hreaches, hevicts⟩]
        exact .refl pool

/-! ### Pending transactions -/

/-- The transactions of the pool, by hash. -/
def stored (pool : Mempool α) : List (SignedTx α) := pool.txs.toList.map (·.2.tx)

theorem mem_stored : tx ∈ pool.stored ↔ ∃ (h : TxHash) (e : MempoolEntry α),
    pool.txs[h]? = some e ∧ e.tx = tx := by
  unfold stored
  rw [List.mem_map]
  constructor
  · rintro ⟨p, hp, rfl⟩
    exact ⟨p.1, p.2, FinMap.mem_toList.mp hp, rfl⟩
  · rintro ⟨h, e, he, rfl⟩
    exact ⟨(h, e), FinMap.mem_toList.mpr he, rfl⟩

theorem Filed.nodup_stored (hp : pool.Filed keccak256 actionJson) : pool.stored.Nodup := by
  have hnodup := FinMap.nodup_values (m := pool.txs)
    (g := fun e => e.tx.computeHash keccak256 actionJson) hp.hashed
  refine List.Nodup.of_map (fun tx => tx.computeHash keccak256 actionJson) ?_
  have hkeys : pool.stored.map (fun tx => tx.computeHash keccak256 actionJson) =
      pool.txs.toList.map Prod.fst := by
    unfold stored
    rw [List.map_map]
    exact List.map_congr_left fun p hmem => hp.hashed p.1 p.2 (FinMap.mem_toList.mp hmem)
  rw [hkeys]
  exact FinMap.nodup_keys pool.txs

/-- Two transactions of one signer stand in the order of their nonces. -/
def InOrder (tx tx' : SignedTx α) : Prop := tx.signer = tx'.signer → tx.nonce < tx'.nonce

theorem InOrder.irrefl {tx : SignedTx α} : ¬ InOrder tx tx := fun h =>
  UInt64.lt_irrefl _ (h rfl)

theorem mem_accountTxs {ord : HashOrder} : tx ∈ pool.accountTxs ord ↔
    ∃ (k : AccountAddress × UInt64) (h : TxHash) (e : MempoolEntry α),
      pool.account k = some h ∧ pool.txs[h]? = some e ∧ e.tx = tx := by
  unfold accountTxs account
  rw [List.mem_flatMap]
  constructor
  · rintro ⟨p, hp, htx⟩
    obtain ⟨q, hq, hget⟩ := List.mem_filterMap.mp htx
    obtain ⟨e, he, rfl⟩ := Option.map_eq_some_iff.mp hget
    rw [HashOrder.mem_visit, FinMap.mem_toList] at hp
    refine ⟨(p.1, q.1), q.2, e, ?_, he, rfl⟩
    rw [hp]
    exact FinMap.mem_toList.mp hq
  · rintro ⟨⟨a, n⟩, h, e, hk, he, rfl⟩
    obtain ⟨m, hm, hn⟩ := Option.bind_eq_some_iff.mp hk
    refine ⟨(a, m), (HashOrder.mem_visit ord).mpr (FinMap.mem_toList.mpr hm),
      List.mem_filterMap.mpr ⟨(n, h), FinMap.mem_toList.mpr hn, ?_⟩⟩
    rw [he]
    rfl

/-- The transactions that the account index leads to come in nonce order for each sender. -/
theorem Filed.pairwise_accountTxs (hp : pool.Filed keccak256 actionJson) (ord : HashOrder) :
    (pool.accountTxs ord).Pairwise InOrder := by
  -- a listed transaction has the key it is listed under
  have hlisted : ∀ (a : AccountAddress) (m : FinMap UInt64 TxHash) (n : UInt64) (h : TxHash) tx,
      pool.byAccount[a]? = some m → m[n]? = some h → (pool.txs[h]?).map (·.tx) = some tx →
      tx.signer = some a ∧ tx.nonce = n := by
    intro a m n h tx hm hn htx
    have hk : pool.account (a, n) = some h := by
      unfold account
      rw [hm]
      exact hn
    obtain ⟨e, he, hkey⟩ := hp.led (a, n) h hk
    rw [he] at htx
    obtain rfl := Option.some.inj htx
    obtain ⟨rfl, rfl⟩ := Prod.mk.inj hkey
    exact ⟨hp.signed h e he, rfl⟩
  unfold accountTxs
  rw [List.pairwise_flatMap]
  constructor
  · rintro ⟨a, m⟩ hmem
    rw [HashOrder.mem_visit, FinMap.mem_toList] at hmem
    refine List.pairwise_filterMap.mpr (List.Pairwise.imp_of_mem ?_ (FinMap.pairwise_toList m))
    rintro ⟨n, h⟩ ⟨n', h'⟩ hn hn' hlt tx htx tx' htx' -
    obtain ⟨-, rfl⟩ := hlisted a m n h tx hmem (FinMap.mem_toList.mp hn) htx
    obtain ⟨-, rfl⟩ := hlisted a m n' h' tx' hmem (FinMap.mem_toList.mp hn') htx'
    exact Std.compare_eq_lt.mp hlt
  · have hkeys : ((ord.visit pool.byAccount.toList).map Prod.fst).Nodup :=
      ((ord.perm _).map _).nodup_iff.mpr (FinMap.nodup_keys pool.byAccount)
    refine List.Pairwise.imp_of_mem ?_ (List.pairwise_map.mp hkeys)
    rintro ⟨a, m⟩ ⟨a', m'⟩ hmem hmem' hne tx htx tx' htx' hsigner
    rw [HashOrder.mem_visit, FinMap.mem_toList] at hmem hmem'
    obtain ⟨⟨n, h⟩, hn, hget⟩ := List.mem_filterMap.mp htx
    obtain ⟨⟨n', h'⟩, hn', hget'⟩ := List.mem_filterMap.mp htx'
    have hs := (hlisted a m n h tx hmem (FinMap.mem_toList.mp hn) hget).1
    have hs' := (hlisted a' m' n' h' tx' hmem' (FinMap.mem_toList.mp hn') hget').1
    rw [hs, hs'] at hsigner
    exact absurd (Option.some.inj hsigner) hne

theorem Filed.nodup_accountTxs (hp : pool.Filed keccak256 actionJson) (ord : HashOrder) :
    (pool.accountTxs ord).Nodup :=
  (hp.pairwise_accountTxs ord).imp fun {tx tx'} h (heq : tx = tx') => InOrder.irrefl (heq ▸ h)

/-- The account index leads to every stored transaction once. -/
theorem Agrees.accountTxs_perm (hp : pool.Agrees keccak256 actionJson) (ord : HashOrder) :
    (pool.accountTxs ord).Perm pool.stored := by
  rw [List.perm_ext_iff_of_nodup (hp.filed.nodup_accountTxs ord) hp.filed.nodup_stored]
  intro tx
  rw [mem_accountTxs, mem_stored]
  constructor
  · rintro ⟨-, h, e, -, he⟩
    exact ⟨h, e, he⟩
  · rintro ⟨h, e, he⟩
    exact ⟨_, h, e, hp.accounts.find he.1, he⟩

/-- A limit that is large enough is not met before the end. -/
theorem collect_eq {limit : Nat} {result rest : List (SignedTx α)}
    (h : result.length + rest.length ≤ limit) : collect limit result rest = result ++ rest := by
  induction rest generalizing result with
  | nil => simp [collect]
  | cons tx rest ih =>
    rw [List.length_cons] at h
    have hlen : (result ++ [tx]).length = result.length + 1 := by simp
    unfold collect
    split
    · -- the limit is met by the last transaction
      have hrest : rest = [] := List.length_eq_zero_iff.mp (by omega)
      rw [hrest]
    · rw [ih (by omega), List.append_assoc]
      rfl

/-- A large enough limit returns every stored transaction once, in nonce order. -/
theorem Agrees.getPending (hp : pool.Agrees keccak256 actionJson) (ord : HashOrder) {limit : Nat}
    (hlimit : pool.txs.size ≤ limit) :
    (pool.getPending ord limit).Perm pool.stored ∧
      (pool.getPending ord limit).Pairwise InOrder := by
  have hperm := hp.accountTxs_perm ord
  have hall : pool.getPending ord limit = pool.accountTxs ord := by
    refine collect_eq ?_
    have hlen : pool.stored.length = pool.txs.size := by
      unfold stored
      rw [List.length_map, Std.ExtTreeMap.length_toList]
    rw [hperm.length_eq, hlen, List.length_nil]
    omega
  rw [hall]
  exact ⟨hperm, hp.filed.pairwise_accountTxs ord⟩

/-! ### What a call does to the stored transactions -/

/-- **Inversion of `add`.** A refused transaction leaves the pool, or what an eviction leaves
of it; an accepted one joins what an eviction leaves. -/
theorem add_cases {result : Except MempoolError TxHash}
    (h : pool.add keccak256 actionJson o tx now = .ok (pool', result)) :
    (pool' = pool ∨ pool' = pool.evict) ∨
    ∃ sender, tx.signer = some sender ∧
      pool.evict.txs[tx.computeHash keccak256 actionJson]? = none ∧
      pool' = pool.evict.insert keccak256 actionJson tx sender now ∧
      pool.screen keccak256 actionJson o tx = .ok (pool.evict, .ok sender) := by
  obtain ⟨⟨screened, verdict⟩, hscreen, hadd⟩ := bind_inv h
  obtain ⟨hpool, hstored⟩ := screen_cases hscreen
  cases verdict with
  | error e =>
    obtain ⟨rfl, -⟩ := pair_inv hadd
    exact .inl hpool
  | ok sender =>
    obtain ⟨rfl, -⟩ := pair_inv hadd
    obtain ⟨hsigner, hnew, rfl⟩ := hstored sender rfl
    refine .inr ⟨sender, hsigner, ?_, rfl, hscreen⟩
    cases hget : pool.evict.txs[tx.computeHash keccak256 actionJson]? with
    | none => rfl
    | some e => exact absurd ((evict_leaves pool).txs _ e hget) (by rw [hnew]; exact nofun)

theorem Leaves.mem_stored (h : pool.Leaves pool') (htx : tx ∈ pool'.stored) :
    tx ∈ pool.stored := by
  obtain ⟨i, e, he, rfl⟩ := Mempool.mem_stored.mp htx
  exact Mempool.mem_stored.mpr ⟨i, e, h.txs i e he, rfl⟩

theorem mem_stored_insert {tx' : SignedTx α}
    (h : tx' ∈ (pool.insert keccak256 actionJson tx sender now).stored) :
    tx' = tx ∨ tx' ∈ pool.stored := by
  obtain ⟨i, e, he, rfl⟩ := mem_stored.mp h
  rcases insert_entry he with ⟨-, rfl⟩ | he
  · exact .inl rfl
  · exact .inr (mem_stored.mpr ⟨i, e, he, rfl⟩)

/-- An addition files at most the transaction that is added. -/
theorem Filed.add {result : Except MempoolError TxHash} (hp : pool.Filed keccak256 actionJson)
    (h : pool.add keccak256 actionJson o tx now = .ok (pool', result)) :
    pool'.Filed keccak256 actionJson ∧
      ∀ tx' ∈ pool'.stored, tx' = tx ∨ tx' ∈ pool.stored := by
  rcases add_cases h with (rfl | rfl) | ⟨sender, hsigner, hnew, rfl, -⟩
  · exact ⟨hp, fun tx' h => .inr h⟩
  · exact ⟨hp.evict, fun tx' h => .inr ((evict_leaves pool).mem_stored h)⟩
  · refine ⟨hp.evict.insert hnew hsigner, fun tx' h => ?_⟩
    exact (mem_stored_insert h).imp_right (evict_leaves pool).mem_stored

/-- A removal takes the transaction of each hash out. -/
theorem Filed.mem_stored_removeAll (hp : pool.Filed keccak256 actionJson) {hashes : List TxHash}
    (h : tx ∈ (pool.removeAll hashes).stored) :
    tx ∈ pool.stored ∧ tx.computeHash keccak256 actionJson ∉ hashes := by
  refine ⟨(removeAll_leaves pool hashes).mem_stored h, fun hmem => ?_⟩
  unfold Mempool.removeAll at h
  induction hashes generalizing pool with
  | nil => cases hmem
  | cons hash hashes ih =>
    rcases List.mem_cons.mp hmem with rfl | hmem
    · obtain ⟨i, e, he, rfl⟩ := mem_stored.mp
        ((removeAll_leaves (pool.removeInternal _).1 hashes).mem_stored h)
      have hold := (removeInternal_leaves pool _).txs i e he
      rw [removeInternal_txs, if_pos (hp.hashed i e hold)] at he
      cases he
    · exact ih (hp.removeInternal hash) h hmem

/-- What is pushed before the limit is met is a first part of what there is. -/
theorem collect_append (limit : Nat) (result rest : List (SignedTx α)) :
    collect limit result rest <+: result ++ rest := by
  induction rest generalizing result with
  | nil => simp [collect]
  | cons tx rest ih =>
    have happend : result ++ tx :: rest = result ++ [tx] ++ rest := by simp
    unfold collect
    split
    · rw [happend]
      exact List.prefix_append _ _
    · rw [happend]
      exact ih (result ++ [tx])

/-- A batch has no transaction twice, and only stored ones. -/
theorem Filed.getPending_batch (hp : pool.Filed keccak256 actionJson) (ord : HashOrder)
    (limit : Nat) :
    (pool.getPending ord limit).Nodup ∧ ∀ tx ∈ pool.getPending ord limit, tx ∈ pool.stored := by
  have hsub : List.Sublist (pool.getPending ord limit) (pool.accountTxs ord) :=
    (collect_append limit [] _).sublist
  refine ⟨hsub.nodup (hp.nodup_accountTxs ord), fun tx htx => ?_⟩
  obtain ⟨k, h, e, -, he⟩ := mem_accountTxs.mp (hsub.subset htx)
  exact mem_stored.mpr ⟨h, e, he⟩

variable (keccak256) (actionJson) in
/-- Add each of a queue of transactions, the clock read for each; refusals are ignored. -/
def addQueue (o : Overflow) : (Nat → Instant) → List (SignedTx α) → Mempool α →
    Exec (Mempool α)
  | _, [], pool => return pool
  | clock, tx :: rest, pool => do
    let (pool, _) ← pool.add keccak256 actionJson o tx (clock 0)
    addQueue o (fun k => clock (k + 1)) rest pool

/-- A queue files at most its own transactions. -/
theorem Filed.addQueue (hp : pool.Filed keccak256 actionJson) {clock : Nat → Instant}
    {queue : List (SignedTx α)}
    (h : addQueue keccak256 actionJson o clock queue pool = .ok pool') :
    pool'.Filed keccak256 actionJson ∧
      ∀ tx ∈ pool'.stored, tx ∈ queue ∨ tx ∈ pool.stored := by
  induction queue generalizing pool clock with
  | nil =>
    obtain rfl := pure_inv h
    exact ⟨hp, fun tx h => .inr h⟩
  | cons tx queue ih =>
    obtain ⟨⟨added, result⟩, hadd, hrest⟩ := bind_inv h
    obtain ⟨hfiled, hstored⟩ := hp.add hadd
    obtain ⟨hfiled', hstored'⟩ := ih hfiled hrest
    refine ⟨hfiled', fun tx' htx' => ?_⟩
    rcases hstored' tx' htx' with hqueue | hmem
    · exact .inl (.tail _ hqueue)
    · rcases hstored tx' hmem with rfl | hmem
      · exact .inl (.head _)
      · exact .inr hmem

end Mempool

/-- Thread-safe mempool wrapper, with the incoming queue of the gateway. -/
structure SharedMempool (α : Type) where
  inner : Mempool α
  /-- First in, first out. -/
  incoming : List (SignedTx α)

namespace SharedMempool

variable {α : Type} (keccak256 : List UInt8 → Bytes32) (actionJson : α → List UInt8)

/-- Push to the incoming queue. -/
def push (m : SharedMempool α) (tx : SignedTx α) : SharedMempool α :=
  { m with incoming := m.incoming ++ [tx] }

/-- Drain the incoming queue into the indexed mempool. -/
def drainIntoIndexed (o : Overflow) (clock : Nat → Instant) (m : SharedMempool α) :
    Exec (SharedMempool α) := do
  return ⟨← Mempool.addQueue keccak256 actionJson o clock m.incoming m.inner, []⟩

/-- Remove a transaction by its hash. -/
def remove (m : SharedMempool α) (hash : TxHash) : SharedMempool α :=
  { m with inner := (m.inner.remove hash).1 }

end SharedMempool

/-! ### Runs -/

/-- A call of the mempool, with the moment at which it reads the clock. -/
inductive MempoolCall (α : Type)
  | add (tx : SignedTx α) (now : Instant)
  | remove (hash : TxHash)
  | markInvalid (hash : TxHash)
  | pruneExpired (now : Instant)
  | updateAfterCommit (includedHashes : List TxHash)
  deriving DecidableEq

/-- A mempool, and the transactions of any sender that were submitted to it so far. -/
structure MempoolHistory (α : Type) where
  pool : Mempool α
  submitted : List (SignedTx α)

namespace MempoolHistory

open Mempool

variable {α : Type} (keccak256 : List UInt8 → Bytes32) (actionJson : α → List UInt8)

/-- A new mempool. -/
def start (config : MempoolConfig) : MempoolHistory α := ⟨withConfig config, []⟩

/-- One call. -/
def step (o : Overflow) : MempoolCall α → MempoolHistory α → Exec (MempoolHistory α)
  | .add tx now, s => do
    let (pool, _) ← s.pool.add keccak256 actionJson o tx now
    return ⟨pool, if tx.signer.isSome then tx :: s.submitted else s.submitted⟩
  | .remove hash, s => return { s with pool := (s.pool.remove hash).1 }
  | .markInvalid hash, s => return { s with pool := s.pool.markInvalid hash }
  | .pruneExpired now, s => return { s with pool := (s.pool.pruneExpired now).1 }
  | .updateAfterCommit hashes, s => return { s with pool := s.pool.updateAfterCommit hashes }

/-- A submission meets no other transaction: no other sender has submitted its action with its
nonce, and if the checks let it in, the pool that it enters has no transaction of its sender
and nonce and none that arrived at the same moment. -/
def Apart (o : Overflow) (s : MempoolHistory α) : MempoolCall α → Prop
  | .add tx now =>
    (∀ tx' ∈ s.submitted, tx.signer.isSome → tx'.action = tx.action → tx'.nonce = tx.nonce →
      tx'.signer = tx.signer) ∧
    ∀ pool sender, s.pool.screen keccak256 actionJson o tx = .ok (pool, .ok sender) →
      ∀ (h : TxHash) e, pool.txs[h]? = some e →
        e.receivedAt ≠ now ∧ (e.sender = sender → e.tx.nonce ≠ tx.nonce)
  | _ => True

/-- The transaction that a call submits is one of a set. -/
def Submits (txs : Set (SignedTx α)) : MempoolCall α → Prop
  | .add tx _ => tx ∈ txs
  | _ => True

/-- The pool represents what it holds: its three structures describe the same transactions,
all of which were submitted; a limit of the pool's size or more returns each of them once, in
nonce order for each sender; and no two submitted transactions share a hash. -/
structure Represents (s : MempoolHistory α) : Prop where
  agrees : s.pool.Agrees keccak256 actionJson
  submitted : ∀ tx ∈ s.pool.stored, tx ∈ s.submitted
  pending : ∀ (ord : HashOrder) limit, s.pool.txs.size ≤ limit →
    (s.pool.getPending ord limit).Perm s.pool.stored ∧
      (s.pool.getPending ord limit).Pairwise InOrder
  distinct : ∀ tx ∈ s.submitted, ∀ tx' ∈ s.submitted,
    tx.computeHash keccak256 actionJson = tx'.computeHash keccak256 actionJson → tx = tx'

variable {keccak256} {actionJson} {o : Overflow} {config : MempoolConfig} {s s' : MempoolHistory α}
  {call : MempoolCall α} {txs : Set (SignedTx α)}

/-- Texts of different actions, or different nonces, are different things to hash. -/
theorem hashInput_inj (hjson : Function.Injective actionJson) {tx tx' : SignedTx α}
    (h : tx.hashInput actionJson = tx'.hashInput actionJson) :
    tx.action = tx'.action ∧ tx.nonce = tx'.nonce := by
  unfold SignedTx.hashInput at h
  obtain ⟨htext, hnonce⟩ := List.append_inj' h (by simp only [length_leBytes])
  refine ⟨hjson htext, UInt64.toNat_inj.mp (leBytes_inj ?_ ?_ hnonce)⟩
  · exact tx.nonce.toNat_lt
  · exact tx'.nonce.toNat_lt

/-- A submission is apart when it meets no other transaction of the pool before the eviction. -/
theorem Apart.of_stored {tx : SignedTx α} {now : Instant}
    (hsenders : ∀ tx' ∈ s.submitted, tx.signer.isSome → tx'.action = tx.action →
      tx'.nonce = tx.nonce → tx'.signer = tx.signer)
    (hfree : ∀ (h : TxHash) e, s.pool.txs[h]? = some e →
      e.receivedAt ≠ now ∧ tx.signer ≠ some e.sender) :
    Apart keccak256 actionJson o s (.add tx now) := by
  refine ⟨hsenders, fun pool sender hscreen h e he => ?_⟩
  obtain ⟨-, hstored⟩ := screen_cases hscreen
  obtain ⟨hsigner, -, rfl⟩ := hstored sender rfl
  obtain ⟨htime, hsender⟩ := hfree h e ((evict_leaves s.pool).txs h e he)
  refine ⟨htime, fun hs => absurd ?_ hsender⟩
  rw [hs]
  exact hsigner

variable (keccak256) (actionJson) in
/-- What the run lemma carries from call to call. -/
structure Holds (txs : Set (SignedTx α)) (s : MempoolHistory α) : Prop where
  agrees : s.pool.Agrees keccak256 actionJson
  submitted : ∀ tx ∈ s.pool.stored, tx ∈ s.submitted
  within : ∀ tx ∈ s.submitted, tx ∈ txs
  senders : ∀ tx ∈ s.submitted, ∀ tx' ∈ s.submitted, tx.action = tx'.action →
    tx.nonce = tx'.nonce → tx = tx'

/-- A pool that was left by another one, in step, holds. -/
theorem Holds.of_leaves (h : Holds keccak256 actionJson txs s)
    {pool : Mempool α} (hagrees : pool.Agrees keccak256 actionJson)
    (hleaves : s.pool.Leaves pool) :
    Holds keccak256 actionJson txs ⟨pool, s.submitted⟩ := by
  exact ⟨hagrees, fun tx htx => h.submitted tx (hleaves.mem_stored htx), h.within, h.senders⟩

theorem Holds.start : Holds keccak256 actionJson txs (start config) where
  agrees := withConfig_agrees config
  submitted tx htx := by
    obtain ⟨i, e, he, -⟩ := mem_stored.mp htx
    exact absurd he (by unfold MempoolHistory.start withConfig; simp)
  within _ h := absurd h List.not_mem_nil
  senders _ h := absurd h List.not_mem_nil

/-- A transaction that is submitted joins the others. -/
theorem Holds.submit (h : Holds keccak256 actionJson txs s) {tx : SignedTx α} (htx : tx ∈ txs)
    (hapart : ∀ tx' ∈ s.submitted, tx.signer.isSome → tx'.action = tx.action →
      tx'.nonce = tx.nonce → tx'.signer = tx.signer) :
    Holds keccak256 actionJson txs
      ⟨s.pool, if tx.signer.isSome then tx :: s.submitted else s.submitted⟩ := by
  split
  · rename_i hsome
    have hsame : ∀ tx' ∈ s.submitted, tx'.action = tx.action → tx'.nonce = tx.nonce →
        tx' = tx := by
      intro tx' htx' haction hnonce
      have hsigner := hapart tx' htx' hsome haction hnonce
      cases tx
      cases tx'
      simp_all only
    refine ⟨h.agrees, fun t ht => .tail _ (h.submitted t ht), fun t ht => ?_, ?_⟩
    · rcases List.mem_cons.mp ht with rfl | ht
      · exact htx
      · exact h.within t ht
    · intro t ht t' ht' haction hnonce
      rcases List.mem_cons.mp ht with heq | hold <;> rcases List.mem_cons.mp ht' with heq' | hold'
      · rw [heq, heq']
      · subst heq
        exact (hsame t' hold' haction.symm hnonce.symm).symm
      · subst heq'
        exact hsame t hold haction hnonce
      · exact h.senders t hold t' hold' haction hnonce
  · exact h

/-- **Step lemma.** A call whose submission is apart from the others preserves the
invariant. -/
theorem Holds.step (h : Holds keccak256 actionJson txs s)
    (hok : Apart keccak256 actionJson o s call ∧ Submits txs call)
    (hs : step keccak256 actionJson o call s = .ok s') : Holds keccak256 actionJson txs s' := by
  cases call with
  | add tx now =>
    obtain ⟨⟨hsenders, hfree⟩, htx⟩ := hok
    obtain ⟨⟨pool, result⟩, hadd, hs⟩ := bind_inv hs
    obtain rfl := pure_inv hs
    have hevicted := (h.of_leaves h.agrees.evict (evict_leaves s.pool)).submit htx hsenders
    rcases add_cases hadd with (rfl | rfl) | ⟨sender, hsigner, hnew, rfl, hscreen⟩
    · exact (h.of_leaves h.agrees (.refl s.pool)).submit htx hsenders
    · exact hevicted
    · refine ⟨(h.agrees.evict.insert_iff hnew hsigner).mpr (hfree _ sender hscreen), ?_,
        hevicted.within, hevicted.senders⟩
      intro t ht
      rcases mem_stored_insert ht with rfl | hold
      · rw [hsigner]
        exact .head _
      · exact hevicted.submitted t hold
  | remove hash =>
    obtain rfl := pure_inv hs
    exact h.of_leaves (h.agrees.removeInternal hash) (removeInternal_leaves s.pool hash)
  | markInvalid hash =>
    obtain rfl := pure_inv hs
    have hleft := h.of_leaves (h.agrees.removeInternal hash) (removeInternal_leaves s.pool hash)
    exact ⟨h.agrees.markInvalid hash, hleft.submitted, hleft.within, hleft.senders⟩
  | pruneExpired now =>
    obtain rfl := pure_inv hs
    exact h.of_leaves (h.agrees.removeAll _) (removeAll_leaves s.pool _)
  | updateAfterCommit hashes =>
    obtain rfl := pure_inv hs
    exact h.of_leaves (h.agrees.removeAll hashes) (removeAll_leaves s.pool hashes)

/-- **Runs.** A pool whose submissions were all apart represents what it holds, as long as nothing
that was submitted collides. `Holds` is kept by every call: the indices agree, and what is held
was submitted, no two of it alike. -/
theorem reached_represents (hjson : Function.Injective actionJson)
    (hfree : Set.InjOn keccak256 (Set.image (·.hashInput actionJson) txs))
    (h : Run.Reaches (step keccak256 actionJson o)
      (fun s call => Apart keccak256 actionJson o s call ∧ Submits txs call) (start config) s) :
    s.Represents keccak256 actionJson := by
  have hs : Holds keccak256 actionJson txs s :=
    h.invariant Holds.start fun _ _ _ hs hok hstep => hs.step hok hstep
  refine ⟨hs.agrees, hs.submitted, fun ord limit hlimit => hs.agrees.getPending ord hlimit, ?_⟩
  intro tx htx tx' htx' hhash
  obtain ⟨haction, hnonce⟩ := hashInput_inj hjson
    (hfree ⟨tx, hs.within tx htx, rfl⟩ ⟨tx', hs.within tx' htx', rfl⟩ hhash)
  exact hs.senders tx htx tx' htx' haction hnonce

/-! #### Runs of two submissions -/

/-- A function that has no collisions between data of different lengths. -/
def sizeHash (data : List UInt8) : Bytes32 :=
  .filled (UInt8.ofNat data.length)

/-- Two actions, as their texts. -/
def cancelAllText : List UInt8 := utf8Bytes "\x7b\"type\":\"cancelAll\"\x7d"

def noCancelsText : List UInt8 := utf8Bytes "\x7b\"type\":\"cancel\",\"cancels\":[]\x7d"

/-- A first submission, and two that are apart from it in their action only, their sender only
and both. -/
def firstTx : SignedTx (List UInt8) := ⟨cancelAllText, 0, some 1⟩
def replacingTx : SignedTx (List UInt8) := ⟨noCancelsText, 0, some 1⟩
def echoingTx : SignedTx (List UInt8) := ⟨cancelAllText, 0, some 2⟩
def secondTx : SignedTx (List UInt8) := ⟨noCancelsText, 0, some 2⟩

theorem represents_two_submissions : ∃ s : MempoolHistory (List UInt8),
    s.pool.txs.size = 2 ∧ s.Represents sizeHash id := by
  obtain ⟨⟨s, t⟩, hrun, htest⟩ := Exec.exists_of_test
    (x := do
      let s ← step sizeHash id .trap (.add firstTx 0) (start {})
      let t ← step sizeHash id .trap (.add secondTx 1) s
      return (s, t))
    (p := fun p => p.1.submitted = [firstTx] ∧
      p.1.pool.txs.toList.map Prod.snd = [⟨firstTx, 1, 0⟩] ∧ p.2.pool.txs.size = 2)
    (by decide +kernel)
  obtain ⟨s, hs, t, ht, hst⟩ := by simpa only [bind_eq_ok] using hrun
  obtain ⟨rfl, rfl⟩ := pair_inv hst
  obtain ⟨hsubmitted, hentries, hsize⟩ := of_decide_eq_true htest
  have hfirst : Apart sizeHash id .trap (start {}) (.add firstTx 0) :=
    .of_stored (fun tx htx => absurd htx List.not_mem_nil)
      fun h e he => absurd he (by simp [start, withConfig])
  have hsecond : Apart sizeHash id .trap s (.add secondTx 1) := by
    refine .of_stored (fun tx htx => ?_) fun h e he => ?_
    · rw [hsubmitted, List.mem_singleton] at htx
      rw [htx]
      decide +kernel
    · have hmem : e ∈ s.pool.txs.toList.map Prod.snd :=
        List.mem_map.mpr ⟨(h, e), FinMap.mem_toList.mpr he, rfl⟩
      rw [hentries, List.mem_singleton] at hmem
      rw [hmem]
      decide
  have hdistinct : ∀ x ∈ [firstTx, secondTx], ∀ y ∈ [firstTx, secondTx],
      sizeHash (x.hashInput id) = sizeHash (y.hashInput id) → x.hashInput id = y.hashInput id := by
    decide +kernel
  have hfree : Set.InjOn sizeHash
      (Set.image (·.hashInput id) {tx | tx ∈ [firstTx, secondTx]}) := by
    rintro - ⟨x, hx, rfl⟩ - ⟨y, hy, rfl⟩ h
    exact hdistinct x hx y hy h
  exact ⟨t, hsize, reached_represents Function.injective_id hfree
    ((Run.Reaches.refl.tail _ ⟨hfirst, .head _⟩ hs).tail _ ⟨hsecond, .tail _ (.head _)⟩ ht)⟩

/-- A transaction replaced by another one of its nonce is stored and no longer pending, one
that arrived together with another one has no arrival time, and one that another sender had
submitted as well is refused as known. -/
theorem submissions_conflated :
    (∃ s, Run.Reaches (step sizeHash id .trap) (fun _ _ => True) (start {}) s ∧
      s.pool.txs.size = 2 ∧ (s.pool.getPending .sorted 2).length = 1) ∧
    (∃ s, Run.Reaches (step sizeHash id .trap) (fun _ _ => True) (start {}) s ∧
      s.pool.txs.size = 2 ∧ s.pool.byTime.size = 1) ∧
    ∃ s, Run.Reaches (step sizeHash id .trap) (fun _ _ => True) (start {}) s ∧
      echoingTx ∉ s.pool.stored ∧
      (fun r => r.2) <$> s.pool.add sizeHash id .trap echoingTx 1 =
        .ok (.error .alreadyExists) := by
  refine ⟨?_, ?_, ?_⟩
  · obtain ⟨s, hs, ht⟩ := Exec.exists_of_test
      (x := [MempoolCall.add firstTx 0, .add replacingTx 1].foldlM
        (fun s call => step sizeHash id .trap call s) (start {}))
      (p := fun s => s.pool.txs.size = 2 ∧ (s.pool.getPending .sorted 2).length = 1)
      (by decide +kernel)
    exact ⟨s, .of_foldlM (fun _ _ _ => trivial) hs, of_decide_eq_true ht⟩
  · obtain ⟨s, hs, ht⟩ := Exec.exists_of_test
      (x := [MempoolCall.add firstTx 0, .add secondTx 0].foldlM
        (fun s call => step sizeHash id .trap call s) (start {}))
      (p := fun s => s.pool.txs.size = 2 ∧ s.pool.byTime.size = 1)
      (by decide +kernel)
    exact ⟨s, .of_foldlM (fun _ _ _ => trivial) hs, of_decide_eq_true ht⟩
  · obtain ⟨s, hs, ht⟩ := Exec.exists_of_test
      (x := [MempoolCall.add firstTx 0].foldlM
        (fun s call => step sizeHash id .trap call s) (start {}))
      (p := fun s => echoingTx ∉ s.pool.stored ∧
        (fun r => r.2) <$> s.pool.add sizeHash id .trap echoingTx 1 =
          .ok (.error .alreadyExists))
      (by decide +kernel)
    exact ⟨s, .of_foldlM (fun _ _ _ => trivial) hs, of_decide_eq_true ht⟩

/-- Of the sender of `secondTx`, with a gap to its nonce. -/
def gapTx : SignedTx (List UInt8) :=
  ⟨utf8Bytes "\x7b\"type\":\"cancel\",\"cancels\":[\x7b\"a\":0,\"o\":1\x7d]\x7d", 5, some 2⟩

/-- A transaction is refused for its nonce by a pool with room, which keeps what it has. -/
theorem refused_unchanged_gap : ∃ (s : MempoolHistory (List UInt8)) (pool : Mempool (List UInt8)),
    s.pool.add sizeHash id .trap gapTx 2 = .ok (pool, .error (.nonceTooHigh 1 5)) ∧
      s.pool.txs.size = 2 ∧ s.pool.SameContents pool := by
  obtain ⟨⟨s, pool, r⟩, hrun, htest⟩ := Exec.exists_of_test
    (x := do
      let s ← [MempoolCall.add firstTx 0, .add secondTx 1].foldlM
        (fun s call => step sizeHash id .trap call s) (start {})
      let (pool, r) ← s.pool.add sizeHash id .trap gapTx 2
      return (s, pool, r))
    (p := fun x => x.2.2 = .error (.nonceTooHigh 1 5) ∧ x.1.pool.txs.size = 2 ∧
      ¬ x.1.pool.config.maxTotalTxs ≤ x.1.pool.txs.size) (by decide +kernel)
  obtain ⟨s₁, -, hrun⟩ := bind_inv hrun
  obtain ⟨⟨pool₁, r₁⟩, hadd, hrun⟩ := bind_inv hrun
  cases pure_inv hrun
  obtain ⟨rfl, hsize, hroom⟩ := of_decide_eq_true htest
  exact ⟨s, pool, hadd, hsize, (refused_unchanged_iff hadd).mpr fun h => hroom h.2.1⟩

/-- A full pool loses its oldest transaction to one that is then refused for its nonce. -/
theorem refused_evicts : ∃ (s : MempoolHistory (List UInt8)) (pool : Mempool (List UInt8)),
    Run.Reaches (step sizeHash id .trap) (fun _ _ => True)
      (start { maxTotalTxs := 2 }) s ∧
    s.pool.add sizeHash id .trap gapTx 2 = .ok (pool, .error (.nonceTooHigh 1 5)) ∧
    firstTx ∈ s.pool.stored ∧ firstTx ∉ pool.stored ∧ ¬ s.pool.SameContents pool := by
  obtain ⟨⟨s, pool⟩, hrun, htest⟩ := Exec.exists_of_test
    (x := do
      let s ← [MempoolCall.add firstTx 0, .add secondTx 1].foldlM
        (fun s call => step sizeHash id .trap call s) (start { maxTotalTxs := 2 })
      let (pool, r) ← s.pool.add sizeHash id .trap gapTx 2
      if r = .error (.nonceTooHigh 1 5) then return (s, pool) else .error .panic)
    (p := fun p => firstTx ∈ p.1.pool.stored ∧ firstTx ∉ p.2.stored) (by decide +kernel)
  obtain ⟨s, hs, hrun⟩ := bind_inv hrun
  obtain ⟨⟨pool, r⟩, hadd, hrun⟩ := bind_inv hrun
  dsimp only at hrun
  split at hrun
  · rename_i hr
    obtain ⟨rfl, rfl⟩ := pair_inv hrun
    obtain ⟨hin, hout⟩ := of_decide_eq_true htest
    refine ⟨s, pool, .of_foldlM (fun _ _ _ => trivial) hs, ?_, hin, hout, fun hsame => hout ?_⟩
    · rw [hadd, hr]
    · unfold stored
      rw [hsame.txs]
      exact hin
  · cases hrun

end MempoolHistory

end Hypercore
