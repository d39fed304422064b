import Hypercore.Chain.Abci
import Hypercore.Evm.Fees
/-!
# Hypercore.Chain.EvmReplay

Replay protection of raw EVM transactions over runs of blocks.

Nothing between the parser and the interpreter compares a transaction's nonce with
its sender's. What protects from replay is that a success moves the account's nonce
past the transaction's; it does so for transactions whose nonces are in order, and
not at all for a precompile that is called directly.
-/

namespace Hypercore

open Exec Int128

/-! ### Account nonces -/

namespace EvmState

variable {K : Keccak256} {s s' : EvmState} {a b : Address}

theorem getNonce_putAccount (x : EvmAccount) :
    (s.putAccount a x).getNonce b = if a = b then x.nonce else s.getNonce b := by
  unfold getNonce
  rw [accounts_putAccount]
  split <;> rfl

theorem getNonce_touch (s : EvmState) (a b : Address) : (s.touch a).getNonce b = s.getNonce b := by
  unfold touch
  rw [getNonce_putAccount]
  split
  · rename_i h
    rw [← h]
    unfold getOrCreateAccount getNonce
    cases s.accounts[a]? <;> rfl
  · rfl

theorem setBalance_getNonce {v : U256} (h : s.setBalance a v = .ok s') (b : Address) :
    s'.getNonce b = s.getNonce b := by
  obtain ⟨u, -, h⟩ := bind_inv h
  cases pure_inv h
  exact getNonce_touch (s.setUnified u) a b

theorem addBalance_getNonce {v : U256} (h : s.addBalance a v = .ok s') (b : Address) :
    s'.getNonce b = s.getNonce b := by
  obtain ⟨u, -, h⟩ := bind_inv h
  cases pure_inv h
  exact getNonce_touch (s.setUnified u) a b

theorem commitCode_getNonce (code : Option Bytes) :
    (s.commitCode K a code).getNonce b = s.getNonce b := by
  unfold commitCode
  split
  · split
    · unfold setCode
      rw [getNonce_putAccount]
      split
      · rename_i h
        rw [← h]
        unfold getOrCreateAccount getNonce
        dsimp only
        cases s.accounts[a]? <;> rfl
      · rfl
    · rfl
  · rfl

/-- Committing an account writes its nonce, or removes it. -/
theorem commitAccount_getNonce {x : Account} (h : commitAccount K s (a, x) = .ok s')
    (b : Address) : s'.getNonce b =
      if a = b then (if x.selfdestructed then 0 else x.nonce) else s.getNonce b := by
  unfold commitAccount at h
  cases hx : x.selfdestructed with
  | true =>
    simp only [hx, if_true] at h
    cases pure_inv h
    unfold getNonce deleteAccount
    dsimp only
    rw [FinMap.get_erase]
    split <;> rfl
  | false =>
    simp only [hx, Bool.false_eq_true, if_false] at h
    obtain ⟨t, ht, h⟩ := bind_inv h
    cases pure_inv h
    have hfold : ∀ t : EvmState,
        (x.storage.foldl (fun s q => s.setStorage a q.1 q.2) t).getNonce b = t.getNonce b := by
      intro t
      unfold getNonce
      rw [(foldl_setStorage x.storage t a).2.1]
    rw [hfold, commitCode_getNonce, setNonce, getNonce_putAccount, setBalance_getNonce ht]
    rfl

/-- A commit moves no nonce back if none of its accounts does. -/
theorem commit_getNonce {changes : Changes} (hkeys : (changes.map Prod.fst).Nodup)
    (hup : ∀ p ∈ changes, s.getNonce p.1 ≤ if p.2.selfdestructed then 0 else p.2.nonce)
    (h : s.commit K changes = .ok s') :
    (∀ b, s.getNonce b ≤ s'.getNonce b) ∧
      ∀ p ∈ changes, s'.getNonce p.1 = if p.2.selfdestructed then 0 else p.2.nonce := by
  induction changes generalizing s with
  | nil =>
    cases h
    exact ⟨fun _ => le_refl _, by simp⟩
  | cons p changes ih =>
    obtain ⟨a, x⟩ := p
    obtain ⟨hfresh, hkeys⟩ := List.nodup_cons.mp hkeys
    obtain ⟨t, ht, h⟩ := commit_cons_eq_ok.mp h
    have hone := commitAccount_getNonce ht
    have hne : ∀ q ∈ changes, a ≠ q.1 := fun q hq heq =>
      hfresh (List.mem_map.mpr ⟨q, hq, heq.symm⟩)
    obtain ⟨hhead, htail⟩ := List.forall_mem_cons.mp hup
    obtain ⟨hge, hset⟩ := ih hkeys (fun q hq => by
      rw [hone, if_neg (hne q hq)]
      exact htail q hq) h
    constructor
    · intro b
      refine le_trans ?_ (hge b)
      rw [hone]
      split
      · rename_i hab
        rw [← hab]
        exact hhead
      · exact le_refl _
    · rw [List.forall_mem_cons]
      refine ⟨?_, hset⟩
      -- no later account of the commit writes here
      have hkept : s'.getNonce a = t.getNonce a := by
        refine foldlM_induction (P := fun u => u.getNonce a = t.getNonce a) h rfl ?_
        intro q hq u u' hu hc
        rw [commitAccount_getNonce hc, if_neg fun heq => hne q hq heq.symm, hu]
      rw [hkept, hone, if_pos rfl]

end EvmState

/-! ### The interpreter's nonces -/

/-- What one execution reports of nonces, by the rules of Ethereum: none goes back, an
account that destroys itself was created by this very transaction, and a success moves the
nonce of its sender. -/
structure SequentialResult (s : EvmState) (env : Env) (result : ExecutionResult)
    (changes : Changes) : Prop where
  distinct : (changes.map Prod.fst).Nodup
  forward : ∀ p ∈ changes, p.2.selfdestructed = false → s.getNonce p.1 ≤ p.2.nonce
  fresh : ∀ p ∈ changes, p.2.selfdestructed = true → s.getNonce p.1 = 0
  /-- Short of the largest nonce, where it stays. -/
  bumped : result.isSuccess = true → s.getNonce env.tx.caller + 1 < 2 ^ 64 →
    ∃ p ∈ changes, p.1 = env.tx.caller ∧ p.2.selfdestructed = false ∧
      s.getNonce p.1 < p.2.nonce

/-- An interpreter that keeps nonces by the rules, whatever nonces transactions carry. -/
def Sequential (R : Interpreter) : Prop :=
  ∀ s env result changes, R.transactPreverified s env = .ok (result, changes) →
    SequentialResult s env result changes

theorem Interpreter.sequential_plain : Sequential .plain := by
  intro s env result changes h
  unfold plain at h
  dsimp only at h
  cases ht : env.tx.transactTo with
  | none =>
    rw [ht] at h
    cases h
  | some target =>
    rw [ht] at h
    dsimp only at h
    split at h
    · cases h
    obtain ⟨-, rfl⟩ := Prod.mk.inj (Except.ok.inj h)
    constructor
    case distinct =>
      unfold plainChanges
      rw [List.map_map]
      change (List.map id _).Nodup
      rw [List.map_id]
      exact List.nodup_dedup _
    case forward =>
      intro p hp _
      obtain ⟨a, -, rfl⟩ := List.mem_map.mp hp
      exact Nat.le_add_right _ _
    case fresh =>
      intro p hp hd
      obtain ⟨a, -, rfl⟩ := List.mem_map.mp hp
      cases hd
    case bumped =>
      intro _ _
      refine ⟨(env.tx.caller, plainAccount s env env.tx.caller),
        List.mem_map.mpr ⟨env.tx.caller, by simp, rfl⟩, rfl, rfl, ?_⟩
      change s.getNonce env.tx.caller < s.getNonce env.tx.caller + _
      rw [if_pos rfl]
      exact Nat.lt_succ_self _

namespace EvmExecutor

variable {K : Keccak256} {R : Interpreter} {P : Precompiles} {x x' : EvmExecutor}
  {tx : EvmTransaction} {r : Except EvmExecutorError EvmExecutionResult}

theorem settleFee_getNonce {sender : Address} {gas price : UInt64} {charged : Bool}
    (h : x.settleFee sender gas price charged = .ok x') (a : Address) :
    x'.db.getNonce a = x.db.getNonce a := by
  unfold settleFee applyGasFee at h
  split at h
  · dsimp only at h
    split at h
    · cases pure_inv h
      rfl
    · obtain ⟨⟨done, db⟩, hdebit, h⟩ := bind_inv h
      obtain ⟨⟨done', u⟩, -, hdebit⟩ := bind_inv hdebit
      obtain ⟨-, rfl⟩ := pair_inv hdebit
      dsimp only at h
      split at h
      · obtain ⟨db', hadd, h⟩ := bind_inv h
        cases pure_inv h
        exact EvmState.addBalance_getNonce hadd a
      · cases pure_inv h
        rfl
  · cases pure_inv h
    rfl

theorem fundSender_getNonce {commitState : Bool} (h : x.fundSender tx commitState = .ok x')
    (a : Address) : x'.db.getNonce a = x.db.getNonce a := by
  unfold fundSender at h
  split at h
  · obtain ⟨db, hdb, h⟩ := bind_inv h
    cases pure_inv h
    exact EvmState.setBalance_getNonce hdb a
  · cases pure_inv h
    rfl

theorem answer_success {result : ExecutionResult} {e : EvmExecutionResult}
    (h : result.answer = .ok e) (hs : e.success = true) : result.isSuccess = true := by
  cases result with
  | success gas output logs => rfl
  | revert gas output =>
    cases h
    cases hs
  | halt gas reason => cases h

/-- **Nonces of a call.** None goes back, and the sender's moves when the interpreter ran
the transaction successfully. -/
theorem executeTx_getNonce (hR : Sequential R) (h : x.executeTx K R P tx = .ok (r, x')) :
    (∀ a, x.db.getNonce a ≤ x'.db.getNonce a) ∧
    ∀ e, r = .ok e → e.success = true → tx.target.bind PrecompileAddress.fromAddress = none →
      x.db.getNonce tx.sender + 1 < 2 ^ 64 →
      x.db.getNonce tx.sender < x'.db.getNonce tx.sender := by
  obtain ⟨e, -, rfl, rfl⟩ | ⟨-, ⟨p, e, -, -, rfl, rfl⟩ | ⟨p, result, hp, -, -, hfee⟩ |
      ⟨hp, x₁, hfund, ⟨e, -, rfl, rfl⟩ | ⟨result, changes, x₂, hr, hc, rfl, hfee⟩⟩⟩ :=
    executeTx_cases h
  · exact ⟨fun _ => le_refl _, fun _ h => by cases h⟩
  · exact ⟨fun _ => le_refl _, fun _ h => by cases h⟩
  · refine ⟨fun a => (settleFee_getNonce hfee a).ge, fun _ _ _ hk => ?_⟩
    rw [hp] at hk
    cases hk
  · exact ⟨fun a => (fundSender_getNonce hfund a).ge, fun _ h => by cases h⟩
  · have hs := hR _ _ _ _ hr
    obtain ⟨db, hdb, hc⟩ := bind_inv hc
    cases pure_inv hc
    have hup : ∀ p ∈ changes, x₁.db.getNonce p.1 ≤
        if p.2.selfdestructed then 0 else p.2.nonce := by
      intro p hp
      cases hd : p.2.selfdestructed with
      | true => exact (hs.fresh p hp hd).le
      | false => exact hs.forward p hp hd
    obtain ⟨hge, hset⟩ := EvmState.commit_getNonce hs.distinct hup hdb
    have hfund := fundSender_getNonce hfund
    have hfee := settleFee_getNonce hfee
    refine ⟨fun a => ?_, fun e he hsucc _ hmax => ?_⟩
    · rw [hfee, ← hfund]
      exact hge a
    · rw [← hfund] at hmax ⊢
      obtain ⟨p, hp, hcaller, hd, hlt⟩ := hs.bumped (answer_success he hsucc) hmax
      have hwritten := hset p hp
      rw [hd, hcaller] at hwritten
      rw [hcaller] at hlt
      rw [hfee, show (x₁.env tx).tx.caller = tx.sender from rfl] at *
      exact hlt.trans_eq hwritten.symm

end EvmExecutor

/-! ### Runs of blocks -/

/-- A block to finalize: its transactions, each with the clock reading it would use, and the
order in which the node's hash maps iterate. -/
structure BlockRequest where
  height : BlockHeight
  timestamp : Timestamp
  txs : List (Bytes × Nat)
  ord : HashOrder

/-- An EVM transaction that was executed successfully, with the nonce of its sender just
before. -/
structure Executed where
  raw : Bytes
  tx : EvmTransaction
  accountNonce : Nat

namespace CometBftApp

variable (N : NodeParts)

/-- The EVM transaction that bytes stand for. -/
def evmTransaction (raw : Bytes) : Option EvmTransaction :=
  match N.decoders.transaction raw with
  | some _ => none
  | none =>
    match N.decoders.decodeRawTransaction raw with
    | .ok tx => tx
    | .error _ => none

/-- The nonce of an EVM account. -/
def evmNonce (c : CometBftApp) (a : Address) : Nat :=
  match c.evmExecutor with
  | some x => x.db.getNonce a
  | none => 0

/-- The success that an outcome reports, if it is one. -/
def executed (c : CometBftApp) (raw : Bytes) (outcome : TxOutcome) : List Executed :=
  match outcome, evmTransaction N raw with
  | .evm (.ok result), some tx =>
    if result.success then [⟨raw, tx, c.evmNonce tx.sender⟩] else []
  | _, _ => []

/-- Deliver transactions and note what an observer makes of each, newest first. -/
def observeTxs {α : Type} (observe : CometBftApp → Bytes → TxOutcome → List α)
    (timestamp : Timestamp) :
    List (Bytes × Nat) → CometBftApp × List α → Exec (CometBftApp × List α)
  | [], y => return y
  | (raw, now) :: rest, (c, log) => do
    let (outcome, c') ← c.deliverTx N timestamp raw now
    observeTxs observe timestamp rest (c', observe c raw outcome ++ log)

/-- `finalize_block` under observation. -/
def observeBlock {α : Type} (observe : CometBftApp → Bytes → TxOutcome → List α)
    (block : BlockRequest) (y : CometBftApp × List α) : Exec (CometBftApp × List α) :=
  if y.1.app.height = block.height then return y
  else do
    let c := { y.1 with app := y.1.app.beginBlock block.height block.timestamp }
    let (c, log) ← observeTxs N observe block.timestamp block.txs (c, y.2)
    return (← c.endBlock N block.ord, log)

/-- `finalize_block`, with a record of the successes. -/
def recordBlock (block : BlockRequest) (y : CometBftApp × List Executed) :
    Exec (CometBftApp × List Executed) :=
  observeBlock N (executed N) block y

/-- An EVM transaction in order: it carries its sender's nonce, short of the largest one, and
does not call a precompile directly. -/
def InOrder (c : CometBftApp) (raw : Bytes) : Prop :=
  match evmTransaction N raw with
  | some tx => tx.nonce.toNat = c.evmNonce tx.sender ∧ tx.nonce.toNat + 1 < 2 ^ 64 ∧
    tx.target.bind PrecompileAddress.fromAddress = none
  | none => True

instance (c : CometBftApp) (raw : Bytes) : Decidable (c.InOrder N raw) :=
  match h : evmTransaction N raw with
  | some tx => decidable_of_iff (tx.nonce.toNat = c.evmNonce tx.sender ∧
      tx.nonce.toNat + 1 < 2 ^ 64 ∧ tx.target.bind PrecompileAddress.fromAddress = none) (by
    unfold InOrder
    rw [h])
  | none => .isTrue (by
    unfold InOrder
    rw [h]
    trivial)

/-- All EVM transactions of a list are in order at their turn. -/
def TxsInOrder (timestamp : Timestamp) : List (Bytes × Nat) → CometBftApp → Prop
  | [], _ => True
  | (raw, now) :: rest, c => c.InOrder N raw ∧
    After (c.deliverTx N timestamp raw now) fun y => TxsInOrder timestamp rest y.2

/-- All EVM transactions of a block are in order at their turn. -/
def BlockInOrder (y : CometBftApp × List Executed) (block : BlockRequest) : Prop :=
  TxsInOrder N block.timestamp block.txs
    { y.1 with app := y.1.app.beginBlock block.height block.timestamp }

def TxsInOrder.decide (timestamp : Timestamp) : (txs : List (Bytes × Nat)) →
    (c : CometBftApp) → Decidable (TxsInOrder N timestamp txs c)
  | [], _ => .isTrue trivial
  | (raw, now) :: rest, c =>
    have : ∀ c, Decidable (TxsInOrder N timestamp rest c) :=
      TxsInOrder.decide timestamp rest
    inferInstanceAs (Decidable (c.InOrder N raw ∧
      After (c.deliverTx N timestamp raw now) fun y => TxsInOrder N timestamp rest y.2))

instance (y : CometBftApp × List Executed) (block : BlockRequest) :
    Decidable (BlockInOrder N y block) := TxsInOrder.decide N _ _ _

variable {N} {c c' : CometBftApp} {log log' : List Executed}

section Observation

variable {α : Type} {observe : CometBftApp → Bytes → TxOutcome → List α} {l l' : List α}
variable {timestamp : Timestamp} {block : BlockRequest}

theorem observeTxs_cons {raw : Bytes} {now : Nat} {rest : List (Bytes × Nat)} :
    observeTxs N observe timestamp ((raw, now) :: rest) (c, l) = (do
      let y ← c.deliverTx N timestamp raw now
      observeTxs N observe timestamp rest (y.2, observe c raw y.1 ++ l)) := rfl

/-- What every delivery preserves, a list of them does. -/
theorem observeTxs_invariant {P : CometBftApp → Prop} {txs : List (Bytes × Nat)}
    (hstep : ∀ c raw now y, P c → c.deliverTx N timestamp raw now = .ok y → P y.2) (hc : P c)
    (h : observeTxs N observe timestamp txs (c, l) = .ok (c', l')) : P c' := by
  induction txs generalizing c l with
  | nil =>
    obtain ⟨rfl, -⟩ := pair_inv h
    exact hc
  | cons p txs ih =>
    obtain ⟨y, hy, h⟩ := bind_inv h
    exact ih (hstep _ _ _ y hc hy) h

/-- What is observed are the transactions that are delivered. -/
theorem observeTxs_delivers {txs : List (Bytes × Nat)}
    (h : observeTxs N observe timestamp txs (c, l) = .ok (c', l')) :
    ∃ outcomes, c.deliverTxs N timestamp txs = .ok (outcomes, c') := by
  induction txs generalizing c l with
  | nil =>
    obtain ⟨rfl, -⟩ := pair_inv h
    exact ⟨[], rfl⟩
  | cons p txs ih =>
    obtain ⟨raw, now⟩ := p
    obtain ⟨⟨outcome, d⟩, hd, h⟩ := bind_inv h
    obtain ⟨outcomes, ho⟩ := ih h
    refine ⟨outcome :: outcomes, ?_⟩
    unfold deliverTxs
    rw [hd, ok_bind]
    dsimp only
    rw [ho]
    rfl

theorem observeBlock_same (h : c.app.height = block.height) :
    observeBlock N observe block (c, l) = .ok (c, l) := if_pos h

theorem observeBlock_new (h : c.app.height ≠ block.height) :
    observeBlock N observe block (c, l) = (do
      let r ← observeTxs N observe block.timestamp block.txs
        ({ c with app := c.app.beginBlock block.height block.timestamp }, l)
      let e ← r.1.endBlock N block.ord
      return (e, r.2)) := if_neg h

/-- The blocks observed are those that `finalize_block` executes. -/
theorem observeBlock_finalizes (h : observeBlock N observe block (c, l) = .ok (c', l')) :
    ∃ outcomes, c.finalizeBlock N block.height block.timestamp block.txs block.ord =
      .ok (outcomes, c') := by
  unfold finalizeBlock
  by_cases hsame : c.app.height = block.height
  · rw [observeBlock_same hsame] at h
    obtain ⟨rfl, -⟩ := Prod.mk.inj (Except.ok.inj h)
    exact ⟨[], if_pos hsame⟩
  · rw [observeBlock_new hsame] at h
    obtain ⟨⟨d, l⟩, hd, h⟩ := bind_inv h
    obtain ⟨e, he, h⟩ := bind_inv h
    obtain ⟨rfl, -⟩ := pair_inv h
    obtain ⟨outcomes, ho⟩ := observeTxs_delivers hd
    refine ⟨outcomes, ?_⟩
    dsimp only at ho he ⊢
    rw [if_neg hsame, ho, ok_bind]
    dsimp only
    rw [he]
    rfl

end Observation

/-- The executor that delivers is the application's, nonces included. -/
theorem executor_nonce {x : EvmExecutor} (h : c.executor = some x) (a : Address) :
    x.db.getNonce a = c.evmNonce a := by
  unfold executor at h
  unfold evmNonce
  cases hx : c.evmExecutor with
  | none =>
    rw [hx] at h
    cases h
  | some y =>
    rw [hx] at h
    cases h
    rfl

/-- **Delivery.** No nonce goes back; and what is recorded is the EVM transaction delivered,
which has moved its sender's nonce if it was in order. -/
theorem deliverTx_records {timestamp : Timestamp} {raw : Bytes} {now : Nat} {outcome : TxOutcome}
    (hR : Sequential N.interpreter) (hok : c.InOrder N raw)
    (h : c.deliverTx N timestamp raw now = .ok (outcome, c')) :
    (∀ a, c.evmNonce a ≤ c'.evmNonce a) ∧
    (c.executed N raw outcome = [] ∨ ∃ tx, evmTransaction N raw = some tx ∧
      c.executed N raw outcome = [⟨raw, tx, c.evmNonce tx.sender⟩] ∧
      tx.nonce.toNat = c.evmNonce tx.sender ∧
      c.evmNonce tx.sender < c'.evmNonce tx.sender) := by
  have hsame : c'.evmExecutor = c.evmExecutor → ∀ a, c.evmNonce a ≤ c'.evmNonce a := by
    intro h a
    unfold evmNonce
    rw [h]
  unfold deliverTx at h
  cases htx : N.decoders.transaction raw with
  | some tx =>
    rw [htx] at h
    obtain ⟨⟨result, app⟩, -, h⟩ := bind_inv h
    obtain ⟨rfl, rfl⟩ := pair_inv h
    exact ⟨hsame rfl, .inl rfl⟩
  | none =>
    rw [htx] at h
    obtain ⟨decoded, hdec, h⟩ := bind_inv h
    cases decoded with
    | none =>
      obtain ⟨rfl, rfl⟩ := pair_inv h
      exact ⟨hsame rfl, .inl rfl⟩
    | some tx =>
      have hevm : evmTransaction N raw = some tx := by
        unfold evmTransaction
        rw [htx, hdec]
      unfold InOrder at hok
      rw [hevm] at hok
      obtain ⟨hnonce, hmax, hdirect⟩ := hok
      dsimp only at h
      cases hx : c.executor with
      | none =>
        rw [hx] at h
        obtain ⟨rfl, rfl⟩ := pair_inv h
        exact ⟨hsame rfl, .inl rfl⟩
      | some x =>
        rw [hx] at h
        obtain ⟨⟨result, x'⟩, hexec, h⟩ := bind_inv h
        obtain ⟨hge, hbump⟩ := EvmExecutor.executeTx_getNonce hR hexec
        have hn := executor_nonce hx
        cases result with
        | error e =>
          obtain ⟨rfl, rfl⟩ := pair_inv h
          exact ⟨fun a => (hn a).symm.trans_le (hge a), .inl rfl⟩
        | ok result =>
          obtain ⟨x'', hcommit, h⟩ := bind_inv h
          obtain ⟨rfl, rfl⟩ := pair_inv h
          obtain ⟨number, -, hcommit⟩ := bind_inv hcommit
          cases pure_inv hcommit
          refine ⟨fun a => (hn a).symm.trans_le (hge a), ?_⟩
          cases hsucc : result.success with
          | false =>
            left
            unfold executed
            rw [hevm]
            exact if_neg (by simp [hsucc])
          | true =>
            right
            refine ⟨tx, hevm, ?_, hnonce, ?_⟩
            · unfold executed
              rw [hevm]
              exact if_pos hsucc
            · rw [← hn] at hnonce ⊢
              exact hbump result rfl hsucc hdirect (hnonce ▸ hmax)

/-- The sender and nonce of an executed transaction. -/
def Executed.sentAs (e : Executed) : Address × Nat := (e.tx.sender, e.tx.nonce.toNat)

/-- Everything recorded was decoded from its bytes and executed at its sender's nonce, which
has moved on; and no sender used a nonce twice. -/
structure EvmHistoryOk (N : NodeParts) (y : CometBftApp × List Executed) : Prop where
  decoded : ∀ e ∈ y.2, evmTransaction N e.raw = some e.tx
  inOrder : ∀ e ∈ y.2, e.tx.nonce.toNat = e.accountNonce
  spent : ∀ e ∈ y.2, e.tx.nonce.toNat < y.1.evmNonce e.tx.sender
  nodup : (y.2.map Executed.sentAs).Nodup

theorem EvmHistoryOk.forward (h : EvmHistoryOk N (c, log))
    (hge : ∀ a, c.evmNonce a ≤ c'.evmNonce a) : EvmHistoryOk N (c', log) :=
  ⟨h.decoded, h.inOrder, fun e he => (h.spent e he).trans_le (hge _), h.nodup⟩

/-- **Step lemma.** Transactions in order keep the history in order. -/
theorem EvmHistoryOk.observeTxs {timestamp : Timestamp} {txs : List (Bytes × Nat)}
    (hR : Sequential N.interpreter) (h : EvmHistoryOk N (c, log))
    (hok : TxsInOrder N timestamp txs c)
    (hrun : CometBftApp.observeTxs N (executed N) timestamp txs (c, log) = .ok (c', log')) :
    EvmHistoryOk N (c', log') := by
  induction txs generalizing c log with
  | nil =>
    obtain ⟨rfl, rfl⟩ := pair_inv hrun
    exact h
  | cons p txs ih =>
    obtain ⟨raw, now⟩ := p
    obtain ⟨hhead, htail⟩ := hok
    obtain ⟨⟨outcome, d⟩, hd, hrun⟩ := bind_inv hrun
    obtain ⟨hge, hrec⟩ := deliverTx_records hR hhead hd
    refine ih ?_ (htail _ hd) hrun
    have hkept := h.forward hge
    rcases hrec with hnone | ⟨tx, hevm, hone, hnonce, hlt⟩
    · rw [hnone]
      exact hkept
    · rw [hone]
      constructor
      case decoded => exact List.forall_mem_cons.mpr ⟨hevm, hkept.decoded⟩
      case inOrder => exact List.forall_mem_cons.mpr ⟨hnonce, hkept.inOrder⟩
      case spent => exact List.forall_mem_cons.mpr ⟨hnonce.trans_lt hlt, hkept.spent⟩
      case nodup =>
        refine List.nodup_cons.mpr ⟨fun hmem => ?_, h.nodup⟩
        -- a nonce used before lies below the account's
        obtain ⟨e, he, heq⟩ := List.mem_map.mp hmem
        obtain ⟨hsender, hused⟩ := Prod.mk.inj heq
        have hspent := h.spent e he
        dsimp only at hsender hused hspent
        rw [hsender, hused, hnonce] at hspent
        exact lt_irrefl _ hspent

theorem EvmHistoryOk.recordBlock {block : BlockRequest} {y y' : CometBftApp × List Executed}
    (hR : Sequential N.interpreter) (h : EvmHistoryOk N y) (hok : BlockInOrder N y block)
    (hrun : CometBftApp.recordBlock N block y = .ok y') : EvmHistoryOk N y' := by
  obtain ⟨c, log⟩ := y
  unfold CometBftApp.recordBlock at hrun
  by_cases hsame : c.app.height = block.height
  · rw [observeBlock_same hsame] at hrun
    cases hrun
    exact h
  · rw [observeBlock_new hsame] at hrun
    obtain ⟨⟨d, l⟩, hd, hrun⟩ := bind_inv hrun
    obtain ⟨e, he, hrun⟩ := bind_inv hrun
    cases pure_inv hrun
    obtain ⟨app, -, he⟩ := bind_inv he
    cases pure_inv he
    have hbegun : EvmHistoryOk N
        ({ c with app := c.app.beginBlock block.height block.timestamp }, log) :=
      h.forward fun _ => le_refl _
    exact (hbegun.observeTxs hR hok hd).forward fun _ => le_refl _

/-- **EVM replay protection.** In every run of blocks whose EVM transactions are in order at their
turn, no raw transaction is executed successfully twice, and each is executed at its sender's
nonce. A success moves the account's nonce past the transaction's and nothing moves it back
(`EvmHistoryOk`). -/
theorem evm_no_replay (hR : Sequential N.interpreter) {c₀ : CometBftApp}
    (h : Run.Reaches (recordBlock N) (BlockInOrder N) (c₀, []) (c, log)) :
    (log.map Executed.raw).Nodup ∧ ∀ e ∈ log, e.tx.nonce.toNat = e.accountNonce := by
  have hinv : EvmHistoryOk N (c, log) :=
    h.invariant (P := EvmHistoryOk N) ⟨by simp, by simp, by simp, .nil⟩
      fun _ _ _ hy hok hs => hy.recordBlock hR hok hs
  refine ⟨?_, hinv.inOrder⟩
  rw [List.nodup_map_iff_inj_on hinv.nodup.of_map]
  intro e he e' he' hraw
  have htx := (hinv.decoded e he).symm.trans (hraw ▸ hinv.decoded e' he')
  exact List.inj_on_of_nodup_map hinv.nodup he he'
    (congrArg (fun tx : EvmTransaction => (tx.sender, tx.nonce.toNat)) (Option.some.inj htx))

/-- A node with the plain interpreter, whose parsers know one signed transfer. -/
def sampleParts : NodeParts where
  decoders := AppState.sampleDecoders
  keccak := EvmState.tagHash
  rootHash _ := 0
  interpreter := .plain
  precompiles _ := EvmExecutor.echoed

/-- A fresh node with an executor. -/
def freshNode (now : Nat) : CometBftApp where
  app := .new
  evmExecutor := some (.withUnifiedState .new 1337 now)

/-- A run of blocks from a fresh node, each with the given EVM transactions, that checks a
condition on each block. -/
def sampleRun (blocks : List (List Bytes))
    (ok : CometBftApp × List Executed → BlockRequest → Prop)
    [∀ y block, Decidable (ok y block)] : Exec (CometBftApp × List Executed) :=
  (blocks.zipIdx.map fun p => (⟨p.2 + 1, 1000 * p.2, p.1.map fun raw => (raw, p.2), .sorted⟩ :
    BlockRequest)).foldlM
      (fun y block => if ok y block then recordBlock sampleParts block y else .error .panic)
      (freshNode 0, [])

/-- Two transactions of one sender in order are executed once each. -/
theorem evm_no_replay_twice : ∃ c log,
    Run.Reaches (recordBlock sampleParts) (BlockInOrder sampleParts) (freshNode 0, [])
      (c, log) ∧ log.length = 2 ∧ (log.map Executed.raw).Nodup ∧
      ∀ e ∈ log, e.tx.nonce.toNat = e.accountNonce := by
  obtain ⟨⟨c, log⟩, hrun, hlen⟩ := exists_of_test
    (x := sampleRun [[AppState.signedTransfer], [[0x00], AppState.secondTransfer]]
      (BlockInOrder sampleParts))
    (p := fun y => y.2.length = 2) (by decide +kernel)
  have hr := Run.Reaches.of_checked (fun y block => inferInstance) hrun
  exact ⟨c, log, hr, of_decide_eq_true hlen, evm_no_replay Interpreter.sequential_plain hr⟩

/-- The same raw transaction, included in two blocks, is executed successfully twice, the
second time behind its sender's nonce. -/
theorem evm_replayed : ∃ c log, Sequential sampleParts.interpreter ∧
    Run.Reaches (recordBlock sampleParts) (fun _ _ => True) (freshNode 0, []) (c, log) ∧
    log.map Executed.raw = [AppState.signedTransfer, AppState.signedTransfer] ∧
    log.map (fun e => (e.tx.nonce, e.accountNonce)) = [(0, 1), (0, 0)] := by
  obtain ⟨⟨c, log⟩, hrun, htest⟩ := exists_of_test
    (x := sampleRun [[AppState.signedTransfer], [AppState.signedTransfer]] fun _ _ => True)
    (p := fun y => y.2.map Executed.raw = [AppState.signedTransfer, AppState.signedTransfer] ∧
      y.2.map (fun e => (e.tx.nonce, e.accountNonce)) = [(0, 1), (0, 0)])
    (by decide +kernel)
  obtain ⟨hraw, hnonces⟩ := of_decide_eq_true htest
  have hr : Run.Reaches _ (fun _ _ => True) _ _ :=
    Run.Reaches.of_checked (fun _ _ => inferInstance) hrun
  exact ⟨c, log, Interpreter.sequential_plain, hr, hraw, hnonces⟩

end CometBftApp

end Hypercore
