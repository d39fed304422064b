import Hypercore.Evm.Executor
import Hypercore.Lib.Transfers
/-!
# Hypercore.Evm.Fees

What a transaction costs with fees enforced.

The interpreter takes the fee from the sender and pays the coinbase, which is the
fee collector, what the base fee leaves of it (`London`); the executor then moves
the whole fee once more. The two agree only on a fee of zero. A precompile that is
called directly is answered without the interpreter: its fee is moved once, and its
value is not moved at all.
-/

namespace Hypercore

open Exec Int128

/-! ### Committed balances -/

/-- The native balance that the interpreter leaves an account. -/
def Changes.postRaw (s : EvmState) (changes : Changes) (a : Address) : Int :=
  match changes.lookup a with
  | some x => if x.selfdestructed then 0 else x.balance.val
  | none => s.unifiedState.nativeRaw a

/-- The native balance that its commit leaves. -/
def Changes.committedRaw (s : EvmState) (changes : Changes) (a : Address) : Int :=
  match changes.lookup a with
  | some x => if x.selfdestructed then s.unifiedState.nativeRaw a else storedRaw x.balance.val
  | none => s.unifiedState.nativeRaw a

namespace EvmState

variable {K : Keccak256} {s s' : EvmState} {a b : Address}

/-- What a commit leaves of one account's balance. -/
def accountRaw (s : EvmState) (a : Address) (x : Account) : Int :=
  if x.selfdestructed then s.unifiedState.nativeRaw a else storedRaw x.balance.val

/-- The balance of an account in a commit has room in its total. -/
def Fits (s : EvmState) (p : Address × Account) : Prop :=
  p.2.selfdestructed = false → s.totalWith p.1 (storedRaw p.2.balance.val) < 2 ^ 127

/-- Committing one account does to native balances what it says. -/
structure CommitsBalance (s s' : EvmState) (a : Address) (x : Account) : Prop where
  native : s'.unifiedState.Native
  raw : ∀ b, s'.unifiedState.nativeRaw b =
    if a = b then s.accountRaw a x else s.unifiedState.nativeRaw b
  total : ∀ b, a ≠ b → s'.unifiedState.nativeTotal b = s.unifiedState.nativeTotal b
  core : ∀ b, s'.unifiedState.coreRaw b nativeTokenIndex =
    s.unifiedState.coreRaw b nativeTokenIndex

theorem unifiedState_commitCode (code : Option Bytes) :
    (s.commitCode K a code).unifiedState = s.unifiedState := by
  unfold commitCode
  split
  · split <;> rfl
  · rfl

theorem commitAccount_balance (hn : s.unifiedState.Native) {x : Account}
    (h : commitAccount K s (a, x) = .ok s') : s.Fits (a, x) ∧ CommitsBalance s s' a x := by
  unfold commitAccount at h
  cases hx : x.selfdestructed with
  | true =>
    simp only [hx, if_true] at h
    cases pure_inv h
    have hfit : s.Fits (a, x) := fun hk => Bool.noConfusion (hx.symm.trans hk)
    refine ⟨hfit, hn, fun b => ?_, fun _ _ => rfl, fun _ => rfl⟩
    unfold accountRaw
    rw [hx, if_pos rfl]
    split
    · rename_i hab
      rw [hab]
      rfl
    · rfl
  | false =>
    obtain ⟨hfit, rfl⟩ := (commitAccount_written hn hx).mp h
    have hu : (x.storage.foldl (fun s q => s.setStorage a q.1 q.2)
        (written K s a x)).unifiedState = s.unifiedState.settle a (storedRaw x.balance.val) := by
      rw [(foldl_setStorage x.storage _ a).1, written, unifiedState_commitCode]
      rfl
    refine ⟨fun _ => hfit, ?_, fun b => ?_, fun b hab => ?_, fun b => ?_⟩
    · rw [hu]
      exact hn.settle (Int.natCast_nonneg _) hfit
    · rw [hu, UnifiedState.nativeRaw_settle]
      unfold accountRaw
      rw [hx]
      rfl
    · rw [hu, UnifiedState.nativeTotal_settle, if_neg hab]
    · rw [hu, UnifiedState.coreRaw_settle]

theorem exists_commitAccount (hn : s.unifiedState.Native) {x : Account} (h : s.Fits (a, x)) :
    ∃ s', commitAccount K s (a, x) = .ok s' := by
  cases hx : x.selfdestructed with
  | true => exact ⟨s.deleteAccount a, by simp [commitAccount, hx]⟩
  | false => exact ⟨_, (commitAccount_written hn hx).mpr ⟨h hx, rfl⟩⟩

theorem CommitsBalance.fits_iff {x : Account} (h : CommitsBalance s s' a x)
    {p : Address × Account} (hp : a ≠ p.1) : s'.Fits p ↔ s.Fits p := by
  unfold Fits totalWith
  rw [h.total p.1 hp, h.raw, if_neg hp]

/-- **The balances of a commit.** It returns when every balance has room, and then each
account has what the commit leaves it. -/
theorem commit_balances {changes : Changes} (hn : s.unifiedState.Native)
    (hkeys : (changes.map Prod.fst).Nodup) :
    (∀ s', s.commit K changes = .ok s' → s'.unifiedState.Native ∧
      (∀ a, s'.unifiedState.nativeRaw a = changes.committedRaw s a) ∧
      ∀ a, s'.unifiedState.coreRaw a nativeTokenIndex =
        s.unifiedState.coreRaw a nativeTokenIndex) ∧
    ((∃ s', s.commit K changes = .ok s') ↔ ∀ p ∈ changes, s.Fits p) := by
  induction changes generalizing s with
  | nil =>
    refine ⟨fun s' h => ?_, fun _ => by simp, fun _ => ⟨s, rfl⟩⟩
    cases h
    exact ⟨hn, fun _ => rfl, fun _ => rfl⟩
  | cons p changes ih =>
    obtain ⟨a, x⟩ := p
    obtain ⟨hfresh, hkeys⟩ := List.nodup_cons.mp hkeys
    have hne : ∀ q ∈ changes, a ≠ q.1 := fun q hq heq =>
      hfresh (List.mem_map.mpr ⟨q, hq, heq.symm⟩)
    have hrest : ∀ t, CommitsBalance s t a x →
        ((∀ q ∈ changes, t.Fits q) ↔ ∀ q ∈ changes, s.Fits q) :=
      fun t ht => forall₂_congr fun q hq => ht.fits_iff (hne q hq)
    constructor
    · intro s' h
      obtain ⟨t, ht, h⟩ := commit_cons_eq_ok.mp h
      obtain ⟨-, hb⟩ := commitAccount_balance hn ht
      obtain ⟨hn', hraw, hcore⟩ := (ih hb.native hkeys).1 s' h
      refine ⟨hn', fun b => ?_, fun b => (hcore b).trans (hb.core b)⟩
      rw [hraw]
      unfold Changes.committedRaw
      rw [List.lookup_cons]
      by_cases hab : a = b
      · have hnone : changes.lookup b = none := by
          rw [List.lookup_eq_none_iff]
          intro q hq
          rw [bne_iff_ne, ← hab]
          exact hne q hq
        rw [hnone, hab, beq_self_eq_true]
        dsimp only
        rw [hb.raw, if_pos hab, hab]
        rfl
      · rw [beq_eq_false_iff_ne.mpr fun h => hab h.symm]
        dsimp only
        rw [hb.raw, if_neg hab]
    · rw [List.forall_mem_cons]
      constructor
      · rintro ⟨s', h⟩
        obtain ⟨t, ht, h⟩ := commit_cons_eq_ok.mp h
        obtain ⟨hfit, hb⟩ := commitAccount_balance hn ht
        exact ⟨hfit, (hrest t hb).mp ((ih hb.native hkeys).2.mp ⟨s', h⟩)⟩
      · rintro ⟨hfit, hall⟩
        obtain ⟨t, ht⟩ := exists_commitAccount (K := K) hn hfit
        obtain ⟨-, hb⟩ := commitAccount_balance hn ht
        obtain ⟨s', h⟩ := (ih hb.native hkeys).2.mpr ((hrest t hb).mpr hall)
        exact ⟨s', commit_cons_eq_ok.mpr ⟨t, ht, h⟩⟩

end EvmState

/-! ### The interpreter's accounting -/

/-- The value that an execution moves: its own value, and what contracts send on. -/
abbrev Moves := EvmState → Env → List (Transfer Address)

/-- The execution succeeded. -/
def ExecutionResult.isSuccess : ExecutionResult → Bool
  | success .. => true
  | _ => false

/-- The fee for some gas, as a number. -/
def feeOf (gas price : UInt64) : Nat := gas.toNat * price.toNat

/-- What one execution reports, by the London rules: the sender pays the gas used at the
gas price, the coinbase receives what exceeds the base fee, and everything else is the
value the execution moves. -/
structure LondonResult (s : EvmState) (env : Env) (result : ExecutionResult)
    (changes : Changes) (moves : List (Transfer Address)) : Prop where
  distinct : (changes.map Prod.fst).Nodup
  /-- The sender and the coinbase are no contracts that could destroy themselves. -/
  kept : ∀ p ∈ changes, p.2.selfdestructed = true →
    p.1 ≠ env.tx.caller ∧ p.1 ≠ env.block.coinbase
  /-- There is an intrinsic cost. -/
  gas_pos : 0 < result.gasUsed.toNat
  gas_le : result.gasUsed ≤ env.tx.gasLimit
  /-- The balances, where the sender can pay for the gas up front. -/
  balances : feeOf env.tx.gasLimit env.tx.gasPrice ≤ s.unifiedState.nativeRaw env.tx.caller →
    ∀ a, changes.postRaw s a = s.unifiedState.nativeRaw a + Transfer.net moves a -
      (if a = env.tx.caller then (feeOf result.gasUsed env.tx.gasPrice : Int) else 0) +
      if a = env.block.coinbase then
        ((result.gasUsed.toNat * (env.tx.gasPrice.toNat - env.block.basefee) : Nat) : Int)
      else 0
  /-- A value that the sender does not have halts the execution. -/
  uncovered : s.unifiedState.nativeRaw env.tx.caller < env.tx.value.val →
    ∃ gas reason, result = .halt gas reason
  /-- An execution that fails moves nothing. -/
  failed : result.isSuccess = false → moves = []
  /-- One that succeeds has sent the value. -/
  sent : result.isSuccess = true →
    ∃ target rest, moves = ⟨env.tx.caller, some target, env.tx.value.val⟩ :: rest

/-- An interpreter with the London accounting. -/
def London (R : Interpreter) (V : Moves) : Prop :=
  ∀ s env result changes, s.unifiedState.Native →
    R.transactPreverified s env = .ok (result, changes) →
    LondonResult s env result changes (V s env)

/-! ### Exact fees -/

namespace UnifiedState

/-- All native USDC, over both views of all accounts. -/
def totalNative (u : UnifiedState) : Int :=
  ∑ a : Address, (u.coreRaw a nativeTokenIndex + u.nativeRaw a)

/-- The sender is charged the fee, the fee collector is credited with it, the moves of the
execution are made, and no USDC appears or vanishes. -/
structure Settled (before after : UnifiedState) (sender : Address) (fee : Nat)
    (moves : List (Transfer Address)) : Prop where
  charged : after.nativeRaw sender = before.nativeRaw sender + Transfer.net moves sender - fee
  collected : after.nativeRaw feeCollectorAddress =
    before.nativeRaw feeCollectorAddress + Transfer.net moves feeCollectorAddress + fee
  others : ∀ a, a ≠ sender → a ≠ feeCollectorAddress →
    after.nativeRaw a = before.nativeRaw a + Transfer.net moves a
  total : after.totalNative = before.totalNative

theorem totalNative_of_net {u u' : UnifiedState} (moves : List (Transfer Address))
    (hraw : ∀ a, u'.nativeRaw a = u.nativeRaw a + Transfer.net moves a)
    (hcore : ∀ a, u'.coreRaw a nativeTokenIndex = u.coreRaw a nativeTokenIndex) :
    u'.totalNative = u.totalNative - Transfer.burned moves := by
  have hsum : u'.totalNative = u.totalNative + ∑ a, Transfer.net moves a := by
    unfold totalNative
    rw [← Finset.sum_add_distrib]
    refine Finset.sum_congr rfl fun a _ => ?_
    rw [hraw, hcore]
    ring
  rw [hsum, Transfer.sum_net]
  ring

end UnifiedState

namespace EvmExecutor

variable (K : Keccak256) (R : Interpreter) (P : Precompiles) (V : Moves) (x : EvmExecutor)
  (tx : EvmTransaction)

/-- The gas a call uses and the value it should move, if it is executed at all: a
precompile that answers, or the interpreter. -/
def ran : Option (UInt64 × List (Transfer Address)) :=
  match tx.target.bind PrecompileAddress.fromAddress with
  | some p =>
    match executePrecompile P tx p with
    | .ok result => some (result.gasUsed, [⟨tx.sender, tx.target, tx.value.val⟩])
    | .error _ => none
  | none =>
    match R.transactPreverified x.db (x.env tx) with
    | .ok (result, _) => some (result.gasUsed, V x.db (x.env tx))
    | .error _ => none

/-- `execute_tx` accounts exactly: it returns, an error changes no balance, and a call that
is executed, successful or not, settles its fee. -/
def FeesExact : Prop :=
  ∃ r x', x.executeTx K R P tx = .ok (r, x') ∧
    (∀ e, r = .error e → ∀ a, x'.db.unifiedState.nativeRaw a = x.db.unifiedState.nativeRaw a ∧
      x'.db.unifiedState.coreRaw a nativeTokenIndex =
        x.db.unifiedState.coreRaw a nativeTokenIndex) ∧
    (x.Passes tx → ∀ gas moves, x.ran R P V tx = some (gas, moves) →
      x.db.unifiedState.Settled x'.db.unifiedState tx.sender (feeOf gas tx.gasPrice) moves)

/-- The balances of a commit can be stored. -/
def Storable (s : EvmState) (changes : Changes) : Prop :=
  ∀ p ∈ changes, if p.2.selfdestructed then s.unifiedState.nativeRaw p.1 = 0
    else p.2.balance.val ≤ i128Max ∧ s.totalWith p.1 p.2.balance.val < 2 ^ 127

instance (s : EvmState) (changes : Changes) : Decidable (Storable s changes) :=
  inferInstanceAs (Decidable (∀ p ∈ changes, if p.2.selfdestructed then
    s.unifiedState.nativeRaw p.1 = 0
    else p.2.balance.val ≤ i128Max ∧ s.totalWith p.1 p.2.balance.val < 2 ^ 127))

/-- The calls that are accounted exactly: those that are refused or end in an error of their
own; precompiles that are sent no value and whose fee can be moved; and executions that are
free, burn nothing and leave balances that can be stored. -/
def Free : Prop :=
  x.Passes tx →
    match tx.target.bind PrecompileAddress.fromAddress with
    | some p => ∀ result, executePrecompile P tx p = .ok result →
      (tx.value = 0 ∨ tx.target = some tx.sender) ∧
      (tx.gasPrice = 0 ∨
        tx.sender ≠ feeCollectorAddress ∧
        feeOf result.gasUsed tx.gasPrice ≤ x.db.unifiedState.nativeRaw tx.sender ∧
        x.db.unifiedState.nativeTotal feeCollectorAddress +
          feeOf result.gasUsed tx.gasPrice < 2 ^ 127)
    | none => ∀ result changes,
      R.transactPreverified x.db (x.env tx) = .ok (result, changes) →
      tx.gasPrice = 0 ∧ Transfer.burned (V x.db (x.env tx)) = 0 ∧ Storable x.db changes

variable {K R P V x tx} {x' : EvmExecutor} {sender : Address} {gas price : UInt64}

/-! ### Moving a fee -/

theorem gasCost_val (gas price : UInt64) : (gasCost gas price).val = feeOf gas price := by
  have hg := gas.toNat_lt
  have hp := price.toNat_lt
  unfold gasCost feeOf
  rw [Fin.val_ofNat, Nat.mod_eq_of_lt]
  calc gas.toNat * price.toNat < 2 ^ 64 * 2 ^ 64 := Nat.mul_lt_mul'' hg hp
    _ ≤ 2 ^ 256 := by norm_num

theorem feeOf_eq_zero (hg : 0 < gas.toNat) : feeOf gas price = 0 ↔ price = 0 := by
  unfold feeOf
  rw [Nat.mul_eq_zero, ← UInt64.toNat_inj]
  constructor
  · rintro (h | h)
    · omega
    · exact h
  · exact .inr

theorem applyGasFee_zero (h : feeOf gas price = 0) : x.applyGasFee sender gas price = .ok x := by
  have hz : gasCost gas price = 0 := Fin.ext ((gasCost_val gas price).trans h)
  unfold applyGasFee
  dsimp only
  rw [if_pos hz]
  rfl

/-- The raw fee that is moved. -/
def rawFee (gas price : UInt64) : Int := storedRaw (feeOf gas price)

theorem rawFee_pos (h : feeOf gas price ≠ 0) : 0 < rawFee gas price := by
  unfold rawFee storedRaw i128Max
  omega

variable (sender) in
theorem applyGasFee_pos (hn : x.db.unifiedState.Native) (h : feeOf gas price ≠ 0) :
    x.applyGasFee sender gas price =
      if rawFee gas price ≤ x.db.unifiedState.nativeRaw sender then do
        let debited := x.db.setUnified (x.db.unifiedState.putNative sender
          (x.db.unifiedState.nativeRaw sender - rawFee gas price))
        let db ← debited.addBalance feeCollectorAddress (gasCost gas price)
        return { x with db }
      else .ok x := by
  have hz : gasCost gas price ≠ 0 := by
    intro hk
    rw [← gasCost_val, hk] at h
    exact h rfl
  have hpos := rawFee_pos h
  have hdec : u256ToDecimal (gasCost gas price) = ⟨rawFee gas price, nativeDecimals⟩ := by
    unfold u256ToDecimal rawFee
    rw [gasCost_val]
  have hdebit := hn.debitEvm (a := sender) (v := rawFee gas price) (by omega)
  have hsome : rawFee gas price ≤ x.db.unifiedState.nativeRaw sender →
      (x.db.unifiedState.getBalance sender nativeTokenIndex).isSome = true := by
    intro hle
    cases hb : x.db.unifiedState.getBalance sender nativeTokenIndex with
    | none =>
      rw [UnifiedState.nativeRaw_none hb] at hle
      omega
    | some y => rfl
  unfold applyGasFee EvmState.subBalance
  dsimp only
  rw [if_neg hz, hdec, hdebit]
  by_cases hle : rawFee gas price ≤ x.db.unifiedState.nativeRaw sender
  · rw [if_pos ⟨hsome hle, hle⟩, if_pos hle]
    rfl
  · rw [if_neg fun hk => hle hk.2, if_neg hle]
    rfl

variable (sender) in
/-- **Moving a fee.** It is moved as a whole, or refused and left where it is. -/
theorem applyGasFee_cases (hn : x.db.unifiedState.Native) (h : feeOf gas price ≠ 0)
    (hne : sender ≠ feeCollectorAddress) :
    (x.db.unifiedState.nativeRaw sender < rawFee gas price ∧
      x.applyGasFee sender gas price = .ok x) ∨
    (rawFee gas price ≤ x.db.unifiedState.nativeRaw sender ∧
      ((∃ x', x.applyGasFee sender gas price = .ok x') ↔
        x.db.unifiedState.nativeTotal feeCollectorAddress + rawFee gas price < 2 ^ 127) ∧
      ∀ x', x.applyGasFee sender gas price = .ok x' →
        (∀ a, x'.db.unifiedState.nativeRaw a =
          if a = sender then x.db.unifiedState.nativeRaw a - rawFee gas price
          else if a = feeCollectorAddress then
            x.db.unifiedState.nativeRaw a + rawFee gas price
          else x.db.unifiedState.nativeRaw a) ∧
        ∀ a, x'.db.unifiedState.coreRaw a nativeTokenIndex =
          x.db.unifiedState.coreRaw a nativeTokenIndex) := by
  have hpos := rawFee_pos h
  have heq := applyGasFee_pos sender hn h
  by_cases hle : rawFee gas price ≤ x.db.unifiedState.nativeRaw sender
  · rw [if_pos hle] at heq
    refine .inr ⟨hle, ?_⟩
    have hdec : u256ToDecimal (gasCost gas price) = ⟨rawFee gas price, nativeDecimals⟩ := by
      unfold u256ToDecimal rawFee
      rw [gasCost_val]
    -- the balance sheet after the debit
    have hdebited := hn.range sender
    have hn' : (x.db.unifiedState.putNative sender
        (x.db.unifiedState.nativeRaw sender - rawFee gas price)).Native :=
      hn.putNative (by omega) (by omega)
    have htotal : (x.db.unifiedState.putNative sender
        (x.db.unifiedState.nativeRaw sender - rawFee gas price)).nativeTotal
          feeCollectorAddress = x.db.unifiedState.nativeTotal feeCollectorAddress := by
      rw [UnifiedState.nativeTotal_putNative, if_neg hne]
    have hcredit := fun u' => hn'.creditEvm (a := feeCollectorAddress) (v := rawFee gas price)
      (by omega) (w := u')
    rw [htotal] at hcredit
    have hadd : ∀ db, ((x.db.setUnified (x.db.unifiedState.putNative sender
        (x.db.unifiedState.nativeRaw sender - rawFee gas price))).addBalance
          feeCollectorAddress (gasCost gas price) = .ok db ↔
        x.db.unifiedState.nativeTotal feeCollectorAddress + rawFee gas price < 2 ^ 127 ∧
        db = (x.db.setUnified ((x.db.unifiedState.putNative sender
          (x.db.unifiedState.nativeRaw sender - rawFee gas price)).putNative
            feeCollectorAddress ((x.db.unifiedState.putNative sender
              (x.db.unifiedState.nativeRaw sender - rawFee gas price)).nativeRaw
                feeCollectorAddress + rawFee gas price))).touch feeCollectorAddress) := by
      intro db
      unfold EvmState.addBalance
      rw [hdec, bind_eq_ok]
      constructor
      · rintro ⟨u, hu, h⟩
        obtain ⟨hroom, rfl⟩ := (hcredit u).mp hu
        cases pure_inv h
        exact ⟨hroom, rfl⟩
      · rintro ⟨hroom, rfl⟩
        exact ⟨_, (hcredit _).mpr ⟨hroom, rfl⟩, rfl⟩
    rw [heq]
    refine ⟨⟨?_, fun hroom => ?_⟩, fun x' hx' => ?_⟩
    · rintro ⟨x', hx'⟩
      obtain ⟨db, hdb, -⟩ := bind_inv hx'
      exact ((hadd db).mp hdb).1
    · exact ⟨_, bind_eq_ok.mpr ⟨_, (hadd _).mpr ⟨hroom, rfl⟩, rfl⟩⟩
    obtain ⟨db, hdb, hx'⟩ := bind_inv hx'
    obtain ⟨-, rfl⟩ := (hadd db).mp hdb
    cases pure_inv hx'
    refine ⟨fun a => ?_, fun a => ?_⟩
    · change UnifiedState.nativeRaw (UnifiedState.putNative _ _ _) a = _
      rw [UnifiedState.nativeRaw_putNative, UnifiedState.nativeRaw_putNative,
        UnifiedState.nativeRaw_putNative, if_neg hne]
      by_cases hs : a = sender
      · rw [hs, if_neg (Ne.symm hne), if_pos rfl, if_pos rfl]
      · rw [if_neg hs, if_neg (Ne.symm hs)]
        by_cases hc : a = feeCollectorAddress
        · rw [if_pos hc.symm, if_pos hc, hc]
        · rw [if_neg hc, if_neg (Ne.symm hc)]
    · change UnifiedState.coreRaw (UnifiedState.putNative _ _ _) a _ = _
      rw [UnifiedState.coreRaw_putNative, UnifiedState.coreRaw_putNative]
  · rw [if_neg hle] at heq
    exact .inl ⟨by omega, heq⟩

/-! ### When a call is accounted exactly -/

theorem preflight_enforced (hn : x.db.unifiedState.Native) (henf : x.enforceGasFees = true) :
    x.preflight tx (x.enforceGasFees && true) =
      .ok (if x.db.unifiedState.nativeWord tx.sender < totalRequired tx then
        some (.insufficientGasBalance (totalRequired tx) (x.db.unifiedState.nativeWord tx.sender))
      else none) := by
  unfold preflight
  rw [henf, Bool.and_true, if_pos rfl, EvmState.getBalance_native hn, ok_bind]
  split <;> rfl

theorem passes_iff (hn : x.db.unifiedState.Native) (henf : x.enforceGasFees = true) :
    x.Passes tx ↔ totalRequired tx ≤ x.db.unifiedState.nativeWord tx.sender := by
  unfold Passes
  rw [preflight_enforced hn henf]
  split
  · rename_i h
    simp [not_le.mpr h]
  · rename_i h
    simp [not_lt.mp h]

theorem executeTx_refused (hn : x.db.unifiedState.Native) (henf : x.enforceGasFees = true)
    (h : ¬ x.Passes tx) : ∃ e, x.executeTx K R P tx = .ok (.error e, x) := by
  rw [passes_iff hn henf, not_le] at h
  unfold executeTx executeTxInner
  rw [preflight_enforced hn henf, if_pos h]
  exact ⟨_, rfl⟩

theorem executeTx_passed (h : x.Passes tx) :
    x.executeTx K R P tx = x.executeChecked K R P tx true := by
  unfold executeTx executeTxInner
  rw [show x.preflight tx (x.enforceGasFees && true) = .ok none from h]
  rfl

/-- A balance that passes the pre-check covers the gas, unless the sum has wrapped: then it
does not cover the value. -/
theorem Passes.covers (hn : x.db.unifiedState.Native) (henf : x.enforceGasFees = true)
    (h : x.Passes tx) :
    (feeOf tx.gasLimit tx.gasPrice : Int) ≤ x.db.unifiedState.nativeRaw tx.sender ∨
      x.db.unifiedState.nativeRaw tx.sender < tx.value.val := by
  rw [passes_iff hn henf, Fin.le_def] at h
  have hword := hn.nativeWord_val tx.sender
  have hmax := hn.le_max tx.sender
  have hg := tx.gasLimit.toNat_lt
  have hp := tx.gasPrice.toNat_lt
  have hfee : feeOf tx.gasLimit tx.gasPrice ≤ 2 ^ 64 * 2 ^ 64 :=
    Nat.mul_le_mul hg.le hp.le
  unfold totalRequired at h
  rw [Fin.val_add, gasCost_val] at h
  unfold i128Max at hmax
  by_cases hwrap : feeOf tx.gasLimit tx.gasPrice + tx.value.val < 2 ^ 256
  · rw [Nat.mod_eq_of_lt hwrap] at h
    left
    omega
  · right
    omega

/-- An answer that is an error leaves nothing to settle. -/
theorem feesExact_of_error {e : EvmExecutorError} (h : x.executeTx K R P tx = .ok (.error e, x))
    (hran : x.Passes tx → x.ran R P V tx = none) : x.FeesExact K R P V tx :=
  ⟨_, _, h, fun _ _ _ => ⟨rfl, rfl⟩, fun hp _ _ hk => by
    rw [hran hp] at hk
    cases hk⟩

section Precompile

variable {p : PrecompileAddress}

theorem executeChecked_precompile
    (hp : tx.target.bind PrecompileAddress.fromAddress = some p) :
    x.executeChecked K R P tx true =
      match executePrecompile P tx p with
      | .error e => .ok (.error e, x)
      | .ok result => do
        let x ← x.settleFee tx.sender result.gasUsed tx.gasPrice x.enforceGasFees
        return (.ok result, x) := by
  unfold executeChecked
  rw [hp]
  simp only [Bool.and_true]
  rfl

/-- A precompile uses its own gas cost, within the limit. -/
theorem executePrecompile_gas {result : EvmExecutionResult}
    (h : executePrecompile P tx p = .ok result) :
    result.gasUsed = p.gasCost ∧ p.gasCost ≤ tx.gasLimit := by
  unfold executePrecompile Precompiles.execute at h
  by_cases hlt : tx.gasLimit < p.gasCost
  · rw [if_pos hlt] at h
    cases h
  · rw [if_neg hlt] at h
    cases ho : P p tx.data with
    | error e =>
      rw [ho] at h
      cases h
    | ok output =>
      rw [ho] at h
      cases h
      exact ⟨rfl, UInt64.not_lt.mp hlt⟩

theorem gasCost_pos (p : PrecompileAddress) : 0 < p.gasCost.toNat := by
  cases p <;> decide

/-- A direct call moves no value. -/
theorem net_call_eq_zero (a : Address) (h : tx.value = 0 ∨ tx.target = some tx.sender) :
    Transfer.net [⟨tx.sender, tx.target, tx.value.val⟩] a = 0 := by
  rw [Transfer.net_cons, Transfer.net_nil, add_zero]
  unfold Transfer.delta
  rcases h with h | h
  · simp [h]
  · rw [h]
    simp

/-- **Precompiles.** -/
theorem feesExact_precompile_iff (hn : x.db.unifiedState.Native)
    (henf : x.enforceGasFees = true) (hpass : x.Passes tx)
    (hp : tx.target.bind PrecompileAddress.fromAddress = some p) {result : EvmExecutionResult}
    (hr : executePrecompile P tx p = .ok result) :
    x.FeesExact K R P V tx ↔
      (tx.value = 0 ∨ tx.target = some tx.sender) ∧
      (tx.gasPrice = 0 ∨ tx.sender ≠ feeCollectorAddress ∧
        feeOf result.gasUsed tx.gasPrice ≤ x.db.unifiedState.nativeRaw tx.sender ∧
        x.db.unifiedState.nativeTotal feeCollectorAddress +
          feeOf result.gasUsed tx.gasPrice < 2 ^ 127) := by
  obtain ⟨hgas, hlimit⟩ := executePrecompile_gas hr
  have hgpos : 0 < result.gasUsed.toNat := hgas ▸ gasCost_pos p
  have hran : x.ran R P V tx =
      some (result.gasUsed, [⟨tx.sender, tx.target, tx.value.val⟩]) := by
    unfold ran
    simp only [hp, hr]
  have hexec : ∀ r x', x.executeTx K R P tx = .ok (r, x') ↔
      r = .ok result ∧ x.applyGasFee tx.sender result.gasUsed tx.gasPrice = .ok x' := by
    intro r x'
    rw [executeTx_passed hpass, executeChecked_precompile hp, hr]
    simp only [settleFee, henf, if_true, bind_eq_ok, pure_eq_ok, Prod.mk.injEq]
    constructor
    · rintro ⟨y, hy, rfl, rfl⟩
      exact ⟨rfl, hy⟩
    · rintro ⟨rfl, hy⟩
      exact ⟨_, hy, rfl, rfl⟩
  have hfees : x.FeesExact K R P V tx ↔
      ∃ x', x.applyGasFee tx.sender result.gasUsed tx.gasPrice = .ok x' ∧
        x.db.unifiedState.Settled x'.db.unifiedState tx.sender
          (feeOf result.gasUsed tx.gasPrice) [⟨tx.sender, tx.target, tx.value.val⟩] := by
    constructor
    · rintro ⟨r, x', h, -, hset⟩
      exact ⟨x', ((hexec r x').mp h).2, hset hpass _ _ hran⟩
    · rintro ⟨x', h, hset⟩
      refine ⟨_, x', (hexec _ x').mpr ⟨rfl, h⟩, fun e he => ?_, fun _ g m hk => ?_⟩
      · cases he
      · rw [hran] at hk
        cases hk
        exact hset
  -- the collector is no precompile
  have hcoll : tx.target ≠ some feeCollectorAddress := by
    intro h
    rw [h] at hp
    cases hp
  have hnetcoll : tx.sender ≠ feeCollectorAddress →
      Transfer.net [⟨tx.sender, tx.target, tx.value.val⟩] feeCollectorAddress = 0 := by
    intro hne
    rw [Transfer.net_cons, Transfer.net_nil, Transfer.delta, if_neg hcoll, if_neg hne]
    rfl
  have hself : Transfer.net [⟨tx.sender, tx.target, tx.value.val⟩] tx.sender = 0 →
      tx.value = 0 ∨ tx.target = some tx.sender := by
    intro h
    rw [Transfer.net_cons, Transfer.net_nil, add_zero] at h
    unfold Transfer.delta at h
    by_cases ht : tx.target = some tx.sender
    · exact .inr ht
    · left
      rw [if_neg ht, if_pos rfl] at h
      apply Fin.ext
      change tx.value.val = 0
      dsimp only at h
      omega
  rw [hfees]
  by_cases hprice : tx.gasPrice = 0
  · have hz : feeOf result.gasUsed tx.gasPrice = 0 := (feeOf_eq_zero hgpos).mpr hprice
    rw [applyGasFee_zero hz, hz]
    constructor
    · rintro ⟨x', hx', hset⟩
      cases hx'
      have := hset.charged
      exact ⟨hself (by push_cast at this; omega), .inl hprice⟩
    · rintro ⟨hval, -⟩
      have hnet (a : Address) : Transfer.net [⟨tx.sender, tx.target, tx.value.val⟩] a = 0 :=
        net_call_eq_zero a hval
      refine ⟨x, rfl, ?_, ?_, fun a _ _ => ?_, rfl⟩
      · rw [hnet]; simp
      · rw [hnet]; simp
      · rw [hnet]; simp
  · have hz : feeOf result.gasUsed tx.gasPrice ≠ 0 :=
      fun h => hprice ((feeOf_eq_zero hgpos).mp h)
    by_cases hne : tx.sender = feeCollectorAddress
    · -- a fee to oneself cannot be both charged and credited
      constructor
      · rintro ⟨x', -, hset⟩
        have h₁ := hset.charged
        have h₂ := hset.collected
        rw [hne] at h₁ h₂
        omega
      · rintro ⟨-, h | ⟨h, -⟩⟩
        · exact absurd h hprice
        · exact absurd hne h
    · rcases applyGasFee_cases tx.sender hn hz hne with
        ⟨hlt, hsame⟩ | ⟨hle, hroom, hmoved⟩
      · constructor
        · rintro ⟨x', hx', hset⟩
          cases hsame.symm.trans hx'
          have hcol := hset.collected
          rw [hnetcoll hne] at hcol
          omega
        · rintro ⟨-, h | ⟨-, h, -⟩⟩
          · exact absurd h hprice
          · have hcut : rawFee result.gasUsed tx.gasPrice ≤
                feeOf result.gasUsed tx.gasPrice := Int.ofNat_le.mpr (min_le_left _ _)
            omega
      · constructor
        · rintro ⟨x', hx', hset⟩
          have hcol := hset.collected
          have hcha := hset.charged
          have hraw := (hmoved x' hx').1
          have hfit := hroom.mp ⟨x', hx'⟩
          rw [hraw, if_neg (Ne.symm hne), if_pos rfl, hnetcoll hne] at hcol
          rw [hraw, if_pos rfl] at hcha
          refine ⟨hself (by omega), .inr ⟨hne, by omega, by omega⟩⟩
        · rintro ⟨hval, h | ⟨-, hle', hfit⟩⟩
          · exact absurd h hprice
          have hmax := hn.le_max tx.sender
          have hfee : rawFee result.gasUsed tx.gasPrice =
              feeOf result.gasUsed tx.gasPrice := by
            unfold rawFee storedRaw
            omega
          obtain ⟨x', hx'⟩ := hroom.mpr (hfee ▸ hfit)
          obtain ⟨hraw, hcore⟩ := hmoved x' hx'
          rw [hfee] at hraw
          have hnet (a : Address) : Transfer.net [⟨tx.sender, tx.target, tx.value.val⟩] a = 0 :=
        net_call_eq_zero a hval
          refine ⟨x', hx', ?_, ?_, fun a hs hc => ?_, ?_⟩
          · rw [hraw, hnet, if_pos rfl, add_zero]
          · rw [hraw, hnet, if_neg (Ne.symm hne), if_pos rfl, add_zero]
          · rw [hraw, hnet, if_neg hs, if_neg hc, add_zero]
          · -- the fee is one more transfer
            refine (UnifiedState.totalNative_of_net [⟨tx.sender,
              some feeCollectorAddress, feeOf result.gasUsed tx.gasPrice⟩]
              (fun a => ?_) hcore).trans (sub_zero _)
            rw [hraw, Transfer.net_cons, Transfer.net_nil, Transfer.delta]
            simp only [Option.some.injEq]
            by_cases hs : a = tx.sender
            · rw [if_pos hs, if_neg fun h => hne (hs.symm.trans h.symm), if_pos hs.symm]
              omega
            · rw [if_neg hs, if_neg (Ne.symm hs)]
              by_cases hc : a = feeCollectorAddress
              · rw [if_pos hc, if_pos hc.symm]
                omega
              · rw [if_neg hc, if_neg (Ne.symm hc)]
                omega

end Precompile

/-! ### Executions -/

section Storable

variable {s : EvmState} {changes : Changes} {a : Address}

theorem lookup_of_mem (hkeys : (changes.map Prod.fst).Nodup) {p : Address × Account}
    (hp : p ∈ changes) : changes.lookup p.1 = some p.2 := by
  induction changes with
  | nil => cases hp
  | cons q changes ih =>
    obtain ⟨hfresh, hkeys⟩ := List.nodup_cons.mp hkeys
    rw [List.lookup_cons]
    rcases List.mem_cons.mp hp with rfl | hp
    · rw [beq_self_eq_true]
    · have hne : p.1 ≠ q.1 := fun h => hfresh (h ▸ List.mem_map_of_mem hp)
      rw [beq_eq_false_iff_ne.mpr hne]
      exact ih hkeys hp

theorem mem_of_lookup {x : Account} (h : changes.lookup a = some x) : (a, x) ∈ changes := by
  induction changes with
  | nil => cases h
  | cons q changes ih =>
    rw [List.lookup_cons] at h
    by_cases hq : a = q.1
    · rw [hq, beq_self_eq_true] at h
      cases h
      rw [hq]
      exact List.mem_cons_self
    · rw [beq_eq_false_iff_ne.mpr hq] at h
      exact List.mem_cons_of_mem _ (ih h)

/-- Balances that can be stored are those that a commit leaves as they are. -/
theorem storable_iff (hkeys : (changes.map Prod.fst).Nodup) :
    Storable s changes ↔ (∀ p ∈ changes, s.Fits p) ∧
      ∀ a, changes.committedRaw s a = changes.postRaw s a := by
  have hone : ∀ p : Address × Account,
      (if p.2.selfdestructed then s.unifiedState.nativeRaw p.1 = 0
        else p.2.balance.val ≤ i128Max ∧ s.totalWith p.1 p.2.balance.val < 2 ^ 127) ↔
      s.Fits p ∧ s.accountRaw p.1 p.2 =
        if p.2.selfdestructed then 0 else (p.2.balance.val : Int) := by
    intro p
    unfold EvmState.Fits EvmState.accountRaw
    cases hx : p.2.selfdestructed with
    | true => simp
    | false =>
      simp only [Bool.false_eq_true, if_false, true_implies]
      constructor
      · rintro ⟨hmax, htotal⟩
        have hcut : storedRaw p.2.balance.val = p.2.balance.val := min_eq_left hmax
        rw [hcut]
        exact ⟨htotal, rfl⟩
      · rintro ⟨hfit, hcut⟩
        have hcut := Int.ofNat.inj hcut
        rw [hcut] at hfit
        exact ⟨min_eq_left_iff.mp hcut, hfit⟩
  unfold Storable
  constructor
  · intro h
    refine ⟨fun p hp => ((hone p).mp (h p hp)).1, fun a => ?_⟩
    unfold Changes.committedRaw Changes.postRaw
    cases hx : changes.lookup a with
    | none => rfl
    | some x => exact ((hone (a, x)).mp (h _ (mem_of_lookup hx))).2
  · rintro ⟨hfit, hraw⟩ p hp
    have hraw := hraw p.1
    unfold Changes.committedRaw Changes.postRaw at hraw
    rw [lookup_of_mem hkeys hp] at hraw
    exact (hone p).mpr ⟨hfit p hp, hraw⟩

/-- A commit never leaves more than the interpreter does, self-destructed accounts apart. -/
theorem committedRaw_le (hkept : ∀ p ∈ changes, p.2.selfdestructed = true → p.1 ≠ a) :
    changes.committedRaw s a ≤ changes.postRaw s a := by
  unfold Changes.committedRaw Changes.postRaw
  cases hx : changes.lookup a with
  | none => exact le_refl _
  | some x =>
    cases hd : x.selfdestructed with
    | true => exact absurd rfl (hkept _ (mem_of_lookup hx) hd)
    | false =>
      dsimp only
      rw [hd]
      exact Int.ofNat_le.mpr (min_le_left _ _)

end Storable

section Execution

variable {result : ExecutionResult} {changes : Changes}

theorem executeTx_interpreted (henf : x.enforceGasFees = true) (hpass : x.Passes tx)
    (hp : tx.target.bind PrecompileAddress.fromAddress = none)
    (hr : R.transactPreverified x.db (x.env tx) = .ok (result, changes))
    {r : Except EvmExecutorError EvmExecutionResult} :
    x.executeTx K R P tx = .ok (r, x') ↔
      r = result.answer ∧ ∃ db, x.db.commit K changes = .ok db ∧
        EvmExecutor.applyGasFee { x with db } tx.sender result.gasUsed tx.gasPrice = .ok x' := by
  rw [executeTx_passed hpass]
  unfold executeChecked
  rw [hp]
  dsimp only
  rw [fundSender_enforced henf, ok_bind, hr]
  simp only [commitChanges, settleFee, if_true, Bool.and_true, bind_eq_ok, pure_eq_ok,
    Prod.mk.injEq]
  constructor
  · rintro ⟨y, ⟨db, hdb, rfl⟩, z, hz, rfl, rfl⟩
    rw [if_pos henf] at hz
    exact ⟨rfl, db, hdb, hz⟩
  · rintro ⟨rfl, db, hdb, hz⟩
    refine ⟨_, ⟨db, hdb, rfl⟩, _, ?_, rfl, rfl⟩
    rw [if_pos henf]
    exact hz

/-- With a positive price the fee is taken twice, or its base part is lost. -/
theorem not_feesExact_of_price (hL : London R V) (hn : x.db.unifiedState.Native)
    (henf : x.enforceGasFees = true) (hpass : x.Passes tx)
    (hp : tx.target.bind PrecompileAddress.fromAddress = none)
    (hr : R.transactPreverified x.db (x.env tx) = .ok (result, changes))
    (hprice : tx.gasPrice ≠ 0) : ¬ x.FeesExact K R P V tx := by
  rintro ⟨r, x', hexec, herr, hset⟩
  have hl := hL _ _ _ _ hn hr
  have hz : feeOf result.gasUsed tx.gasPrice ≠ 0 :=
    fun h => hprice ((feeOf_eq_zero hl.gas_pos).mp h)
  have hran : x.ran R P V tx = some (result.gasUsed, V x.db (x.env tx)) := by
    unfold ran
    simp only [hp, hr]
  have hset := hset hpass _ _ hran
  have hcha := hset.charged
  have hcol := hset.collected
  obtain ⟨rfl, db, hcommit, hfee⟩ := (executeTx_interpreted henf hpass hp hr).mp hexec
  rcases hpass.covers hn henf with hcover | hshort
  · have hbal : ∀ a, changes.postRaw x.db a =
        x.db.unifiedState.nativeRaw a + Transfer.net (V x.db (x.env tx)) a -
          (if a = tx.sender then (feeOf result.gasUsed tx.gasPrice : Int) else 0) +
          if a = feeCollectorAddress then
            ((result.gasUsed.toNat * (tx.gasPrice.toNat - 1000000000) : Nat) : Int) else 0 :=
      hl.balances hcover
    by_cases hne : tx.sender = feeCollectorAddress
    · rw [hne] at hcha
      omega
    obtain ⟨hn', hraw, -⟩ := (EvmState.commit_balances hn hl.distinct).1 db hcommit
    rcases applyGasFee_cases (x := { x with db }) tx.sender hn' hz hne with
      ⟨-, hsame⟩ | ⟨-, -, hmoved⟩
    · -- the executor could not take its fee: the base fee is missing
      cases hsame.symm.trans hfee
      have hle := committedRaw_le (s := x.db) (a := feeCollectorAddress)
        fun p hp hd => (hl.kept p hp hd).2
      have hpost := hbal feeCollectorAddress
      rw [if_neg fun h => hne h.symm, if_pos rfl] at hpost
      have htip : result.gasUsed.toNat * (tx.gasPrice.toNat - 1000000000) <
          feeOf result.gasUsed tx.gasPrice := by
        have hpos : 0 < tx.gasPrice.toNat := by
          rw [Nat.pos_iff_ne_zero]
          exact fun h => hprice (UInt64.toNat_inj.mp h)
        exact Nat.mul_lt_mul_of_pos_left (by omega) hl.gas_pos
      have hfinal : db.unifiedState.nativeRaw feeCollectorAddress =
          x.db.unifiedState.nativeRaw feeCollectorAddress +
            Transfer.net (V x.db (x.env tx)) feeCollectorAddress +
            feeOf result.gasUsed tx.gasPrice := hcol
      rw [hraw] at hfinal
      have htip := Int.ofNat_lt.mpr htip
      omega
    · -- it took the fee after the interpreter had
      have hle := committedRaw_le (s := x.db) (a := tx.sender)
        fun p hp hd => (hl.kept p hp hd).1
      have hpost := hbal tx.sender
      rw [if_pos rfl, if_neg hne] at hpost
      have hpos := rawFee_pos hz
      have hfinal := (hmoved x' hfee).1 tx.sender
      rw [if_pos rfl] at hfinal
      have hdb : ({ x with db := db } : EvmExecutor).db.unifiedState.nativeRaw tx.sender =
        changes.committedRaw x.db tx.sender := hraw tx.sender
      rw [hdb] at hfinal
      omega
  · -- the value is not there: a halt, answered with an error
    obtain ⟨gas, reason, rfl⟩ := hl.uncovered hshort
    have hsame := (herr _ rfl tx.sender).1
    have hmoves := hl.failed rfl
    rw [hmoves, Transfer.net_nil] at hcha
    omega

/-- **Executions.** -/
theorem feesExact_interpreter_iff (hL : London R V) (hn : x.db.unifiedState.Native)
    (henf : x.enforceGasFees = true) (hpass : x.Passes tx)
    (hp : tx.target.bind PrecompileAddress.fromAddress = none)
    (hr : R.transactPreverified x.db (x.env tx) = .ok (result, changes)) :
    x.FeesExact K R P V tx ↔
      tx.gasPrice = 0 ∧ Transfer.burned (V x.db (x.env tx)) = 0 ∧ Storable x.db changes := by
  have hl := hL _ _ _ _ hn hr
  by_cases hprice : tx.gasPrice = 0
  swap
  · exact ⟨fun h => absurd h (not_feesExact_of_price hL hn henf hpass hp hr hprice),
      fun h => absurd h.1 hprice⟩
  have hzero : ∀ gas, feeOf gas tx.gasPrice = 0 := by
    intro gas
    rw [hprice]
    exact Nat.mul_zero _
  -- without a price the interpreter only moves value
  have hpost : ∀ a, changes.postRaw x.db a =
      x.db.unifiedState.nativeRaw a + Transfer.net (V x.db (x.env tx)) a := by
    intro a
    have hcover : (feeOf tx.gasLimit tx.gasPrice : Int) ≤
        x.db.unifiedState.nativeRaw tx.sender := by
      rw [hzero]
      exact hn.nonneg tx.sender
    have hbal : changes.postRaw x.db a =
        x.db.unifiedState.nativeRaw a + Transfer.net (V x.db (x.env tx)) a -
          (if a = tx.sender then (feeOf result.gasUsed tx.gasPrice : Int) else 0) +
          if a = feeCollectorAddress then
            ((result.gasUsed.toNat * (tx.gasPrice.toNat - 1000000000) : Nat) : Int) else 0 :=
      hl.balances hcover a
    rw [hzero, hprice] at hbal
    simpa using hbal
  have hran : x.ran R P V tx = some (result.gasUsed, V x.db (x.env tx)) := by
    unfold ran
    simp only [hp, hr]
  obtain ⟨hcommit, hfits⟩ := EvmState.commit_balances (K := K) hn hl.distinct
  have hexec : ∀ r x', x.executeTx K R P tx = .ok (r, x') ↔
      r = result.answer ∧ ∃ db, x.db.commit K changes = .ok db ∧ x' = { x with db } := by
    intro r x'
    rw [executeTx_interpreted henf hpass hp hr, and_congr_right_iff]
    intro _
    refine exists_congr fun db => and_congr_right fun _ => ?_
    rw [applyGasFee_zero (hzero _)]
    exact ⟨fun h => (Except.ok.inj h).symm, fun h => congrArg _ h.symm⟩
  rw [storable_iff hl.distinct, ← hfits]
  constructor
  · rintro ⟨r, x', h, -, hset⟩
    obtain ⟨-, db, hdb, rfl⟩ := (hexec r x').mp h
    have hset := hset hpass _ _ hran
    obtain ⟨-, hraw, hcore⟩ := hcommit db hdb
    have hall : ∀ a, changes.committedRaw x.db a = changes.postRaw x.db a := by
      intro a
      have hcha := hset.charged
      have hcol := hset.collected
      rw [hzero] at hcha hcol
      have hpa := hpost a
      have hda : db.unifiedState.nativeRaw a =
          x.db.unifiedState.nativeRaw a + Transfer.net (V x.db (x.env tx)) a := by
        by_cases hs : a = tx.sender
        · rw [hs]
          simpa using hcha
        · by_cases hc : a = feeCollectorAddress
          · rw [hc]
            simpa using hcol
          · exact hset.others a hs hc
      rw [← hraw, hda, hpa]
    refine ⟨hprice, ?_, ⟨db, hdb⟩, hall⟩
    have htotal := UnifiedState.totalNative_of_net (u := x.db.unifiedState) (V x.db (x.env tx))
      (fun a => by rw [hraw, hall, hpost]) hcore
    have hsame : db.unifiedState.totalNative = x.db.unifiedState.totalNative := hset.total
    omega
  · rintro ⟨-, hburn, ⟨db, hdb⟩, hall⟩
    obtain ⟨-, hraw, hcore⟩ := hcommit db hdb
    have hmoved : ∀ a, db.unifiedState.nativeRaw a =
        x.db.unifiedState.nativeRaw a + Transfer.net (V x.db (x.env tx)) a := by
      intro a
      rw [hraw, hall, hpost]
    refine ⟨_, _, (hexec _ _).mpr ⟨rfl, db, hdb, rfl⟩, fun e he a => ⟨?_, hcore a⟩,
      fun _ g m hk => ?_⟩
    · -- an error is a halt, which moves nothing
      have hfail : result.isSuccess = false := by
        cases result with
        | success g out logs => cases out <;> cases he
        | revert g out => rfl
        | halt g reason => rfl
      have := hmoved a
      rw [hl.failed hfail, Transfer.net_nil, add_zero] at this
      exact this
    · rw [hran] at hk
      cases hk
      have htotal := UnifiedState.totalNative_of_net (V x.db (x.env tx)) hmoved hcore
      rw [hburn] at htotal
      rw [hzero]
      refine ⟨?_, ?_, fun a _ _ => hmoved a, by simpa using htotal⟩
      · simpa using hmoved tx.sender
      · simpa using hmoved feeCollectorAddress

end Execution

/-- **Exact fees.** With fees enforced, a call accounts exactly for its fee, its value and
the supply in the cases of `Free`, and in no other. -/
theorem feesExact_iff (hL : London R V) (hn : x.db.unifiedState.Native)
    (henf : x.enforceGasFees = true) : x.FeesExact K R P V tx ↔ x.Free R P V tx := by
  unfold Free
  by_cases hpass : x.Passes tx
  swap
  · obtain ⟨e, he⟩ := executeTx_refused (K := K) (R := R) (P := P) hn henf hpass
    exact ⟨fun _ h => absurd h hpass, fun _ => feesExact_of_error he fun h => absurd h hpass⟩
  simp only [hpass, true_implies]
  cases hp : tx.target.bind PrecompileAddress.fromAddress with
  | some p =>
    dsimp only
    cases hr : executePrecompile P tx p with
    | error e =>
      have hexec : x.executeTx K R P tx = .ok (.error e, x) := by
        rw [executeTx_passed hpass, executeChecked_precompile hp, hr]
      have hran : x.ran R P V tx = none := by
        unfold ran
        simp only [hp, hr]
      exact ⟨fun _ _ h => (by cases h), fun _ => feesExact_of_error hexec fun _ => hran⟩
    | ok result =>
      rw [feesExact_precompile_iff hn henf hpass hp hr]
      exact ⟨fun h r hk => Except.ok.inj hk ▸ h, fun h => h result rfl⟩
  | none =>
    dsimp only
    cases hr : R.transactPreverified x.db (x.env tx) with
    | error e =>
      have hexec : x.executeTx K R P tx =
          .ok (.error (.internal ("EVM error: " ++ e)), x) := by
        rw [executeTx_passed hpass]
        unfold executeChecked
        rw [hp]
        dsimp only
        rw [fundSender_enforced henf, ok_bind, hr]
        rfl
      have hran : x.ran R P V tx = none := by
        unfold ran
        simp only [hp, hr]
      exact ⟨fun _ _ _ h => (by cases h), fun _ => feesExact_of_error hexec fun _ => hran⟩
    | ok out =>
      obtain ⟨result, changes⟩ := out
      rw [feesExact_interpreter_iff hL hn henf hpass hp hr]
      constructor
      · intro h r c hk
        cases hk
        exact h
      · exact fun h => h result changes rfl

end EvmExecutor

/-! ### Plain transfers -/

namespace Interpreter

variable (s : EvmState) (env : Env)

/-- The sender can pay for the gas up front and for the value. -/
def PlainCovered : Prop :=
  (feeOf env.tx.gasLimit env.tx.gasPrice + env.tx.value.val : Nat) ≤
    s.unifiedState.nativeRaw env.tx.caller

instance : Decidable (PlainCovered s env) := inferInstanceAs (Decidable (_ ≤ _))

/-- The moves of a call of an account without code. -/
def plainMoves (s : EvmState) (env : Env) : List (Transfer Address) :=
  match env.tx.transactTo with
  | some target =>
    if PlainCovered s env then [⟨env.tx.caller, some target, env.tx.value.val⟩] else []
  | none => []

/-- What it leaves an account. -/
def plainRaw (a : Address) : Int :=
  s.unifiedState.nativeRaw a + Transfer.net (plainMoves s env) a -
    (if a = env.tx.caller then (feeOf 21000 env.tx.gasPrice : Int) else 0) +
    if a = env.block.coinbase then
      ((21000 * (env.tx.gasPrice.toNat - env.block.basefee) : Nat) : Int) else 0

/-- The account it commits. -/
def plainAccount (a : Address) : Account where
  balance := Fin.ofNat (2 ^ 256) (plainRaw s env a).toNat
  nonce := s.getNonce a + if a = env.tx.caller then 1 else 0
  code := none
  selfdestructed := false
  storage := []

/-- The accounts it commits. -/
def plainChanges (target : Address) : Changes :=
  ([env.tx.caller, target, env.block.coinbase].dedup).map fun a => (a, plainAccount s env a)

/-- An interpreter of calls of accounts without code. -/
def plain : Interpreter where
  transactPreverified s env :=
    match env.tx.transactTo with
    | none => .error "no code to create from"
    | some target =>
      if env.tx.gasLimit < 21000 then .error "CallGasCostMoreThanGasLimit"
      else .ok (if PlainCovered s env then .success 21000 (.call []) []
        else .halt 21000 "OutOfFunds", plainChanges s env target)

theorem lookup_map_self {l : List Address} (f : Address → Account) (a : Address) :
    (l.map fun a => (a, f a)).lookup a = if a ∈ l then some (f a) else none := by
  induction l with
  | nil => rfl
  | cons b l ih =>
    rw [List.map_cons, List.lookup_cons, ih]
    by_cases hab : a = b
    · rw [hab, beq_self_eq_true, if_pos List.mem_cons_self]
    · rw [beq_eq_false_iff_ne.mpr hab]
      simp [hab]

/-- A balance that is left is one that can be read. -/
theorem plainRaw_range (hn : s.unifiedState.Native)
    (hcover : (feeOf env.tx.gasLimit env.tx.gasPrice : Int) ≤
      s.unifiedState.nativeRaw env.tx.caller)
    (hgas : (21000 : UInt64) ≤ env.tx.gasLimit) (a : Address) :
    0 ≤ plainRaw s env a ∧ plainRaw s env a < 2 ^ 256 := by
  have hfee : feeOf 21000 env.tx.gasPrice ≤ feeOf env.tx.gasLimit env.tx.gasPrice :=
    Nat.mul_le_mul_right _ hgas
  have hnn := hn.nonneg a
  have hmax := hn.le_max a
  have hcmax := hn.le_max env.tx.caller
  have hp := env.tx.gasPrice.toNat_lt
  have htip : 21000 * (env.tx.gasPrice.toNat - env.block.basefee) ≤ 21000 * 2 ^ 64 :=
    Nat.mul_le_mul_left _ (by omega)
  have hnet : (if a = env.tx.caller then
        -(s.unifiedState.nativeRaw a - feeOf env.tx.gasLimit env.tx.gasPrice) else 0) ≤
        Transfer.net (plainMoves s env) a ∧
      Transfer.net (plainMoves s env) a ≤ s.unifiedState.nativeRaw env.tx.caller := by
    have hself : 0 ≤ s.unifiedState.nativeRaw env.tx.caller := hn.nonneg _
    have hzero : (if a = env.tx.caller then
        -(s.unifiedState.nativeRaw a - feeOf env.tx.gasLimit env.tx.gasPrice) else 0) ≤
        (0 : Int) := by
      split
      · rename_i h
        rw [h]
        omega
      · exact le_refl _
    unfold plainMoves
    cases env.tx.transactTo with
    | none => exact ⟨hzero, hself⟩
    | some target =>
      dsimp only
      by_cases hcov : PlainCovered s env
      · rw [if_pos hcov, Transfer.net_cons, Transfer.net_nil, add_zero, Transfer.delta]
        unfold PlainCovered at hcov
        push_cast at hcov
        dsimp only
        by_cases hc : a = env.tx.caller
        · subst hc
          rw [if_pos rfl, if_pos rfl]
          constructor
          · split <;> omega
          · split <;> omega
        · rw [if_neg hc, if_neg (Ne.symm hc)]
          constructor
          · split <;> omega
          · split <;> omega
      · rw [if_neg hcov, Transfer.net_nil]
        exact ⟨hzero, hself⟩
  obtain ⟨hlo, hhi⟩ := hnet
  unfold i128Max at hmax hcmax
  unfold plainRaw
  constructor
  · by_cases hc : a = env.tx.caller
    · rw [if_pos hc] at hlo ⊢
      split <;> omega
    · rw [if_neg hc] at hlo ⊢
      split <;> omega
  · by_cases hc : a = env.tx.caller
    · rw [if_pos hc]
      split <;> omega
    · rw [if_neg hc]
      split <;> omega

theorem postRaw_plain {target : Address} (hn : s.unifiedState.Native)
    (ht : env.tx.transactTo = some target)
    (hcover : (feeOf env.tx.gasLimit env.tx.gasPrice : Int) ≤
      s.unifiedState.nativeRaw env.tx.caller)
    (hgas : (21000 : UInt64) ≤ env.tx.gasLimit) (a : Address) :
    (plainChanges s env target).postRaw s a = plainRaw s env a := by
  obtain ⟨hlo, hhi⟩ := plainRaw_range s env hn hcover hgas a
  unfold Changes.postRaw plainChanges
  rw [lookup_map_self]
  by_cases hmem : a ∈ [env.tx.caller, target, env.block.coinbase].dedup
  · rw [if_pos hmem]
    change ((Fin.ofNat (2 ^ 256) (plainRaw s env a).toNat).val : Int) = _
    rw [Fin.val_ofNat, Nat.mod_eq_of_lt (by omega)]
    omega
  · rw [if_neg hmem]
    simp only [List.mem_dedup, List.mem_cons, List.not_mem_nil, or_false, not_or] at hmem
    obtain ⟨hcaller, htarget, hcoin⟩ := hmem
    have hnet : Transfer.net (plainMoves s env) a = 0 := by
      unfold plainMoves
      rw [ht]
      dsimp only
      split
      · rw [Transfer.net_cons, Transfer.net_nil, Transfer.delta,
          if_neg fun h => htarget (Option.some.inj h).symm, if_neg (Ne.symm hcaller)]
        rfl
      · rfl
    unfold plainRaw
    rw [hnet, if_neg hcaller, if_neg hcoin]
    dsimp only
    omega

/-- Plain transfers are accounted by the London rules. -/
theorem london_plain : London plain plainMoves := by
  intro s env result changes hn h
  unfold plain at h
  dsimp only at h
  cases ht : env.tx.transactTo with
  | none =>
    rw [ht] at h
    cases h
  | some target =>
    rw [ht] at h
    dsimp only at h
    by_cases hgas : env.tx.gasLimit < 21000
    · rw [if_pos hgas] at h
      cases h
    rw [if_neg hgas] at h
    have hle : (21000 : UInt64) ≤ env.tx.gasLimit := UInt64.not_lt.mp hgas
    obtain ⟨hresult, rfl⟩ := Prod.mk.inj (Except.ok.inj h)
    have hused : result.gasUsed = 21000 := by
      rw [← hresult]
      split <;> rfl
    constructor
    case distinct =>
      unfold plainChanges
      rw [List.map_map]
      change (List.map id _).Nodup
      rw [List.map_id]
      exact List.nodup_dedup _
    case kept =>
      intro p hp hd
      obtain ⟨a, -, rfl⟩ := List.mem_map.mp hp
      cases hd
    case gas_pos =>
      rw [hused]
      decide
    case gas_le =>
      rw [hused]
      exact hle
    case balances =>
      intro hcover a
      rw [hused]
      exact postRaw_plain s env hn ht hcover hle a
    case uncovered =>
      intro hshort
      have hcov : ¬ PlainCovered s env := by
        unfold PlainCovered
        push_cast
        omega
      rw [← hresult, if_neg hcov]
      exact ⟨_, _, rfl⟩
    case failed =>
      intro hfail
      have hcov : ¬ PlainCovered s env := by
        intro hcov
        rw [← hresult, if_pos hcov] at hfail
        cases hfail
      unfold plainMoves
      rw [ht]
      exact if_neg hcov
    case sent =>
      intro hok
      have hcov : PlainCovered s env := by
        by_contra hcov
        rw [← hresult, if_neg hcov] at hok
        cases hok
      refine ⟨target, [], ?_⟩
      unfold plainMoves
      rw [ht]
      exact if_pos hcov

end Interpreter

namespace EvmExecutor

/-- Every precompile answers with its input. -/
def echoed : Precompiles := fun _ input => .ok input

/-- An executor that enforces fees, with 1000000000000000000 raw units in account 1. -/
def funded : Exec EvmExecutor := do
  let x := withUnifiedState .new 1337 0
  return { x with db := ← x.db.setBalance 1 1000000000000000000, enforceGasFees := true }

theorem funded_native {x : EvmExecutor} (h : funded = .ok x) :
    x.db.unifiedState.Native ∧ x.enforceGasFees = true := by
  obtain ⟨db, hdb, h⟩ := bind_inv h
  cases pure_inv h
  have h0 : (withUnifiedState .new 1337 0).db.unifiedState.Native :=
    (EvmState.empty_wf (K := EvmState.tagHash)).native
  obtain ⟨hfit, rfl⟩ := (EvmState.setBalance_native h0).mp hdb
  exact ⟨h0.settle (Int.natCast_nonneg _) hfit, rfl⟩

/-- A transfer of 5 units from account 1 to account 2. -/
def sendFive (gasPrice : UInt64) : EvmTransaction where
  sender := 1
  target := some 2
  value := 5
  data := []
  gasLimit := 30000
  gasPrice := gasPrice
  nonce := 0

/-- A precompile call at 2 gwei. -/
def askMarket : EvmTransaction :=
  { sendFive 2000000000 with
    target := some 0x0802
    value := 0 }

/-- A free transfer is accounted exactly, and a precompile call that pays its fee. -/
theorem feesExact_charged : ∃ x, funded = .ok x ∧
    x.FeesExact EvmState.tagHash .plain echoed Interpreter.plainMoves (sendFive 0) ∧
    x.FeesExact EvmState.tagHash .plain echoed Interpreter.plainMoves askMarket := by
  obtain ⟨x, hx, htest⟩ := exists_of_test (x := funded)
    (p := fun x => (match (Interpreter.plain).transactPreverified x.db (x.env (sendFive 0)) with
      | .ok (_, changes) => decide ((Transfer.burned (Interpreter.plainMoves x.db
          (x.env (sendFive 0))) = 0) ∧ Storable x.db changes)
      | .error _ => false) &&
      decide ((feeOf PrecompileAddress.market.gasCost 2000000000 : Int) ≤
        x.db.unifiedState.nativeRaw 1 ∧ x.db.unifiedState.nativeTotal feeCollectorAddress +
          feeOf PrecompileAddress.market.gasCost 2000000000 < 2 ^ 127))
    (by decide +kernel)
  obtain ⟨hfree, hpaid⟩ := Bool.and_eq_true_iff.mp htest
  obtain ⟨hn, henf⟩ := funded_native hx
  refine ⟨x, hx, (feesExact_iff Interpreter.london_plain hn henf).mpr fun _ => ?_,
    (feesExact_iff Interpreter.london_plain hn henf).mpr fun _ => ?_⟩
  · change ∀ result changes, _ → _
    intro result changes hr
    rw [hr] at hfree
    exact ⟨rfl, of_decide_eq_true hfree⟩
  · change ∀ result, _ → _
    rintro result hr
    cases hr
    exact ⟨.inl rfl, .inr ⟨by decide, of_decide_eq_true hpaid⟩⟩

/-- A transfer at 2 gwei costs its sender twice the fee, and the fee collector receives one
and a half. -/
theorem charged_twice : ∃ x x', funded = .ok x ∧ London .plain Interpreter.plainMoves ∧
    x.executeTx EvmState.tagHash .plain echoed (sendFive 2000000000) =
      .ok (.ok ⟨true, 21000, [], [], none⟩, x') ∧
    x.db.unifiedState.nativeRaw 1 - x'.db.unifiedState.nativeRaw 1 =
      5 + 2 * feeOf 21000 2000000000 ∧
    2 * x'.db.unifiedState.nativeRaw feeCollectorAddress = 3 * feeOf 21000 2000000000 ∧
    ¬ x.FeesExact EvmState.tagHash .plain echoed Interpreter.plainMoves
      (sendFive 2000000000) := by
  obtain ⟨⟨x, r, x'⟩, hrun, htest⟩ := exists_of_test
    (x := (do
      let x ← funded
      let (r, x') ← x.executeTx EvmState.tagHash .plain echoed (sendFive 2000000000)
      return (x, r, x') : Exec (EvmExecutor × _ × EvmExecutor)))
    (p := fun (x, r, x') => r = .ok ⟨true, 21000, [], [], none⟩ ∧
      x.db.unifiedState.nativeRaw 1 - x'.db.unifiedState.nativeRaw 1 =
        5 + 2 * feeOf 21000 2000000000 ∧
      2 * x'.db.unifiedState.nativeRaw feeCollectorAddress = 3 * feeOf 21000 2000000000)
    (by decide +kernel)
  obtain ⟨y, hy, hrun⟩ := bind_inv hrun
  obtain ⟨⟨r', y'⟩, hexec, hrun⟩ := bind_inv hrun
  cases pure_inv hrun
  obtain ⟨rfl, hsent, hgot⟩ := of_decide_eq_true htest
  obtain ⟨hn, henf⟩ := funded_native hy
  refine ⟨x, x', hy, Interpreter.london_plain, hexec, hsent, hgot, fun h => ?_⟩
  have hfree := (feesExact_iff Interpreter.london_plain hn henf).mp h
  -- it passes the pre-check, and the interpreter runs it
  have hpass : x.Passes (sendFive 2000000000) := by
    by_contra hk
    obtain ⟨e, he⟩ := executeTx_refused (K := EvmState.tagHash) (R := .plain)
      (P := echoed) hn henf hk
    rw [he] at hexec
    cases hexec
  exact absurd (hfree hpass _ _ rfl).1 (by decide)

end EvmExecutor

end Hypercore
