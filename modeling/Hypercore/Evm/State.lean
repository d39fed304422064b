import Hypercore.Primitives.UnifiedState
/-!
# Hypercore.Evm.State

The EVM state: account metadata, storage and code of its own, and native balances
that are the EVM view of USDC on the shared balance sheet.

Addresses of both layers are the same 20 bytes. Hashes are byte strings, and
Keccak-256 is a parameter (`Keccak256`), taken as collision-free.
-/

namespace Hypercore

open Exec Int128

/-- Unsigned 256-bit words. -/
abbrev U256 := Fin (2 ^ 256)

instance transOrdU256 : Std.TransOrd U256 := inferInstanceAs (Std.TransOrd (Fin (2 ^ 256)))

/-- An EVM address; `evm_to_account_address` keeps its bytes. -/
abbrev Address := AccountAddress

abbrev Bytes := List UInt8

/-- A hash, as its bytes. -/
abbrev B256 := List UInt8

/-- `B256::ZERO`. -/
def B256.zero : B256 := List.replicate 32 0

/-- The hash function of contract code. -/
structure Keccak256 where
  digest : Bytes → B256
  /-- No collisions. -/
  injective : Function.Injective digest
  /-- Nothing hashes to zero. -/
  ne_zero : ∀ code, digest code ≠ .zero

/-- The token whose EVM view is the native balance. -/
def nativeTokenIndex : TokenIndex := 0

def nativeDecimals : Nat := 6

/-- EVM account metadata (nonce and code hash only). -/
structure EvmAccount where
  nonce : Nat
  /-- `none` for an externally owned account. -/
  codeHash : Option B256
  deriving DecidableEq, Repr

/-- The derived `Default`. -/
def EvmAccount.default : EvmAccount := ⟨0, none⟩

/-- EVM state database. -/
structure EvmState where
  /-- The master balance sheet. -/
  unifiedState : UnifiedState
  accounts : FinMap Address EvmAccount
  storage : FinMap Address (FinMap U256 U256)
  code : FinMap B256 Bytes
  blockHashes : FinMap Nat B256

/-- Largest `i128`. -/
def i128Max : Nat := 2 ^ 127 - 1

/-- The raw value stored for a balance: what does not fit is cut to the largest `i128`. -/
def storedRaw (value : Nat) : Nat := min value i128Max

/-- `u256_to_decimal`. -/
def u256ToDecimal (value : U256) : Decimal := ⟨storedRaw value.val, nativeDecimals⟩

/-- `decimal_to_u256`: brought to six decimals, then cast to `u128`. -/
def decimalToU256 (value : Decimal) : Exec U256 := do
  let adjusted ← value.toDecimals nativeDecimals
  return Fin.ofNat (2 ^ 256) (toU128 adjusted.value)

namespace EvmState

/-- New EVM state on a balance sheet. -/
def withUnifiedState (unifiedState : UnifiedState) : EvmState :=
  ⟨unifiedState, ∅, ∅, ∅, ∅⟩

variable (s : EvmState)

/-- With another balance sheet. -/
def setUnified (u : UnifiedState) : EvmState := { s with unifiedState := u }

/-- Metadata of an account, created if it is missing. -/
def getOrCreateAccount (a : Address) : EvmAccount := (s.accounts[a]?).getD .default

def putAccount (a : Address) (account : EvmAccount) : EvmState :=
  { s with accounts := s.accounts.insert a account }

/-- `accounts.entry(a).or_default()`. -/
def touch (a : Address) : EvmState := s.putAccount a (s.getOrCreateAccount a)

/-- Read a native balance from the EVM view. -/
def getBalance (a : Address) : Exec U256 :=
  decimalToU256 (s.unifiedState.getEvmView a nativeTokenIndex)

/-- Bring the EVM view to a balance by crediting or debiting the difference. -/
def setBalance (a : Address) (balance : U256) : Exec EvmState := do
  let decimalBalance := u256ToDecimal balance
  let current := s.unifiedState.getEvmView a nativeTokenIndex
  let unifiedState ←
    (if current < decimalBalance then do
      let diff ← decimalBalance.sub current
      s.unifiedState.creditEvm a nativeTokenIndex diff
    else if decimalBalance < current then do
      let diff ← current.sub decimalBalance
      return (← s.unifiedState.debitEvm a nativeTokenIndex diff).2
    else return s.unifiedState)
  return (s.setUnified unifiedState).touch a

/-- Add to a balance. -/
def addBalance (a : Address) (amount : U256) : Exec EvmState := do
  let unifiedState ← s.unifiedState.creditEvm a nativeTokenIndex (u256ToDecimal amount)
  return (s.setUnified unifiedState).touch a

/-- Subtract from a balance; `false` if it is insufficient. -/
def subBalance (a : Address) (amount : U256) : Exec (Bool × EvmState) := do
  let (done, unifiedState) ←
    s.unifiedState.debitEvm a nativeTokenIndex (u256ToDecimal amount)
  return (done, s.setUnified unifiedState)

def getNonce (a : Address) : Nat := ((s.accounts[a]?).map (·.nonce)).getD 0

def setNonce (a : Address) (nonce : Nat) : EvmState :=
  s.putAccount a { s.getOrCreateAccount a with nonce }

/-- Store code under its hash and point the account at it. -/
def setCode (K : Keccak256) (a : Address) (code : Bytes) : EvmState :=
  { s with code := s.code.insert (K.digest code) code }.putAccount a
    { s.getOrCreateAccount a with codeHash := some (K.digest code) }

def getCodeByHash (hash : B256) : Option Bytes := s.code[hash]?

/-- Set a storage slot. -/
def setStorage (a : Address) (key value : U256) : EvmState :=
  { s with storage := s.storage.insert a (((s.storage[a]?).getD ∅).insert key value) }

/-- Read a storage slot. -/
def getStorage (a : Address) (key : U256) : U256 :=
  ((s.storage[a]?).bind (·[key]?)).getD 0

/-- Remove an account's metadata and storage. The balance sheet keeps its balance. -/
def deleteAccount (a : Address) : EvmState :=
  { s with accounts := s.accounts.erase a, storage := s.storage.erase a }

end EvmState

/-! ### Native balances -/

namespace UnifiedState

variable (u : UnifiedState)

/-- Raw EVM view of USDC. -/
def nativeRaw (a : Address) : Int := u.evmRaw a nativeTokenIndex

/-- Raw total of USDC. -/
def nativeTotal (a : Address) : Int :=
  ((u.getBalance a nativeTokenIndex).map (·.total.value)).getD 0

/-- A USDC entry in good order: six decimals, an EVM view that is not negative and that
the total covers. -/
structure NativeEntry (b : UnifiedBalance) : Prop where
  decimals : b.evmView.decimals = nativeDecimals
  nonneg : 0 ≤ b.evmView.value
  covered : b.evmView.value ≤ b.total.value
  range : b.total.value < 2 ^ 127

/-- All USDC entries are in good order. -/
def Native : Prop := ∀ a b, u.getBalance a nativeTokenIndex = some b → NativeEntry b

/-- Write an EVM view; the total moves with it. -/
def putNative (a : Address) (raw : Int) : UnifiedState :=
  u.setBalance a nativeTokenIndex
    { u.entryFor a nativeTokenIndex ⟨0, nativeDecimals⟩ with
      total := ⟨u.nativeTotal a + (raw - u.nativeRaw a),
        (u.entryFor a nativeTokenIndex ⟨0, nativeDecimals⟩).total.decimals⟩
      evmView := ⟨raw, nativeDecimals⟩ }

variable {u} {a b : Address}

theorem nativeRaw_none (h : u.getBalance a nativeTokenIndex = none) : u.nativeRaw a = 0 := by
  unfold nativeRaw evmRaw getEvmView
  rw [h]

theorem nativeRaw_some {x : UnifiedBalance} (h : u.getBalance a nativeTokenIndex = some x) :
    u.nativeRaw a = x.evmView.value := by
  unfold nativeRaw evmRaw getEvmView
  rw [h]

theorem nativeTotal_none (h : u.getBalance a nativeTokenIndex = none) : u.nativeTotal a = 0 := by
  unfold nativeTotal
  rw [h]
  rfl

theorem nativeTotal_some {x : UnifiedBalance} (h : u.getBalance a nativeTokenIndex = some x) :
    u.nativeTotal a = x.total.value := by
  unfold nativeTotal
  rw [h]
  rfl

theorem Native.getEvmView (h : u.Native) (a : Address) :
    u.getEvmView a nativeTokenIndex = ⟨u.nativeRaw a, nativeDecimals⟩ := by
  unfold nativeRaw evmRaw UnifiedState.getEvmView
  cases hb : u.getBalance a nativeTokenIndex with
  | none => rfl
  | some x => exact congrArg (Decimal.mk x.evmView.value) (h a x hb).decimals

theorem Native.nonneg (h : u.Native) (a : Address) : 0 ≤ u.nativeRaw a := by
  cases hb : u.getBalance a nativeTokenIndex with
  | none => rw [nativeRaw_none hb]
  | some x =>
    rw [nativeRaw_some hb]
    exact (h a x hb).nonneg

theorem Native.covered (h : u.Native) (a : Address) : u.nativeRaw a ≤ u.nativeTotal a := by
  cases hb : u.getBalance a nativeTokenIndex with
  | none => rw [nativeRaw_none hb, nativeTotal_none hb]
  | some x =>
    rw [nativeRaw_some hb, nativeTotal_some hb]
    exact (h a x hb).covered

theorem Native.range (h : u.Native) (a : Address) : u.nativeTotal a < 2 ^ 127 := by
  cases hb : u.getBalance a nativeTokenIndex with
  | none =>
    rw [nativeTotal_none hb]
    norm_num
  | some x =>
    rw [nativeTotal_some hb]
    exact (h a x hb).range

theorem Native.le_max (h : u.Native) (a : Address) : u.nativeRaw a ≤ i128Max := by
  have hcov := h.covered a
  have hrange := h.range a
  unfold i128Max
  omega

/-- An entry created for an amount at six decimals is the one created for zero. -/
theorem entryFor_native (u : UnifiedState) (a : Address) (v : Int) :
    u.entryFor a nativeTokenIndex ⟨v, nativeDecimals⟩ =
      u.entryFor a nativeTokenIndex ⟨0, nativeDecimals⟩ := rfl

theorem entryFor_total (u : UnifiedState) (a : Address) :
    (u.entryFor a nativeTokenIndex ⟨0, nativeDecimals⟩).total.value = u.nativeTotal a := by
  unfold entryFor nativeTotal
  cases u.getBalance a nativeTokenIndex <;> rfl

theorem Native.entryFor_evm (h : u.Native) (a : Address) :
    (u.entryFor a nativeTokenIndex ⟨0, nativeDecimals⟩).evmView =
      ⟨u.nativeRaw a, nativeDecimals⟩ := by
  unfold UnifiedState.entryFor
  cases hb : u.getBalance a nativeTokenIndex with
  | none =>
    rw [nativeRaw_none hb]
    rfl
  | some x =>
    rw [nativeRaw_some hb]
    exact congrArg (Decimal.mk x.evmView.value) (h a x hb).decimals

theorem nativeRaw_putNative (raw : Int) :
    (u.putNative a raw).nativeRaw b = if a = b then raw else u.nativeRaw b := by
  unfold nativeRaw putNative
  rw [evmRaw_setBalance]
  simp only [and_true]

theorem coreRaw_putNative (raw : Int) :
    (u.putNative a raw).coreRaw b nativeTokenIndex = u.coreRaw b nativeTokenIndex := by
  unfold putNative
  rw [coreRaw_setBalance]
  split
  · rename_i h
    rw [← h.1, entryFor_core]
  · rfl

theorem nativeTotal_putNative (raw : Int) :
    (u.putNative a raw).nativeTotal b =
      if a = b then u.nativeTotal a + (raw - u.nativeRaw a) else u.nativeTotal b := by
  conv_lhs => unfold nativeTotal putNative
  rw [getBalance_setBalance]
  by_cases h : a = b
  · rw [if_pos ⟨h, rfl⟩, if_pos h]
    rfl
  · rw [if_neg fun hk => h hk.1, if_neg h]
    rfl

theorem Native.putNative (h : u.Native) {raw : Int} (h0 : 0 ≤ raw)
    (hfit : u.nativeTotal a + (raw - u.nativeRaw a) < 2 ^ 127) : (u.putNative a raw).Native := by
  intro b x hx
  have hcov := h.covered a
  unfold UnifiedState.putNative at hx
  rw [getBalance_setBalance] at hx
  split at hx
  · cases hx
    exact ⟨rfl, h0, by dsimp only; omega, hfit⟩
  · exact h b x hx

/-- Crediting at six decimals writes the sum, if the total has room for it. -/
theorem Native.creditEvm (h : u.Native) {v : Int} (hv : 0 ≤ v) {w : UnifiedState} :
    u.creditEvm a nativeTokenIndex ⟨v, nativeDecimals⟩ = .ok w ↔
      u.nativeTotal a + v < 2 ^ 127 ∧ w = u.putNative a (u.nativeRaw a + v) := by
  have hcov := h.covered a
  have hnn := h.nonneg a
  unfold UnifiedState.creditEvm UnifiedState.putNative
  rw [entryFor_native]
  simp only [bind_eq_ok, pure_eq_ok, Decimal.add_eq_ok, entryFor_total, h.entryFor_evm]
  have hsum : u.nativeRaw a + v - u.nativeRaw a = v := by omega
  rw [hsum]
  constructor
  · rintro ⟨total, ⟨htotal, rfl⟩, evm, ⟨-, rfl⟩, rfl⟩
    exact ⟨htotal.2, rfl⟩
  · rintro ⟨hfit, rfl⟩
    exact ⟨_, ⟨⟨by omega, hfit⟩, rfl⟩, _, ⟨⟨by omega, by omega⟩, rfl⟩, rfl⟩

/-- A debit that is covered writes the difference; another one is refused. -/
theorem Native.debitEvm (h : u.Native) {v : Int} (hv : 0 ≤ v) :
    u.debitEvm a nativeTokenIndex ⟨v, nativeDecimals⟩ =
      if (u.getBalance a nativeTokenIndex).isSome ∧ v ≤ u.nativeRaw a then
        .ok (true, u.putNative a (u.nativeRaw a - v))
      else .ok (false, u) := by
  have hcov := h.covered a
  have hnn := h.nonneg a
  have hrange := h.range a
  unfold UnifiedState.debitEvm
  cases hb : u.getBalance a nativeTokenIndex with
  | none => rfl
  | some x =>
    have hentry : u.entryFor a nativeTokenIndex ⟨0, nativeDecimals⟩ = x := by
      unfold UnifiedState.entryFor
      rw [hb]
      rfl
    have hle : (⟨v, nativeDecimals⟩ : Decimal) ≤ x.evmView ↔ v ≤ u.nativeRaw a := by
      rw [Decimal.le_iff_of_decimals (h a x hb).decimals.symm, nativeRaw_some hb]
    by_cases hvb : v ≤ u.nativeRaw a
    · have htotal : x.total.sub ⟨v, nativeDecimals⟩ =
          .ok ⟨x.total.value - v, x.total.decimals⟩ := by
        rw [nativeTotal_some hb] at hcov hrange
        exact Decimal.sub_eq_ok.mpr ⟨⟨by dsimp only; omega, by dsimp only; omega⟩, rfl⟩
      have hevm : x.evmView.sub ⟨v, nativeDecimals⟩ =
          .ok ⟨x.evmView.value - v, x.evmView.decimals⟩ := by
        rw [nativeRaw_some hb] at hvb hnn hcov
        exact Decimal.sub_eq_ok.mpr ⟨⟨by dsimp only; omega, by dsimp only; omega⟩, rfl⟩
      rw [if_pos ⟨rfl, hvb⟩]
      simp only [if_pos (hle.mpr hvb), htotal, hevm, ok_bind]
      unfold UnifiedState.putNative
      rw [hentry, nativeTotal_some hb, nativeRaw_some hb, (h a x hb).decimals]
      congr 5
      omega
    · rw [if_neg fun hk => hvb hk.2]
      simp only [if_neg fun hk => hvb (hle.mp hk)]
      rfl

/-- Bring an EVM view to a raw value; nothing is written if it is there already. -/
def settle (u : UnifiedState) (a : Address) (raw : Int) : UnifiedState :=
  if raw = u.nativeRaw a then u else u.putNative a raw

theorem nativeRaw_settle (raw : Int) :
    (u.settle a raw).nativeRaw b = if a = b then raw else u.nativeRaw b := by
  unfold settle
  by_cases h : raw = u.nativeRaw a
  · rw [if_pos h]
    split
    · rename_i hab
      rw [h, hab]
    · rfl
  · rw [if_neg h, nativeRaw_putNative]

theorem nativeTotal_settle (raw : Int) :
    (u.settle a raw).nativeTotal b =
      if a = b then u.nativeTotal a + (raw - u.nativeRaw a) else u.nativeTotal b := by
  unfold settle
  by_cases h : raw = u.nativeRaw a
  · rw [if_pos h, h, sub_self, add_zero]
    split
    · rename_i hab
      rw [hab]
    · rfl
  · rw [if_neg h, nativeTotal_putNative]

theorem coreRaw_settle (raw : Int) :
    (u.settle a raw).coreRaw b nativeTokenIndex = u.coreRaw b nativeTokenIndex := by
  unfold settle
  split
  · rfl
  · exact coreRaw_putNative raw

theorem Native.settle (h : u.Native) {raw : Int} (h0 : 0 ≤ raw)
    (hfit : u.nativeTotal a + (raw - u.nativeRaw a) < 2 ^ 127) : (u.settle a raw).Native := by
  unfold UnifiedState.settle
  split
  · exact h
  · exact h.putNative h0 hfit

/-- The native balance, as the EVM reads it. -/
def nativeWord (u : UnifiedState) (a : Address) : U256 :=
  Fin.ofNat (2 ^ 256) (u.nativeRaw a).toNat

theorem Native.nativeWord_val (h : u.Native) (a : Address) :
    ((u.nativeWord a).val : Int) = u.nativeRaw a := by
  have hnn := h.nonneg a
  have hmax := h.le_max a
  unfold i128Max at hmax
  unfold nativeWord
  rw [Fin.val_ofNat]
  omega

end UnifiedState

namespace EvmState

variable {s s' : EvmState} {a b : Address}

theorem getBalance_native (h : s.unifiedState.Native) (a : Address) :
    s.getBalance a = .ok (s.unifiedState.nativeWord a) := by
  have hnn := h.nonneg a
  have hmax := h.le_max a
  unfold i128Max at hmax
  have hcast : toU128 (s.unifiedState.nativeRaw a) = (s.unifiedState.nativeRaw a).toNat := by
    unfold toU128
    omega
  unfold getBalance decimalToU256
  rw [h.getEvmView]
  unfold Decimal.toDecimals
  rw [if_pos rfl, ok_bind, hcast]
  rfl

/-- **Setting a balance.** It returns when the account's total has room, and leaves what
`i128` can hold of the balance. -/
theorem setBalance_native (h : s.unifiedState.Native) {v : U256} :
    s.setBalance a v = .ok s' ↔
      s.unifiedState.nativeTotal a + (storedRaw v.val - s.unifiedState.nativeRaw a) < 2 ^ 127 ∧
      s' = (s.setUnified (s.unifiedState.settle a (storedRaw v.val))).touch a := by
  have hnn := h.nonneg a
  have hcov := h.covered a
  have hmax := h.le_max a
  have hrange := h.range a
  have hstored : storedRaw v.val ≤ i128Max := min_le_right _ _
  unfold i128Max at hmax hstored
  have hcmp : ∀ x y : Int, (⟨x, nativeDecimals⟩ : Decimal) < ⟨y, nativeDecimals⟩ ↔ x < y :=
    fun x y => Decimal.lt_iff_of_decimals rfl
  unfold setBalance u256ToDecimal
  rw [h.getEvmView]
  simp only [hcmp]
  rw [bind_eq_ok]
  simp only [pure_eq_ok]
  unfold UnifiedState.settle
  rcases lt_trichotomy (s.unifiedState.nativeRaw a) (storedRaw v.val) with hlt | heq | hgt
  · -- the difference is credited
    have hsub : (⟨storedRaw v.val, nativeDecimals⟩ : Decimal).sub
        ⟨s.unifiedState.nativeRaw a, nativeDecimals⟩ =
        .ok ⟨storedRaw v.val - s.unifiedState.nativeRaw a, nativeDecimals⟩ :=
      Decimal.sub_eq_ok.mpr ⟨⟨by dsimp only; omega, by dsimp only; omega⟩, rfl⟩
    have hto : s.unifiedState.nativeRaw a + (storedRaw v.val - s.unifiedState.nativeRaw a) =
        storedRaw v.val := by omega
    rw [if_pos hlt, if_neg (by omega), hsub, ok_bind]
    simp only [h.creditEvm (a := a)
      (show 0 ≤ (storedRaw v.val : Int) - s.unifiedState.nativeRaw a by omega), hto]
    constructor
    · rintro ⟨u, ⟨hfit, rfl⟩, rfl⟩
      exact ⟨hfit, rfl⟩
    · rintro ⟨hfit, rfl⟩
      exact ⟨_, ⟨hfit, rfl⟩, rfl⟩
  · rw [if_neg (by omega), if_neg (by omega), if_pos heq.symm]
    constructor
    · rintro ⟨u, hu, rfl⟩
      cases hu
      exact ⟨by omega, rfl⟩
    · rintro ⟨-, rfl⟩
      exact ⟨_, rfl, rfl⟩
  · -- the difference is debited, which the balance always covers
    have hsub : (⟨s.unifiedState.nativeRaw a, nativeDecimals⟩ : Decimal).sub
        ⟨storedRaw v.val, nativeDecimals⟩ =
        .ok ⟨s.unifiedState.nativeRaw a - storedRaw v.val, nativeDecimals⟩ :=
      Decimal.sub_eq_ok.mpr ⟨⟨by dsimp only; omega, by dsimp only; omega⟩, rfl⟩
    have hto : s.unifiedState.nativeRaw a - (s.unifiedState.nativeRaw a - storedRaw v.val) =
        storedRaw v.val := by omega
    have hsome : (s.unifiedState.getBalance a nativeTokenIndex).isSome = true := by
      cases hb : s.unifiedState.getBalance a nativeTokenIndex with
      | none =>
        rw [UnifiedState.nativeRaw_none hb] at hgt
        omega
      | some x => rfl
    rw [if_neg (by omega), if_pos hgt, if_neg (by omega), hsub, ok_bind,
      h.debitEvm (a := a) (by omega), if_pos ⟨hsome, by omega⟩, hto]
    constructor
    · rintro ⟨u, hu, rfl⟩
      cases hu
      exact ⟨by omega, rfl⟩
    · rintro ⟨-, rfl⟩
      exact ⟨_, rfl, rfl⟩

/-! ### Frames -/

@[simp] theorem unifiedState_putAccount (x : EvmAccount) :
    (s.putAccount a x).unifiedState = s.unifiedState := rfl

@[simp] theorem code_putAccount (x : EvmAccount) : (s.putAccount a x).code = s.code := rfl

@[simp] theorem storage_putAccount (x : EvmAccount) :
    (s.putAccount a x).storage = s.storage := rfl

theorem accounts_putAccount (x : EvmAccount) :
    (s.putAccount a x).accounts[b]? = if a = b then some x else s.accounts[b]? := by
  unfold putAccount
  dsimp only
  rw [FinMap.get_insert]

theorem getStorage_setStorage (key value k : U256) :
    (s.setStorage a key value).getStorage b k =
      if a = b ∧ key = k then value else s.getStorage b k := by
  unfold setStorage getStorage
  dsimp only
  rw [FinMap.get_insert]
  by_cases hab : a = b
  · subst hab
    rw [if_pos rfl, Option.bind_some, FinMap.get_insert]
    by_cases hk : key = k
    · rw [if_pos hk, if_pos ⟨rfl, hk⟩]
      rfl
    · rw [if_neg hk, if_neg fun h => hk h.2]
      cases s.storage[a]? with
      | none => simp
      | some m => rfl
  · rw [if_neg hab, if_neg fun h => hab h.1]

end EvmState

end Hypercore
