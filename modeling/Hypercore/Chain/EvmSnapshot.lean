import Hypercore.Chain.Abci
/-!
# Hypercore.Chain.EvmSnapshot

Rollback of the EVM state.

A snapshot has the metadata, storage and code, and the balances of the accounts that have
metadata. Balances live on the shared balance sheet, so restoring sets the listed ones again,
one by one, and leaves every other address as it is. `Shifts` is what any operation does to
one native balance; a run of operations keeps the part of each total that is not native.
-/

namespace Hypercore

open Exec Int128

/-! ### Native balances in general -/

namespace UnifiedState

/-- Decimal places of an EVM view of USDC. -/
def nativePlaces (u : UnifiedState) (a : Address) : Nat :=
  (u.getEvmView a nativeTokenIndex).decimals

/-- Raw values are `i128`s. -/
def Raw128 (u : UnifiedState) : Prop :=
  ∀ a, InRange (u.nativeRaw a) ∧ InRange (u.nativeTotal a)

/-- The native balance of `a` and its total move by `δ`. -/
structure Shifts (u u' : UnifiedState) (a : Address) (δ : Int) : Prop where
  raw : ∀ b, u'.nativeRaw b = u.nativeRaw b + if a = b then δ else 0
  total : ∀ b, u'.nativeTotal b = u.nativeTotal b + if a = b then δ else 0
  places : ∀ b, u'.nativePlaces b = u.nativePlaces b

variable {u u' w : UnifiedState} {a b : Address} {v δ ε : Int}

theorem getEvmView_eq (u : UnifiedState) (a : Address) :
    u.getEvmView a nativeTokenIndex = ⟨u.nativeRaw a, u.nativePlaces a⟩ := rfl

theorem Shifts.refl (u : UnifiedState) (a : Address) : Shifts u u a 0 where
  raw b := by rw [ite_self, add_zero]
  total b := by rw [ite_self, add_zero]
  places _ := rfl

theorem Shifts.raw128 (h : Shifts u u' a δ) (hu : u.Raw128)
    (hraw : InRange (u.nativeRaw a + δ)) (htotal : InRange (u.nativeTotal a + δ)) :
    u'.Raw128 := by
  intro b
  rw [h.raw, h.total]
  by_cases hab : a = b
  · subst hab
    rw [if_pos rfl]
    exact ⟨hraw, htotal⟩
  · rw [if_neg hab, add_zero, add_zero]
    exact hu b

/-- The entry of `a`, or the one that is made for it, with both raw values moved. -/
theorem shifts_write {total : Decimal} (htotal : total.value = u.nativeTotal a + δ)
    (core : Decimal) :
    Shifts u (u.setBalance a nativeTokenIndex
      ⟨total, core, ⟨u.nativeRaw a + δ, u.nativePlaces a⟩⟩) a δ := by
  refine ⟨fun b => ?_, fun b => ?_, fun b => ?_⟩
  · unfold nativeRaw
    rw [evmRaw_setBalance]
    by_cases hab : a = b
    · rw [if_pos ⟨hab, rfl⟩, if_pos hab, ← hab]
    · rw [if_neg fun h => hab h.1, if_neg hab, add_zero]
  · by_cases hab : a = b
    · subst hab
      rw [if_pos rfl, ← htotal]
      unfold nativeTotal
      rw [getBalance_setBalance, if_pos ⟨rfl, rfl⟩]
      rfl
    · rw [if_neg hab, add_zero]
      unfold nativeTotal
      rw [getBalance_setBalance, if_neg fun h => hab h.1]
  · unfold nativePlaces getEvmView
    rw [getBalance_setBalance]
    by_cases hab : a = b
    · subst hab
      rw [if_pos ⟨rfl, rfl⟩]
    · rw [if_neg fun h => hab h.1]

/-- Entries made for an amount at six decimals look like missing ones. -/
theorem entryFor_evm_eq (u : UnifiedState) (a : Address) :
    (u.entryFor a nativeTokenIndex ⟨v, nativeDecimals⟩).evmView =
      ⟨u.nativeRaw a, u.nativePlaces a⟩ := by
  rw [← getEvmView_eq]
  unfold entryFor UnifiedState.getEvmView
  cases u.getBalance a nativeTokenIndex <;> rfl

/-- **Crediting.** -/
theorem creditEvm_shifts (h : u.creditEvm a nativeTokenIndex ⟨v, nativeDecimals⟩ = .ok u') :
    Shifts u u' a v ∧ InRange (u.nativeRaw a + v) ∧ InRange (u.nativeTotal a + v) := by
  unfold creditEvm at h
  rw [entryFor_native] at h
  simp only [bind_eq_ok, pure_eq_ok, Decimal.add_eq_ok, entryFor_total, entryFor_evm_eq] at h
  obtain ⟨_, ⟨htotal, rfl⟩, _, ⟨hraw, rfl⟩, rfl⟩ := h
  exact ⟨shifts_write rfl _, hraw, htotal⟩

theorem creditEvm_returns (hraw : InRange (u.nativeRaw a + v))
    (htotal : InRange (u.nativeTotal a + v)) :
    ∃ u', u.creditEvm a nativeTokenIndex ⟨v, nativeDecimals⟩ = .ok u' := by
  unfold creditEvm
  rw [entryFor_native]
  simp only [bind_eq_ok, pure_eq_ok, Decimal.add_eq_ok, entryFor_total, entryFor_evm_eq]
  exact ⟨_, _, ⟨htotal, rfl⟩, _, ⟨hraw, rfl⟩, rfl⟩

variable {x : UnifiedBalance} {amount : Decimal}

theorem getEvmView_of_getBalance (h : u.getBalance a nativeTokenIndex = some x) :
    x.evmView = ⟨u.nativeRaw a, u.nativePlaces a⟩ := by
  rw [← getEvmView_eq]
  unfold UnifiedState.getEvmView
  rw [h]

/-- Writing back an entry with an amount taken off. -/
theorem shifts_debit (hx : u.getBalance a nativeTokenIndex = some x) {total evm : Decimal}
    (htotal : x.total.sub amount = .ok total) (hevm : x.evmView.sub amount = .ok evm) :
    Shifts u (u.setBalance a nativeTokenIndex ⟨total, x.coreView, evm⟩) a (-amount.value) ∧
      InRange (u.nativeRaw a - amount.value) ∧ InRange (u.nativeTotal a - amount.value) := by
  obtain ⟨hrt, rfl⟩ := Decimal.sub_eq_ok.mp htotal
  obtain ⟨hre, rfl⟩ := Decimal.sub_eq_ok.mp hevm
  rw [← nativeTotal_some hx] at hrt
  rw [getEvmView_of_getBalance hx] at hre ⊢
  refine ⟨?_, hre, hrt⟩
  exact shifts_write (by rw [nativeTotal_some hx, ← sub_eq_add_neg]) x.coreView

/-- A debit that the view covers. -/
theorem debitEvm_covered (hx : u.getBalance a nativeTokenIndex = some x) {r : Bool}
    (hle : amount ≤ x.evmView) (h : u.debitEvm a nativeTokenIndex amount = .ok (r, u')) :
    Shifts u u' a (-amount.value) ∧
      InRange (u.nativeRaw a - amount.value) ∧ InRange (u.nativeTotal a - amount.value) := by
  unfold debitEvm at h
  simp only [hx, if_pos hle, bind_eq_ok, pure_eq_ok, Prod.mk.injEq] at h
  obtain ⟨total, htotal, evm, hevm, -, rfl⟩ := h
  exact shifts_debit hx htotal hevm

/-- **Debiting.** -/
theorem debitEvm_shifts {r : Bool} (h : u.debitEvm a nativeTokenIndex amount = .ok (r, u')) :
    u' = u ∨ (Shifts u u' a (-amount.value) ∧ amount.value ≤ u.nativeRaw a ∧
      InRange (u.nativeRaw a - amount.value) ∧ InRange (u.nativeTotal a - amount.value)) := by
  cases hx : u.getBalance a nativeTokenIndex with
  | none =>
    unfold debitEvm at h
    rw [hx] at h
    cases h
    exact .inl rfl
  | some x =>
    by_cases hle : amount ≤ x.evmView
    · obtain ⟨hs, hranges⟩ := debitEvm_covered hx hle h
      refine .inr ⟨hs, ?_, hranges⟩
      rw [getEvmView_of_getBalance hx, Decimal.le_def] at hle
      dsimp only at hle
      omega
    · unfold debitEvm at h
      simp only [hx, if_neg hle] at h
      cases h
      exact .inl rfl

theorem debitEvm_returns (hraw : InRange (u.nativeRaw a - amount.value))
    (htotal : InRange (u.nativeTotal a - amount.value)) :
    ∃ r, u.debitEvm a nativeTokenIndex amount = .ok r := by
  unfold debitEvm
  cases hx : u.getBalance a nativeTokenIndex with
  | none => exact ⟨_, rfl⟩
  | some x =>
    dsimp only
    split
    · rw [nativeTotal_some hx] at htotal
      rw [nativeRaw_some hx] at hraw
      simp only [bind_eq_ok, pure_eq_ok, Decimal.sub_eq_ok]
      exact ⟨_, _, ⟨htotal, rfl⟩, _, ⟨hraw, rfl⟩, rfl⟩
    · exact ⟨_, rfl⟩

/-- What operations of the EVM keep of every native balance: the rest of the total, the
decimal places, the ranges, and that a balance never falls below zero. -/
structure Moved (u u' : UnifiedState) : Prop where
  rest : ∀ b, u'.nativeTotal b - u'.nativeRaw b = u.nativeTotal b - u.nativeRaw b
  places : ∀ b, u'.nativePlaces b = u.nativePlaces b
  nonneg : ∀ b, 0 ≤ u.nativeRaw b → 0 ≤ u'.nativeRaw b
  raw128 : u.Raw128 → u'.Raw128

theorem Moved.refl (u : UnifiedState) : Moved u u :=
  ⟨fun _ => rfl, fun _ => rfl, fun _ h => h, fun h => h⟩

theorem Moved.trans (h : Moved u u') (h' : Moved u' w) : Moved u w where
  rest b := (h'.rest b).trans (h.rest b)
  places b := (h'.places b).trans (h.places b)
  nonneg b hb := h'.nonneg b (h.nonneg b hb)
  raw128 hu := h'.raw128 (h.raw128 hu)

theorem Shifts.moved (h : Shifts u u' a δ) (hnn : 0 ≤ u.nativeRaw a → 0 ≤ u.nativeRaw a + δ)
    (hraw : InRange (u.nativeRaw a + δ)) (htotal : InRange (u.nativeTotal a + δ)) :
    Moved u u' where
  rest b := by
    rw [h.raw, h.total]
    omega
  places := h.places
  nonneg b hb := by
    rw [h.raw]
    by_cases hab : a = b
    · subst hab
      rw [if_pos rfl]
      exact hnn hb
    · rwa [if_neg hab, add_zero]
  raw128 hu := h.raw128 hu hraw htotal

theorem creditEvm_moved (hv : 0 ≤ v)
    (h : u.creditEvm a nativeTokenIndex ⟨v, nativeDecimals⟩ = .ok u') : Moved u u' := by
  obtain ⟨hs, hraw, htotal⟩ := creditEvm_shifts h
  exact hs.moved (by omega) hraw htotal

theorem debitEvm_moved {r : Bool} (h : u.debitEvm a nativeTokenIndex amount = .ok (r, u')) :
    Moved u u' := by
  rcases debitEvm_shifts h with rfl | ⟨hs, hle, hraw, htotal⟩
  · exact Moved.refl _
  · exact hs.moved (by omega) hraw htotal

/-- A transfer debits an entry that covers it, then credits. -/
theorem transferEvm_moved {r : Bool} (hv : 0 ≤ v)
    (h : u.transferEvm a b nativeTokenIndex ⟨v, nativeDecimals⟩ = .ok (r, u')) : Moved u u' := by
  unfold transferEvm at h
  dsimp only at h
  split at h
  · cases h
    exact Moved.refl _
  · rename_i hle
    simp only [bind_eq_ok, pure_eq_ok, Prod.mk.injEq] at h
    obtain ⟨w, hw, u'', hcredit, -, rfl⟩ := h
    refine Moved.trans ?_ (creditEvm_moved hv hcredit)
    cases hx : u.getBalance a nativeTokenIndex with
    | none =>
      rw [hx] at hw
      cases hw
      exact Moved.refl _
    | some x =>
      rw [hx, Option.map_some, Option.getD_some, Decimal.not_lt] at hle
      rw [hx] at hw
      have hdebit : u.debitEvm a nativeTokenIndex ⟨v, nativeDecimals⟩ = .ok (true, w) := by
        unfold debitEvm
        simp only [hx, if_pos hle, bind_eq_ok, pure_eq_ok, Prod.mk.injEq, true_and] at hw ⊢
        exact hw
      exact debitEvm_moved hdebit

end UnifiedState

/-! ### Reading back -/

theorem storedRaw_inRange (n : Nat) : InRange (storedRaw n) := by
  have h : storedRaw n ≤ i128Max := min_le_right _ _
  unfold i128Max at h
  exact ⟨by omega, by omega⟩

variable {x : Int} {d : Nat}

/-- An `i128` as a word: a negative one becomes at least `2 ^ 127`. -/
theorem word_cases (h : InRange x) :
    (0 ≤ x ∧ ((Fin.ofNat (2 ^ 256) (toU128 x)).val : Int) = x) ∨
      (x < 0 ∧ (2 : Int) ^ 127 ≤ (Fin.ofNat (2 ^ 256) (toU128 x)).val) := by
  obtain ⟨hlo, hhi⟩ := h
  unfold toU128
  rw [Fin.val_ofNat]
  rcases lt_or_ge x 0 with hx | hx
  · exact .inr ⟨hx, by omega⟩
  · exact .inl ⟨hx, by omega⟩

/-- `y` is `x` brought from `d` places to six, as far as that can be done. -/
def Scaled (x : Int) (d : Nat) (y : Int) : Prop :=
  (d = 6 ∧ y = x) ∨ (d < 6 ∧ InRange (x * 10 ^ (6 - d)) ∧ y = x * 10 ^ (6 - d)) ∨
    (6 < d ∧ InRange (10 ^ (d - 6)) ∧ y = x.tdiv (10 ^ (d - 6)))

/-- Reading a view. -/
theorem decimalToU256_eq_ok {v : U256} :
    decimalToU256 ⟨x, d⟩ = .ok v ↔ ∃ y, Scaled x d y ∧ Fin.ofNat (2 ^ 256) (toU128 y) = v := by
  unfold decimalToU256 Decimal.toDecimals nativeDecimals Scaled
  dsimp only
  rcases lt_trichotomy d 6 with hd | rfl | hd
  · have hscale : InRange (10 ^ (6 - d)) := by
      have hle : (10 : Int) ^ (6 - d) ≤ 10 ^ 6 := pow_le_pow_right₀ (by omega) (by omega)
      have hpos : (0 : Int) < 10 ^ (6 - d) := by positivity
      exact ⟨by omega, by omega⟩
    rw [if_neg (by omega), if_pos hd]
    simp only [bind_eq_ok, pure_eq_ok, Decimal.pow10_eq_ok, i128_eq_ok]
    constructor
    · rintro ⟨_, ⟨_, ⟨-, rfl⟩, _, ⟨hr, rfl⟩, rfl⟩, rfl⟩
      exact ⟨_, .inr (.inl ⟨hd, hr, rfl⟩), rfl⟩
    · rintro ⟨y, ⟨rfl, -⟩ | ⟨-, hr, rfl⟩ | ⟨hd', -⟩, rfl⟩
      · omega
      · exact ⟨_, ⟨_, ⟨hscale, rfl⟩, _, ⟨hr, rfl⟩, rfl⟩, rfl⟩
      · omega
  · simp
  · rw [if_neg (by omega), if_neg (by omega)]
    simp only [bind_eq_ok, pure_eq_ok, Decimal.pow10_eq_ok]
    constructor
    · rintro ⟨_, ⟨_, ⟨hr, rfl⟩, rfl⟩, rfl⟩
      exact ⟨_, .inr (.inr ⟨hd, hr, rfl⟩), rfl⟩
    · rintro ⟨y, ⟨rfl, -⟩ | ⟨hd', -⟩ | ⟨-, hr, rfl⟩, rfl⟩
      · omega
      · omega
      · exact ⟨_, ⟨_, ⟨hr, rfl⟩, rfl⟩, rfl⟩

theorem Scaled.inRange {y : Int} (h : Scaled x d y) (hx : InRange x) :
    InRange y := by
  rcases h with ⟨-, rfl⟩ | ⟨-, hr, rfl⟩ | ⟨-, -, rfl⟩
  · exact hx
  · exact hr
  · have hle := natAbs_tdiv_le x (10 ^ (d - 6))
    have hneg : x ≤ 0 → x.tdiv (10 ^ (d - 6)) ≤ 0 := fun h0 => by
      have h := Int.tdiv_nonneg (Int.neg_nonneg_of_nonpos h0) (b := 10 ^ (d - 6)) (by positivity)
      rw [Int.neg_tdiv] at h
      omega
    obtain ⟨hlo, hhi⟩ := hx
    exact ⟨by omega, by omega⟩

/-- Scaling keeps the sign. -/
theorem Scaled.nonneg {y : Int} (h : Scaled x d y) (hx : 0 ≤ x) : 0 ≤ y := by
  rcases h with ⟨-, rfl⟩ | ⟨-, -, rfl⟩ | ⟨-, -, rfl⟩
  · exact hx
  · positivity
  · exact Int.tdiv_nonneg hx (by positivity)

/-- Only at six places, or at zero, is a value that is not negative its own scaling. -/
theorem Scaled.eq_self (h : Scaled x d x) (hx : 0 ≤ x) : d = 6 ∨ x = 0 := by
  have hten : ∀ k : Nat, 0 < k → (2 : Int) ≤ 10 ^ k := fun k hk => by
    have hle : (10 : Int) ^ 1 ≤ 10 ^ k := pow_le_pow_right₀ (by omega) (by omega)
    omega
  rcases h with ⟨hd, -⟩ | ⟨hd, -, heq⟩ | ⟨hd, -, heq⟩
  · exact .inl hd
  · have := hten (6 - d) (by omega)
    right
    nlinarith
  · have hk := hten (d - 6) (by omega)
    right
    obtain ⟨r, hr, hr0, -⟩ := tdiv_spec (x := x) (d := 10 ^ (d - 6)) (by omega)
    have := hr0 hx
    rw [← heq] at hr
    nlinarith

theorem storedRaw_of_word (hx : InRange x) (h0 : 0 ≤ x) :
    (storedRaw (Fin.ofNat (2 ^ 256) (toU128 x)).val : Int) = x := by
  rcases word_cases hx with ⟨-, h⟩ | ⟨h, -⟩
  · obtain ⟨-, hhi⟩ := hx
    unfold storedRaw i128Max
    omega
  · omega

/-- **Reading back.** A view that is read, and written with its own decimal places, reads
the same in two cases only: at six decimals and not negative, or read as zero. -/
theorem readBack_iff (hx : InRange x) :
    (∃ v, decimalToU256 ⟨x, d⟩ = .ok v ∧ decimalToU256 ⟨storedRaw v.val, d⟩ = .ok v) ↔
      (d = nativeDecimals ∧ 0 ≤ x) ∨ decimalToU256 ⟨x, d⟩ = .ok 0 := by
  constructor
  · rintro ⟨v, hv, hback⟩
    obtain ⟨y, hy, rfl⟩ := decimalToU256_eq_ok.mp hv
    obtain ⟨z, hz, hword⟩ := decimalToU256_eq_ok.mp hback
    have hyr := hy.inRange hx
    have hzr := hz.inRange (storedRaw_inRange _)
    have hz0 := hz.nonneg (Int.natCast_nonneg _)
    have hzv : ((Fin.ofNat (2 ^ 256) (toU128 y)).val : Int) = z := by
      rw [← hword]
      rcases word_cases hzr with ⟨-, h⟩ | ⟨h, -⟩
      · exact h
      · omega
    -- a negative value would read as more than any `i128`
    have hy0 : 0 ≤ y := by
      rcases word_cases hyr with ⟨h, -⟩ | ⟨-, h⟩
      · exact h
      · have := hzr.2
        omega
    have hstored := storedRaw_of_word hyr hy0
    rw [hstored] at hz
    rcases word_cases hyr with ⟨-, h⟩ | ⟨h, -⟩
    · obtain rfl : y = z := h.symm.trans hzv
      rcases hz.eq_self hy0 with rfl | rfl
      · refine .inl ⟨rfl, ?_⟩
        rcases hy with ⟨-, rfl⟩ | ⟨hd, -⟩ | ⟨hd, -⟩
        · exact hy0
        · omega
        · omega
      · exact .inr hv
    · omega
  · rintro (⟨rfl, h0⟩ | hzero)
    · have hself : Scaled x nativeDecimals x := .inl ⟨rfl, rfl⟩
      refine ⟨_, decimalToU256_eq_ok.mpr ⟨x, hself, rfl⟩, ?_⟩
      rw [storedRaw_of_word hx h0]
      exact decimalToU256_eq_ok.mpr ⟨x, hself, rfl⟩
    · refine ⟨0, hzero, decimalToU256_eq_ok.mpr ⟨0, ?_, rfl⟩⟩
      obtain ⟨y, ⟨hd, -⟩ | ⟨hd, -⟩ | ⟨hd, hr, -⟩, -⟩ := decimalToU256_eq_ok.mp hzero
      · exact .inl ⟨hd, rfl⟩
      · refine .inr (.inl ⟨hd, ?_, ?_⟩)
        · show InRange (0 * _)
          rw [zero_mul]
          decide
        · show 0 = 0 * _
          rw [zero_mul]
      · exact .inr (.inr ⟨hd, hr, (Int.zero_tdiv _).symm⟩)

/-! ### Operations -/

namespace EvmState

/-- Transfer a balance; a zero amount transfers nothing and touches nobody. -/
def transferBalance (s : EvmState) (sender receiver : Address) (amount : U256) :
    Exec (Bool × EvmState) :=
  if amount = 0 then return (true, s)
  else do
    let (result, unifiedState) ←
      s.unifiedState.transferEvm sender receiver nativeTokenIndex (u256ToDecimal amount)
    return (result, ((s.setUnified unifiedState).touch sender).touch receiver)

/-- `increment_nonce`. -/
def incrementNonce (s : EvmState) (a : Address) : Exec EvmState := do
  let nonce ← u64 ((s.getOrCreateAccount a).nonce + 1)
  return s.setNonce a nonce

def getCodeHash (s : EvmState) (a : Address) : Option B256 := (s.accounts[a]?).bind (·.codeHash)

def getCode (s : EvmState) (a : Address) : Option Bytes := (s.getCodeHash a).bind (s.code[·]?)

/-- The operations on accounts. -/
inductive Op
  | setBalance (a : Address) (balance : U256)
  | addBalance (a : Address) (amount : U256)
  | subBalance (a : Address) (amount : U256)
  | transferBalance (sender receiver : Address) (amount : U256)
  | incrementNonce (a : Address)
  | setNonce (a : Address) (nonce : Nat)
  | setCode (a : Address) (code : Bytes)
  | setStorage (a : Address) (key value : U256)
  | deleteAccount (a : Address)

def Op.apply (K : Keccak256) (s : EvmState) : Op → Exec EvmState
  | .setBalance a balance => s.setBalance a balance
  | .addBalance a amount => s.addBalance a amount
  | .subBalance a amount => do return (← s.subBalance a amount).2
  | .transferBalance sender receiver amount => do
    return (← s.transferBalance sender receiver amount).2
  | .incrementNonce a => s.incrementNonce a
  | .setNonce a nonce => return s.setNonce a nonce
  | .setCode a code => return s.setCode K a code
  | .setStorage a key value => return s.setStorage a key value
  | .deleteAccount a => return s.deleteAccount a

/-- One operation after the other. -/
def perform (K : Keccak256) (ops : List Op) (s : EvmState) : Exec EvmState :=
  ops.foldlM (Op.apply K) s

end EvmState

/-! ### Snapshots -/

/-- EVM state snapshot for rollback. -/
structure EvmStateSnapshot where
  accounts : FinMap Address EvmAccount
  storage : FinMap Address (FinMap U256 U256)
  code : FinMap B256 Bytes
  /-- EVM views of the accounts that have metadata. -/
  balanceSnapshot : FinMap Address Decimal

namespace EvmState

def snapshot (s : EvmState) : EvmStateSnapshot where
  accounts := s.accounts
  storage := s.storage
  code := s.code
  balanceSnapshot := s.accounts.map fun a _ => s.unifiedState.getEvmView a nativeTokenIndex

/-- Set one balance back. -/
def restoreBalance (s : EvmState) (p : Address × Decimal) : Exec EvmState := do
  s.setBalance p.1 (← decimalToU256 p.2)

/-- Restore from a snapshot, whose balances are visited in the order of their hash map. -/
def restoreSnapshot (ord : HashOrder) (s : EvmState) (snapshot : EvmStateSnapshot) :
    Exec EvmState :=
  (ord.visit snapshot.balanceSnapshot.toList).foldlM restoreBalance
    { s with
      accounts := snapshot.accounts
      storage := snapshot.storage
      code := snapshot.code }

/-- The same accounts, for every address. -/
structure Same (s r : EvmState) : Prop where
  balance : ∀ a, r.getBalance a = s.getBalance a
  nonce : ∀ a, r.getNonce a = s.getNonce a
  codeHash : ∀ a, r.getCodeHash a = s.getCodeHash a
  code : ∀ a, r.getCode a = s.getCode a
  storage : ∀ a key, r.getStorage a key = s.getStorage a key
  blockHashes : r.blockHashes = s.blockHashes
  stateRoot : r.stateRoot = s.stateRoot

variable {s s' r t : EvmState} {a b : Address} {v : U256} {K : Keccak256}

/-! ### Setting a balance -/

/-- How far setting `a` to `v` moves its balance. -/
def shift (s : EvmState) (a : Address) (v : U256) : Int :=
  storedRaw v.val - s.unifiedState.nativeRaw a

/-- There is room for setting `a` to `v`. -/
def HasRoom (s : EvmState) (a : Address) (v : U256) : Prop :=
  InRange (s.shift a v) ∧ InRange (s.unifiedState.nativeTotal a + s.shift a v)

theorem setBalance_ok (hs : s.unifiedState.Raw128) (h : s.setBalance a v = .ok s') :
    s.HasRoom a v ∧ ∃ u, s' = (s.setUnified u).touch a ∧
      s.unifiedState.Shifts u a (s.shift a v) := by
  have hto : s.unifiedState.nativeRaw a + s.shift a v = storedRaw v.val := by
    unfold shift
    omega
  unfold setBalance u256ToDecimal at h
  rw [UnifiedState.getEvmView_eq] at h
  obtain ⟨u, hu, h⟩ := bind_inv h
  obtain rfl := pure_inv h
  suffices hgoal : s.HasRoom a v ∧ s.unifiedState.Shifts u a (s.shift a v) from
    ⟨hgoal.1, u, rfl, hgoal.2⟩
  split at hu
  · -- the view is below the balance
    obtain ⟨diff, hdiff, hu⟩ := bind_inv hu
    obtain ⟨hr, rfl⟩ := Decimal.sub_eq_ok.mp hdiff
    obtain ⟨hshift, -, htotal⟩ := UnifiedState.creditEvm_shifts hu
    exact ⟨⟨hr, htotal⟩, hshift⟩
  · rename_i hge
    split at hu
    · -- the view is above the balance, so there is an entry
      rename_i hlt
      obtain ⟨diff, hdiff, hu⟩ := bind_inv hu
      obtain ⟨⟨done, u'⟩, hdebit, hu⟩ := bind_inv hu
      obtain rfl := pure_inv hu
      obtain ⟨hr, rfl⟩ := Decimal.sub_eq_ok.mp hdiff
      have hneg : -(s.unifiedState.nativeRaw a - storedRaw v.val) = s.shift a v := by
        unfold shift
        omega
      dsimp only at hr
      rw [Decimal.lt_def] at hlt
      dsimp only at hlt
      cases hx : s.unifiedState.getBalance a nativeTokenIndex with
      | none =>
        have hraw := UnifiedState.nativeRaw_none hx
        have hplaces : s.unifiedState.nativePlaces a = nativeDecimals := by
          unfold UnifiedState.nativePlaces UnifiedState.getEvmView
          rw [hx]
          rfl
        omega
      | some x =>
        have hle : (⟨s.unifiedState.nativeRaw a - storedRaw v.val,
            s.unifiedState.nativePlaces a⟩ : Decimal) ≤ x.evmView := by
          rw [UnifiedState.getEvmView_of_getBalance hx, Decimal.le_def]
          dsimp only
          omega
        obtain ⟨hshift, -, htotal⟩ := UnifiedState.debitEvm_covered hx hle hdebit
        dsimp only at hshift htotal
        rw [hneg] at hshift
        rw [sub_eq_add_neg, hneg] at htotal
        refine ⟨⟨?_, htotal⟩, hshift⟩
        obtain ⟨hlo, hhi⟩ := hr
        rw [← hneg]
        exact ⟨by omega, by omega⟩
    · rename_i hle
      obtain rfl := pure_inv hu
      rw [Decimal.lt_def] at hge hle
      dsimp only at hge hle
      have hzero : s.shift a v = 0 := by
        unfold shift
        omega
      unfold HasRoom
      rw [hzero, add_zero]
      exact ⟨⟨by decide, (hs a).2⟩, UnifiedState.Shifts.refl _ _⟩

theorem setBalance_returns (hs : s.unifiedState.Raw128) (h : s.HasRoom a v) :
    ∃ s', s.setBalance a v = .ok s' := by
  obtain ⟨hdiff, htotal⟩ := h
  have hraw : InRange (s.unifiedState.nativeRaw a + s.shift a v) := by
    have hto : s.unifiedState.nativeRaw a + s.shift a v = storedRaw v.val := by
      unfold shift
      omega
    rw [hto]
    exact storedRaw_inRange _
  unfold setBalance u256ToDecimal
  rw [UnifiedState.getEvmView_eq]
  dsimp only
  split
  · obtain ⟨u, hu⟩ := UnifiedState.creditEvm_returns hraw htotal
    exact ⟨_, bind_eq_ok.mpr ⟨u, bind_eq_ok.mpr ⟨_, Decimal.sub_eq_ok.mpr ⟨hdiff, rfl⟩, hu⟩, rfl⟩⟩
  · split
    · have hneg : s.unifiedState.nativeRaw a - storedRaw v.val = -s.shift a v := by
        unfold shift
        omega
      have hback : InRange (-s.shift a v) := by
        rw [← hneg]
        have hlo := (hs a).1.2
        obtain ⟨-, hhi⟩ := hdiff
        unfold shift at hhi
        exact ⟨by omega, by omega⟩
      obtain ⟨p, hp⟩ : ∃ p, s.unifiedState.debitEvm a nativeTokenIndex
          ⟨s.unifiedState.nativeRaw a - storedRaw v.val, s.unifiedState.nativePlaces a⟩ =
          .ok p := by
        refine UnifiedState.debitEvm_returns ?_ ?_
        · rw [hneg, sub_neg_eq_add]
          exact hraw
        · rw [hneg, sub_neg_eq_add]
          exact htotal
      rw [← hneg] at hback
      exact ⟨_, bind_eq_ok.mpr ⟨p.2, bind_eq_ok.mpr ⟨_, Decimal.sub_eq_ok.mpr ⟨hback, rfl⟩,
        bind_eq_ok.mpr ⟨p, hp, rfl⟩⟩, rfl⟩⟩
    · exact ⟨_, rfl⟩

theorem setBalance_moved (hs : s.unifiedState.Raw128) (h : s.setBalance a v = .ok s') :
    s.unifiedState.Moved s'.unifiedState := by
  obtain ⟨⟨-, htotal⟩, u, rfl, hshift⟩ := setBalance_ok hs h
  have hto : s.unifiedState.nativeRaw a + s.shift a v = storedRaw v.val := by
    unfold shift
    omega
  refine hshift.moved ?_ ?_ htotal
  · rw [hto]
    exact fun _ => Int.natCast_nonneg _
  · rw [hto]
    exact storedRaw_inRange _

/-- **One operation.** It moves native balances as `Moved` says, and no block hash. -/
theorem Op.apply_moved {op : Op} (hs : s.unifiedState.Raw128) (h : op.apply K s = .ok s') :
    s.unifiedState.Moved s'.unifiedState ∧ s'.blockHashes = s.blockHashes := by
  cases op with
  | setBalance a balance =>
    refine ⟨setBalance_moved hs h, ?_⟩
    obtain ⟨-, u, rfl, -⟩ := setBalance_ok hs h
    rfl
  | addBalance a amount =>
    obtain ⟨u, hu, h⟩ := bind_inv h
    obtain rfl := pure_inv h
    exact ⟨UnifiedState.creditEvm_moved (Int.natCast_nonneg _) hu, rfl⟩
  | subBalance a amount =>
    obtain ⟨p, hp, h⟩ := bind_inv h
    obtain rfl := pure_inv h
    obtain ⟨q, hq, h⟩ := bind_inv hp
    obtain rfl := pure_inv h
    exact ⟨UnifiedState.debitEvm_moved hq, rfl⟩
  | transferBalance sender receiver amount =>
    obtain ⟨p, hp, h⟩ := bind_inv h
    obtain rfl := pure_inv h
    unfold EvmState.transferBalance at hp
    split at hp
    · obtain rfl := pure_inv hp
      exact ⟨.refl _, rfl⟩
    · obtain ⟨q, hq, h⟩ := bind_inv hp
      obtain rfl := pure_inv h
      exact ⟨UnifiedState.transferEvm_moved (Int.natCast_nonneg _) hq, rfl⟩
  | incrementNonce a =>
    obtain ⟨nonce, -, h⟩ := bind_inv h
    obtain rfl := pure_inv h
    exact ⟨.refl _, rfl⟩
  | setNonce a nonce =>
    obtain rfl := pure_inv h
    exact ⟨.refl _, rfl⟩
  | setCode a code =>
    obtain rfl := pure_inv h
    exact ⟨.refl _, rfl⟩
  | setStorage a key value =>
    obtain rfl := pure_inv h
    exact ⟨.refl _, rfl⟩
  | deleteAccount a =>
    obtain rfl := pure_inv h
    exact ⟨.refl _, rfl⟩

/-- **Runs of operations.** -/
theorem perform_moved {ops : List Op} (hs : s.unifiedState.Raw128)
    (h : perform K ops s = .ok t) :
    s.unifiedState.Moved t.unifiedState ∧ t.blockHashes = s.blockHashes := by
  refine foldlM_induction
    (P := fun t => s.unifiedState.Moved t.unifiedState ∧ t.blockHashes = s.blockHashes)
    h ⟨.refl _, rfl⟩ fun op _ u w hu hw => ?_
  obtain ⟨hmoved, hhashes⟩ := Op.apply_moved (hu.1.raw128 hs) hw
  exact ⟨hu.1.trans hmoved, hhashes.trans hu.2⟩

/-! ### Restoring -/

/-- Writing the default metadata of an account that has some changes nothing. -/
theorem touch_of_present {x : EvmAccount} (h : s.accounts[a]? = some x) : s.touch a = s := by
  have hget : s.getOrCreateAccount a = x := by
    unfold getOrCreateAccount
    rw [h, Option.getD_some]
  unfold touch putAccount
  rw [hget]
  have hsame : s.accounts.insert a x = s.accounts := by
    refine Std.ExtTreeMap.ext_getElem? fun b => ?_
    rw [FinMap.get_insert]
    split
    · rename_i hab
      rw [← hab, h]
    · rfl
  rw [hsame]

/-- What restoring the balances of a list comes to: those listed are set, the others and all
else are kept. -/
structure Restored (l : List (Address × Decimal)) (t r : EvmState) : Prop where
  listed : ∀ p ∈ l, ∃ v, decimalToU256 p.2 = .ok v ∧ t.HasRoom p.1 v ∧
    r.unifiedState.nativeRaw p.1 = storedRaw v.val
  unlisted : ∀ a, (∀ p ∈ l, p.1 ≠ a) →
    r.unifiedState.nativeRaw a = t.unifiedState.nativeRaw a
  places : ∀ a, r.unifiedState.nativePlaces a = t.unifiedState.nativePlaces a
  rest : ∃ u, r = t.setUnified u

/-- Setting one balance leaves the room for another one. -/
theorem hasRoom_of_shifts {u : UnifiedState} {δ : Int} (h : s.unifiedState.Shifts u a δ)
    (hab : a ≠ b) : (s.setUnified u).HasRoom b v ↔ s.HasRoom b v := by
  unfold HasRoom shift
  rw [show (s.setUnified u).unifiedState = u from rfl, h.raw, h.total, if_neg hab, add_zero,
    add_zero]

/-- The first balance of a list, when the account has metadata. -/
theorem restoreBalance_ok {p : Address × Decimal} (hs : s.unifiedState.Raw128)
    (hp : (s.accounts[p.1]?).isSome) (h : s.restoreBalance p = .ok s') :
    ∃ v u, decimalToU256 p.2 = .ok v ∧ s.HasRoom p.1 v ∧ s' = s.setUnified u ∧
      s.unifiedState.Shifts u p.1 (s.shift p.1 v) ∧ u.Raw128 := by
  obtain ⟨v, hv, h⟩ := bind_inv h
  have hmoved := setBalance_moved hs h
  obtain ⟨hroom, u, rfl, hshift⟩ := setBalance_ok hs h
  obtain ⟨x, hx⟩ := Option.isSome_iff_exists.mp hp
  exact ⟨v, u, hv, hroom, touch_of_present hx, hshift, hmoved.raw128 hs⟩

theorem restored_of_foldlM {l : List (Address × Decimal)} (hs : t.unifiedState.Raw128)
    (hl : (l.map Prod.fst).Nodup) (hp : ∀ p ∈ l, (t.accounts[p.1]?).isSome)
    (h : l.foldlM restoreBalance t = .ok r) : Restored l t r := by
  induction l generalizing t with
  | nil =>
    obtain rfl := foldlM_nil_eq_ok.mp h
    exact ⟨fun p hp => absurd hp List.not_mem_nil, fun _ _ => rfl, fun _ => rfl, _, rfl⟩
  | cons p l ih =>
    obtain ⟨w, hw, h⟩ := foldlM_cons_eq_ok.mp h
    obtain ⟨v, u, hv, hroom, rfl, hshift, hu⟩ := restoreBalance_ok hs (hp p (.head _)) hw
    rw [List.map_cons, List.nodup_cons] at hl
    have hne : ∀ q ∈ l, p.1 ≠ q.1 := fun q hq heq =>
      hl.1 (heq ▸ List.mem_map_of_mem hq)
    have hrest := ih (t := t.setUnified u) hu hl.2 (fun q hq => hp q (.tail _ hq)) h
    refine ⟨fun q hq => ?_, fun a ha => ?_, fun a => ?_, ?_⟩
    · rcases List.mem_cons.mp hq with rfl | hq
      · refine ⟨v, hv, hroom, ?_⟩
        rw [hrest.unlisted _ fun q hq heq => hne q hq heq.symm]
        refine (hshift.raw _).trans ?_
        rw [if_pos rfl]
        unfold shift
        omega
      · obtain ⟨x, hx, hroom', hraw⟩ := hrest.listed q hq
        exact ⟨x, hx, (hasRoom_of_shifts hshift (hne q hq)).mp hroom', hraw⟩
    · rw [hrest.unlisted a fun q hq => ha q (.tail _ hq)]
      refine (hshift.raw a).trans ?_
      rw [if_neg (ha p (.head _)), add_zero]
    · exact (hrest.places a).trans (hshift.places a)
    · obtain ⟨u', rfl⟩ := hrest.rest
      exact ⟨u', rfl⟩

theorem foldlM_returns {l : List (Address × Decimal)} (hs : t.unifiedState.Raw128)
    (hl : (l.map Prod.fst).Nodup) (hp : ∀ p ∈ l, (t.accounts[p.1]?).isSome)
    (h : ∀ p ∈ l, ∃ v, decimalToU256 p.2 = .ok v ∧ t.HasRoom p.1 v) :
    ∃ r, l.foldlM restoreBalance t = .ok r := by
  induction l generalizing t with
  | nil => exact ⟨t, rfl⟩
  | cons p l ih =>
    obtain ⟨v, hv, hroom⟩ := h p (.head _)
    obtain ⟨w, hw⟩ := setBalance_returns hs hroom
    have hfirst : t.restoreBalance p = .ok w := bind_eq_ok.mpr ⟨v, hv, hw⟩
    obtain ⟨_, u, -, -, rfl, hshift, hu⟩ := restoreBalance_ok hs (hp p (.head _)) hfirst
    rw [List.map_cons, List.nodup_cons] at hl
    have hne : ∀ q ∈ l, p.1 ≠ q.1 := fun q hq heq =>
      hl.1 (heq ▸ List.mem_map_of_mem hq)
    obtain ⟨r, hr⟩ :=
      ih (t := t.setUnified u) hu hl.2 (fun q hq => hp q (.tail _ hq)) fun q hq => by
      obtain ⟨x, hx, hroom'⟩ := h q (.tail _ hq)
      exact ⟨x, hx, (hasRoom_of_shifts hshift (hne q hq)).mpr hroom'⟩
    exact ⟨r, foldlM_cons_eq_ok.mpr ⟨_, hfirst, hr⟩⟩

theorem get_balanceSnapshot (s : EvmState) (a : Address) :
    s.snapshot.balanceSnapshot[a]? =
      (s.accounts[a]?).map fun _ => s.unifiedState.getEvmView a nativeTokenIndex := by
  unfold snapshot
  dsimp only
  rw [Std.ExtTreeMap.getElem?_map]

/-- The balances of a snapshot: the views of the accounts with metadata. -/
theorem mem_visit_snapshot (ord : HashOrder) {p : Address × Decimal} :
    p ∈ ord.visit s.snapshot.balanceSnapshot.toList ↔
      (s.accounts[p.1]?).isSome ∧ s.unifiedState.getEvmView p.1 nativeTokenIndex = p.2 := by
  rw [HashOrder.mem_visit, FinMap.mem_toList, get_balanceSnapshot]
  cases s.accounts[p.1]? <;> simp

/-- An account with metadata whose balance can be set back after operations that led to `t`:
it has six decimals and is not negative, or it reads as zero and there is room for zero. -/
def Restorable (s t : EvmState) (a : Address) : Prop :=
  (s.unifiedState.nativePlaces a = nativeDecimals ∧ 0 ≤ s.unifiedState.nativeRaw a) ∨
    (s.getBalance a = .ok 0 ∧ -2 ^ 127 < t.unifiedState.nativeRaw a ∧
      InRange (s.unifiedState.nativeTotal a - s.unifiedState.nativeRaw a))

theorem restorable_iff (hs : s.unifiedState.Raw128)
    (hmoved : s.unifiedState.Moved t.unifiedState) :
    s.Restorable t a ↔ ∃ v, s.getBalance a = .ok v ∧ t.HasRoom a v ∧
      decimalToU256 ⟨storedRaw v.val, s.unifiedState.nativePlaces a⟩ = .ok v := by
  have hread := readBack_iff (d := s.unifiedState.nativePlaces a) (hs a).1
  have hview : s.getBalance a =
      decimalToU256 ⟨s.unifiedState.nativeRaw a, s.unifiedState.nativePlaces a⟩ := rfl
  have hrest := hmoved.rest a
  obtain ⟨hlo, hhi⟩ := (hmoved.raw128 hs a).1
  obtain ⟨htlo, hthi⟩ := (hs a).2
  rw [← hview] at hread
  unfold Restorable
  constructor
  · rintro (⟨hplaces, h0⟩ | ⟨hzero, hmin, hroom⟩)
    · obtain ⟨v, hv, hback⟩ := hread.mpr (.inl ⟨hplaces, h0⟩)
      have hstored : (storedRaw v.val : Int) = s.unifiedState.nativeRaw a := by
        rw [hview, hplaces] at hv
        obtain ⟨y, ⟨-, rfl⟩ | ⟨hd, -⟩ | ⟨hd, -⟩, rfl⟩ := decimalToU256_eq_ok.mp hv
        · exact storedRaw_of_word (hs a).1 h0
        · exact absurd hd (by decide)
        · exact absurd hd (by decide)
      have hnn := hmoved.nonneg a h0
      obtain ⟨hslo, hshi⟩ := (hs a).1
      refine ⟨v, hv, ⟨?_, ?_⟩, hback⟩
      · unfold shift
        rw [hstored]
        exact ⟨by omega, by omega⟩
      · unfold shift
        rw [hstored]
        exact ⟨by omega, by omega⟩
    · obtain ⟨v, hv, hback⟩ := hread.mpr (.inr hzero)
      obtain rfl : v = 0 := ok_unique hv hzero
      have hstored : storedRaw ((0 : U256)).val = 0 := rfl
      obtain ⟨hrlo, hrhi⟩ := hroom
      refine ⟨0, hv, ⟨?_, ?_⟩, hback⟩
      · unfold shift
        rw [hstored]
        exact ⟨by omega, by omega⟩
      · unfold shift
        rw [hstored]
        exact ⟨by omega, by omega⟩
  · rintro ⟨v, hv, ⟨hshift, hroom⟩, hback⟩
    rcases hread.mp ⟨v, hv, hback⟩ with h | hzero
    · exact .inl h
    · obtain rfl : v = 0 := ok_unique hv hzero
      have hstored : storedRaw ((0 : U256)).val = 0 := rfl
      unfold shift at hshift hroom
      rw [hstored] at hshift hroom
      obtain ⟨-, hhi⟩ := hshift
      obtain ⟨hrlo, hrhi⟩ := hroom
      exact .inr ⟨hzero, by omega, by omega, by omega⟩

/-- **Rollback.** After any operations, restoring gives back the state of the snapshot exactly
when each account with metadata can be set back, and the operations left the balance of every
other address as it was. -/
theorem restored_iff {ops : List Op} (hs : s.unifiedState.Raw128)
    (h : perform K ops s = .ok t) (ord : HashOrder) :
    (∃ r, t.restoreSnapshot ord s.snapshot = .ok r ∧ Same s r) ↔
      (∀ a, (s.accounts[a]?).isSome → s.Restorable t a) ∧
      (∀ a, s.accounts[a]? = none → t.getBalance a = s.getBalance a) := by
  obtain ⟨hmoved, hhashes⟩ := perform_moved hs h
  have ht := hmoved.raw128 hs
  have hnodup : ((ord.visit s.snapshot.balanceSnapshot.toList).map Prod.fst).Nodup :=
    ((ord.perm _).map _).nodup_iff.mpr (FinMap.nodup_keys _)
  have hpresent : ∀ p ∈ ord.visit s.snapshot.balanceSnapshot.toList,
      (s.accounts[p.1]?).isSome := fun p hp => ((mem_visit_snapshot ord).mp hp).1
  have hreads : ∀ (u : EvmState) (a : Address), u.getBalance a =
      decimalToU256 ⟨u.unifiedState.nativeRaw a, u.unifiedState.nativePlaces a⟩ :=
    fun _ _ => rfl
  unfold restoreSnapshot
  constructor
  · rintro ⟨r, hr, hsame⟩
    have hrestored := restored_of_foldlM
      (t := { t with accounts := s.accounts, storage := s.storage, code := s.code })
      ht hnodup hpresent hr
    refine ⟨fun a ha => ?_, fun a ha => ?_⟩
    · obtain ⟨v, hv, hroom, hraw⟩ := hrestored.listed
        (a, s.unifiedState.getEvmView a nativeTokenIndex) ((mem_visit_snapshot ord).mpr ⟨ha, rfl⟩)
      refine (restorable_iff hs hmoved).mpr ⟨v, hv, hroom, ?_⟩
      have hbal := (hsame.balance a).trans hv
      rwa [hreads, hraw, hrestored.places, hmoved.places] at hbal
    · rw [← hsame.balance a, hreads, hreads, hrestored.places, hrestored.unlisted a]
      intro p hp hpa
      have hsome := hpresent p hp
      rw [hpa, ha] at hsome
      cases hsome
  · rintro ⟨hlisted, hunlisted⟩
    have hall := fun a ha => (restorable_iff hs hmoved).mp (hlisted a ha)
    obtain ⟨r, hr⟩ := foldlM_returns
      (t := { t with accounts := s.accounts, storage := s.storage, code := s.code })
      ht hnodup hpresent fun p hp => by
        obtain ⟨hsome, hview⟩ := (mem_visit_snapshot ord).mp hp
        obtain ⟨v, hv, hroom, -⟩ := hall p.1 hsome
        rw [← hview]
        exact ⟨v, hv, hroom⟩
    have hrestored := restored_of_foldlM
      (t := { t with accounts := s.accounts, storage := s.storage, code := s.code })
      ht hnodup hpresent hr
    have hbalance : ∀ a, r.getBalance a = s.getBalance a := by
      intro a
      cases ha : s.accounts[a]? with
      | none =>
        rw [← hunlisted a ha, hreads, hreads t, hrestored.places, hrestored.unlisted a]
        intro p hp hpa
        have hsome := hpresent p hp
        rw [hpa, ha] at hsome
        cases hsome
      | some x =>
        have hsome : (s.accounts[a]?).isSome := by
          rw [ha]
          rfl
        obtain ⟨v, hv, -, hback⟩ := hall a hsome
        obtain ⟨w, hw, -, hraw⟩ := hrestored.listed
          (a, s.unifiedState.getEvmView a nativeTokenIndex)
          ((mem_visit_snapshot ord).mpr ⟨hsome, rfl⟩)
        obtain rfl : v = w := ok_unique hv hw
        rw [hv, hreads, hraw, hrestored.places]
        rw [← hmoved.places] at hback
        exact hback
    obtain ⟨u, rfl⟩ := hrestored.rest
    exact ⟨_, hr, hbalance, fun _ => rfl, fun _ => rfl, fun _ => rfl, fun _ _ => rfl, hhashes, rfl⟩

theorem raw128_new : UnifiedState.new.Raw128 := by
  intro a
  have hnone : UnifiedState.new.getBalance a nativeTokenIndex = none := FinMap.get_empty _
  rw [UnifiedState.nativeRaw_none hnone, UnifiedState.nativeTotal_none hnone]
  decide

/-- A balance that is set twice, and a nonce, are rolled back. -/
theorem restored_twoBalances : ∃ s t r,
    (withUnifiedState .new).setBalance 7 100 = .ok s ∧
    perform tagHash [.setBalance 7 200, .setNonce 7 3] s = .ok t ∧
    t.restoreSnapshot .sorted s.snapshot = .ok r ∧ Same s r := by
  obtain ⟨x, hrun, hlisted⟩ := exists_of_test (x := do
      let s ← (withUnifiedState .new).setBalance 7 100
      let t ← perform tagHash [.setBalance 7 200, .setNonce 7 3] s
      return (s, t))
    (p := fun x => (x.1.accounts[(7 : Address)]?).isSome) (by decide +kernel)
  simp only [bind_eq_ok, pure_eq_ok] at hrun
  obtain ⟨s, hs, t, ht, rfl⟩ := hrun
  have hmoved := setBalance_moved raw128_new hs
  have hraw := hmoved.raw128 raw128_new
  have hback := (restored_iff hraw ht .sorted).mpr ⟨fun a _ => ?_, fun a ha => ?_⟩
  · obtain ⟨r, hr, hsame⟩ := hback
    exact ⟨s, t, r, hs, ht, hr, hsame⟩
  · exact .inl ⟨(hmoved.places a).trans rfl, hmoved.nonneg a (le_refl 0)⟩
  · have hne : (7 : Address) ≠ a := by
      rintro rfl
      rw [ha] at hlisted
      cases hlisted
    obtain ⟨w, hw, hrest⟩ := foldlM_cons_eq_ok.mp ht
    obtain ⟨w', hw', hrest⟩ := foldlM_cons_eq_ok.mp hrest
    obtain rfl := foldlM_nil_eq_ok.mp hrest
    obtain rfl := pure_inv hw'
    obtain ⟨-, u, rfl, hshift⟩ := setBalance_ok hraw hw
    have hsame : u.nativeRaw a = s.unifiedState.nativeRaw a := by
      rw [hshift.raw, if_neg hne, add_zero]
    unfold getBalance
    rw [show (((s.setUnified u).touch 7).setNonce 7 3).unifiedState = u from rfl,
      UnifiedState.getEvmView_eq, UnifiedState.getEvmView_eq, hsame, hshift.places]

/-- An address without metadata at the snapshot keeps what it was given after it. -/
theorem restore_keeps_newBalance : ∃ t r,
    perform tagHash [.addBalance 7 100] (withUnifiedState .new) = .ok t ∧
    t.restoreSnapshot .sorted (withUnifiedState .new).snapshot = .ok r ∧
    r.getBalance 7 = .ok 100 ∧ ¬ Same (withUnifiedState .new) r := by
  obtain ⟨x, hrun, hbal⟩ := exists_of_test (x := do
      let t ← perform tagHash [.addBalance 7 100] (withUnifiedState .new)
      let r ← t.restoreSnapshot .sorted (withUnifiedState .new).snapshot
      return (t, r))
    (p := fun x => x.2.getBalance 7 = .ok 100) (by decide +kernel)
  simp only [bind_eq_ok, pure_eq_ok] at hrun
  obtain ⟨t, ht, r, hr, rfl⟩ := hrun
  have hafter : r.getBalance 7 = .ok 100 := of_decide_eq_true hbal
  have hbefore : (withUnifiedState .new).getBalance 7 = .ok 0 := rfl
  refine ⟨t, r, ht, hr, hafter, fun hsame => ?_⟩
  have hsum := hafter.symm.trans ((hsame.balance 7).trans hbefore)
  exact absurd (Except.ok.inj hsum) (by decide)

end EvmState

end Hypercore
