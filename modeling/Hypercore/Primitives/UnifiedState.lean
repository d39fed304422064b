import Hypercore.Primitives.Types
/-!
# Hypercore.Primitives.UnifiedState

The master balance sheet: for every user and token one total with a core view
(trading) and an EVM view.

The shared handle of the source is a lock around one such value; the model
passes the value itself.
-/

namespace Hypercore

open Exec Std

/-- Balance with separate views for the Core and EVM layers. -/
structure UnifiedBalance where
  /-- Changes only on deposits and withdrawals. -/
  total : Decimal
  coreView : Decimal
  evmView : Decimal
  deriving DecidableEq, Repr

/-- A balance that is all in the core view. -/
def UnifiedBalance.new (total : Decimal) : UnifiedBalance := ⟨total, total, ⟨0, total.decimals⟩⟩

/-- Check the invariant: the total is the sum of the views. -/
def UnifiedBalance.isValid (b : UnifiedBalance) : Exec Bool := do
  let views ← b.coreView.add b.evmView
  return b.total = views

/-- Master balance sheet: `(user, token) ↦ UnifiedBalance`. -/
structure UnifiedState where
  balances : FinMap (PairKey AccountAddress TokenIndex) UnifiedBalance

/-- Decimal places of a balance that has no entry yet: six for USDC, else 18. -/
def tokenDecimals (token : TokenIndex) : Nat := if token = 0 then 6 else 18

/-- Why a view transfer failed. -/
inductive ViewTransferError
  | noBalance
  | insufficientCoreView (available requested : Decimal)
  | insufficientEvmView (available requested : Decimal)
  deriving DecidableEq, Repr

/-- The text of the error. -/
def ViewTransferError.message : ViewTransferError → String
  | noBalance => "No balance found for user/token"
  | insufficientCoreView available requested =>
    "Insufficient Core view balance: available " ++ available.toStringTrimmed ++
      ", requested " ++ requested.toStringTrimmed
  | insufficientEvmView available requested =>
    "Insufficient EVM view balance: available " ++ available.toStringTrimmed ++
      ", requested " ++ requested.toStringTrimmed

namespace UnifiedState

/-- A new empty unified state. -/
def new : UnifiedState := ⟨∅⟩

/-- A snapshot has all balances. -/
def snapshot (u : UnifiedState) : FinMap (PairKey AccountAddress TokenIndex) UnifiedBalance :=
  u.balances

/-- All balances are replaced by those of a snapshot. -/
def restore (u : UnifiedState)
    (snapshot : FinMap (PairKey AccountAddress TokenIndex) UnifiedBalance) : UnifiedState :=
  { u with balances := snapshot }

variable (u : UnifiedState) (user : AccountAddress) (token : TokenIndex)

def getBalance : Option UnifiedBalance := u.balances[(⟨user, token⟩ : PairKey _ _)]?

/-- The core view balance (available for trading). -/
def getCoreView : Decimal :=
  match u.getBalance user token with
  | some b => b.coreView
  | none => ⟨0, tokenDecimals token⟩

/-- The EVM view balance. -/
def getEvmView : Decimal :=
  match u.getBalance user token with
  | some b => b.evmView
  | none => ⟨0, tokenDecimals token⟩

def setBalance (b : UnifiedBalance) : UnifiedState :=
  ⟨u.balances.insert ⟨user, token⟩ b⟩

/-- The entry of `(user, token)`, or the one `or_insert_with` creates for an amount. -/
def entryFor (amount : Decimal) : UnifiedBalance :=
  (u.getBalance user token).getD (.new ⟨0, amount.decimals⟩)

/-- Credit balance (deposit): adds to total and core view. -/
def credit (amount : Decimal) : Exec UnifiedState := do
  let b := u.entryFor user token amount
  let total ← b.total.add amount
  let coreView ← b.coreView.add amount
  return u.setBalance user token { b with total, coreView }

/-- Credit balance to the EVM view. -/
def creditEvm (amount : Decimal) : Exec UnifiedState := do
  let b := u.entryFor user token amount
  let total ← b.total.add amount
  let evmView ← b.evmView.add amount
  return u.setBalance user token { b with total, evmView }

/-- Debit balance from the core view; `false` if the balance is insufficient. -/
def debitCore (amount : Decimal) : Exec (Bool × UnifiedState) :=
  match u.getBalance user token with
  | none => return (false, u)
  | some b =>
    if amount ≤ b.coreView then do
      let total ← b.total.sub amount
      let coreView ← b.coreView.sub amount
      return (true, u.setBalance user token { b with total, coreView })
    else return (false, u)

/-- Debit balance from the EVM view; `false` if the balance is insufficient. -/
def debitEvm (amount : Decimal) : Exec (Bool × UnifiedState) :=
  match u.getBalance user token with
  | none => return (false, u)
  | some b =>
    if amount ≤ b.evmView then do
      let total ← b.total.sub amount
      let evmView ← b.evmView.sub amount
      return (true, u.setBalance user token { b with total, evmView })
    else return (false, u)

/-- Move an amount from the core view to the EVM view. -/
def transferToEvmView (amount : Decimal) :
    Exec (Except ViewTransferError Unit × UnifiedState) :=
  match u.getBalance user token with
  | none => return (.error .noBalance, u)
  | some b =>
    if b.coreView < amount then
      return (.error (.insufficientCoreView b.coreView amount), u)
    else do
      let coreView ← b.coreView.sub amount
      let evmView ← b.evmView.add amount
      return (.ok (), u.setBalance user token { b with coreView, evmView })

/-- Move an amount from the EVM view to the core view. -/
def transferToCoreView (amount : Decimal) :
    Exec (Except ViewTransferError Unit × UnifiedState) :=
  match u.getBalance user token with
  | none => return (.error .noBalance, u)
  | some b =>
    if b.evmView < amount then
      return (.error (.insufficientEvmView b.evmView amount), u)
    else do
      let evmView ← b.evmView.sub amount
      let coreView ← b.coreView.add amount
      return (.ok (), u.setBalance user token { b with coreView, evmView })

/-- Transfer between users, core view to core view. A missing sender entry counts
as the default decimal, raw zero with no decimal places. -/
def transferCore (sender receiver : AccountAddress) (token : TokenIndex) (amount : Decimal) :
    Exec (Bool × UnifiedState) :=
  let available := ((u.getBalance sender token).map (·.coreView)).getD Decimal.default
  if available < amount then return (false, u)
  else do
    let u ← (match u.getBalance sender token with
      | none => pure u
      | some b => do
        let total ← b.total.sub amount
        let coreView ← b.coreView.sub amount
        pure (u.setBalance sender token { b with total, coreView }))
    let u ← u.credit receiver token amount
    return (true, u)

/-- Transfer between users, EVM view to EVM view. -/
def transferEvm (sender receiver : AccountAddress) (token : TokenIndex) (amount : Decimal) :
    Exec (Bool × UnifiedState) :=
  let available := ((u.getBalance sender token).map (·.evmView)).getD Decimal.default
  if available < amount then return (false, u)
  else do
    let u ← (match u.getBalance sender token with
      | none => pure u
      | some b => do
        let total ← b.total.sub amount
        let evmView ← b.evmView.sub amount
        pure (u.setBalance sender token { b with total, evmView }))
    let u ← u.creditEvm receiver token amount
    return (true, u)

/-! ### Raw views -/

/-- Raw value of the core view. -/
def coreRaw : Int := (u.getCoreView user token).value

/-- Raw value of the EVM view. -/
def evmRaw : Int := (u.getEvmView user token).value

/-- The core view covers a debit; without an entry none is covered. -/
def Covers (amount : Decimal) : Prop :=
  match u.getBalance user token with
  | none => False
  | some b => amount ≤ b.coreView

instance (amount : Decimal) : Decidable (u.Covers user token amount) :=
  match h : u.getBalance user token with
  | none => .isFalse (by
    unfold Covers
    rw [h]
    exact not_false)
  | some b => decidable_of_iff (amount ≤ b.coreView) (by
    unfold Covers
    rw [h])

section Spec

variable {u u' : UnifiedState} {user other : AccountAddress} {token k : TokenIndex}
  {amount : Decimal}

theorem getBalance_setBalance (b : UnifiedBalance) :
    (u.setBalance user token b).getBalance other k =
      if user = other ∧ token = k then some b else u.getBalance other k := by
  unfold setBalance getBalance
  dsimp only
  rw [FinMap.get_insert]
  simp only [PairKey.mk.injEq]

theorem coreRaw_setBalance (b : UnifiedBalance) :
    (u.setBalance user token b).coreRaw other k =
      if user = other ∧ token = k then b.coreView.value else u.coreRaw other k := by
  unfold coreRaw getCoreView
  rw [getBalance_setBalance]
  split
  · rename_i h
    split at h <;> simp_all
  · rename_i h
    split at h <;> simp_all

theorem evmRaw_setBalance (b : UnifiedBalance) :
    (u.setBalance user token b).evmRaw other k =
      if user = other ∧ token = k then b.evmView.value else u.evmRaw other k := by
  unfold evmRaw getEvmView
  rw [getBalance_setBalance]
  split
  · rename_i h
    split at h <;> simp_all
  · rename_i h
    split at h <;> simp_all

theorem coreRaw_of_getBalance {b : UnifiedBalance} (h : u.getBalance user token = some b) :
    u.coreRaw user token = b.coreView.value := by
  unfold coreRaw getCoreView
  rw [h]

theorem entryFor_core (u : UnifiedState) (user : AccountAddress) (token : TokenIndex)
    (amount : Decimal) :
    (u.entryFor user token amount).coreView.value = u.coreRaw user token := by
  unfold entryFor coreRaw getCoreView
  cases u.getBalance user token <;> rfl

theorem entryFor_evm (u : UnifiedState) (user : AccountAddress) (token : TokenIndex)
    (amount : Decimal) :
    (u.entryFor user token amount).evmView.value = u.evmRaw user token := by
  unfold entryFor evmRaw getEvmView
  cases u.getBalance user token <;> rfl

/-- **Credit.** -/
theorem credit_core (h : u.credit user token amount = .ok u') (other : AccountAddress)
    (k : TokenIndex) : u'.coreRaw other k =
      u.coreRaw other k + if user = other ∧ token = k then amount.value else 0 := by
  obtain ⟨total, -, h⟩ := bind_inv h
  obtain ⟨core, hcore, h⟩ := bind_inv h
  obtain rfl := pure_inv h
  obtain ⟨-, rfl⟩ := Decimal.add_eq_ok.mp hcore
  rw [coreRaw_setBalance]
  split
  · rename_i hk
    obtain ⟨rfl, rfl⟩ := hk
    rw [← entryFor_core]
  · rw [add_zero]

/-- **Debit.** It is refused without a covering entry, and then changes nothing. -/
theorem debitCore_cases {r : Bool} (h : u.debitCore user token amount = .ok (r, u')) :
    (r = false ∧ u' = u ∧ ¬ u.Covers user token amount) ∨
    (r = true ∧ u.Covers user token amount ∧ ∀ other k, u'.coreRaw other k =
      u.coreRaw other k - if user = other ∧ token = k then amount.value else 0) := by
  unfold debitCore at h
  unfold Covers
  split at h
  · obtain ⟨rfl, rfl⟩ := pair_inv h
    exact .inl ⟨rfl, rfl, not_false⟩
  · rename_i b hb
    split at h
    · rename_i hle
      obtain ⟨total, -, h⟩ := bind_inv h
      obtain ⟨core, hcore, h⟩ := bind_inv h
      obtain ⟨rfl, rfl⟩ := pair_inv h
      obtain ⟨-, rfl⟩ := Decimal.sub_eq_ok.mp hcore
      refine .inr ⟨rfl, hle, fun other k => ?_⟩
      rw [coreRaw_setBalance]
      split
      · rename_i hk
        obtain ⟨rfl, rfl⟩ := hk
        rw [coreRaw_of_getBalance hb]
      · rw [sub_zero]
    · rename_i hle
      obtain ⟨rfl, rfl⟩ := pair_inv h
      exact .inl ⟨rfl, rfl, hle⟩

theorem debitCore_covered {r : Bool} (h : u.debitCore user token amount = .ok (r, u'))
    (hcov : u.Covers user token amount) (other : AccountAddress) (k : TokenIndex) :
    u'.coreRaw other k =
      u.coreRaw other k - if user = other ∧ token = k then amount.value else 0 := by
  rcases debitCore_cases h with ⟨-, -, hnot⟩ | ⟨-, -, heq⟩
  · exact absurd hcov hnot
  · exact heq other k

/-! ### Supply -/

/-- All of a token, over both views of all accounts. -/
def supply (u : UnifiedState) (token : TokenIndex) : Int :=
  FinMap.total (fun key b => if key.snd = token then b.coreView.value + b.evmView.value else 0)
    u.balances

/-- **Update rule.** Writing an entry moves the supply of its token by the difference. -/
theorem supply_setBalance (b : UnifiedBalance) (k : TokenIndex) :
    (u.setBalance user token b).supply k = u.supply k + if token = k then
      b.coreView.value + b.evmView.value - (u.coreRaw user token + u.evmRaw user token)
    else 0 := by
  have hweight : FinMap.weight (fun key (b : UnifiedBalance) =>
      if key.snd = k then b.coreView.value + b.evmView.value else 0) u.balances ⟨user, token⟩ =
      if token = k then u.coreRaw user token + u.evmRaw user token else 0 := by
    unfold FinMap.weight coreRaw evmRaw getCoreView getEvmView getBalance
    cases u.balances[(⟨user, token⟩ : PairKey AccountAddress TokenIndex)]? with
    | none => simp
    | some b => rfl
  unfold setBalance supply
  dsimp only
  rw [FinMap.total_insert, hweight]
  dsimp only
  split <;> omega

theorem credit_supply (h : u.credit user token amount = .ok u') (k : TokenIndex) :
    u'.supply k = u.supply k + if token = k then amount.value else 0 := by
  obtain ⟨total, -, h⟩ := bind_inv h
  obtain ⟨core, hcore, h⟩ := bind_inv h
  obtain rfl := pure_inv h
  obtain ⟨-, rfl⟩ := Decimal.add_eq_ok.mp hcore
  rw [supply_setBalance, ← u.entryFor_core user token amount, ← u.entryFor_evm user token amount]
  dsimp only
  split <;> omega

/-- A debit that is covered burns its amount; one that is refused burns nothing. -/
theorem debitCore_supply {r : Bool} (h : u.debitCore user token amount = .ok (r, u'))
    (k : TokenIndex) : u'.supply k = u.supply k -
      if token = k then (if u.Covers user token amount then amount.value else 0) else 0 := by
  rcases debitCore_cases h with ⟨-, rfl, hnot⟩ | ⟨-, hcov, -⟩
  · simp [hnot]
  · obtain ⟨b, hb, hle⟩ : ∃ b, u.getBalance user token = some b ∧ amount ≤ b.coreView := by
      unfold Covers at hcov
      split at hcov
      · exact hcov.elim
      · exact ⟨_, ‹_›, hcov⟩
    unfold debitCore at h
    simp only [hb, if_pos hle] at h
    obtain ⟨total, -, h⟩ := bind_inv h
    obtain ⟨core, hcore, h⟩ := bind_inv h
    obtain ⟨-, rfl⟩ := pair_inv h
    obtain ⟨-, rfl⟩ := Decimal.sub_eq_ok.mp hcore
    have hevm : u.evmRaw user token = b.evmView.value := by
      unfold evmRaw getEvmView
      rw [hb]
    rw [supply_setBalance, coreRaw_of_getBalance hb, hevm, if_pos hcov]
    dsimp only
    split <;> omega

end Spec

end UnifiedState

end Hypercore
