import Hypercore.Contracts.Solidity
/-!
# Hypercore.Contracts.SpotToken

The ERC-20 token of the repository, and that it is a standard one.
-/

namespace Hypercore.Contracts

open Solidity Std

/-- The storage of a token. -/
structure SpotToken where
  totalSupply : Nat
  balances : FinMap AccountAddress Nat
  allowance : AccountAddress → AccountAddress → Nat

namespace SpotToken

variable (systemAddress : AccountAddress) (t : SpotToken)

/-- `balanceOf[a]`. -/
def balanceOf (a : AccountAddress) : Nat := t.balances[a]?.getD 0

def setBalance (a : AccountAddress) (balance : Nat) : SpotToken :=
  { t with balances := t.balances.insert a balance }

/-- `_transfer`. -/
def move (sender recipient : AccountAddress) (amount : Nat) : Solidity (Bool × SpotToken) := do
  require (t.balanceOf sender ≥ amount) "Insufficient balance"
  let debited ← sub (t.balanceOf sender) amount
  let t := t.setBalance sender debited
  let credited ← add (t.balanceOf recipient) amount
  return (true, t.setBalance recipient credited)

/-- `_mint`. -/
def mint (recipient : AccountAddress) (amount : Nat) : Solidity SpotToken := do
  let totalSupply ← add t.totalSupply amount
  let t := { t with totalSupply := totalSupply }
  let credited ← add (t.balanceOf recipient) amount
  return t.setBalance recipient credited

def transfer (sender recipient : AccountAddress) (amount : Nat) : Solidity (Bool × SpotToken) :=
  t.move sender recipient amount

def setAllowance (owner spender : AccountAddress) (amount : Nat) : SpotToken where
  __ := t
  allowance := Function.update t.allowance owner
    (Function.update (t.allowance owner) spender amount)

def approve (sender spender : AccountAddress) (amount : Nat) : Solidity (Bool × SpotToken) :=
  return (true, t.setAllowance sender spender amount)

def transferFrom (sender owner recipient : AccountAddress) (amount : Nat) :
    Solidity (Bool × SpotToken) := do
  let allowed := t.allowance owner sender
  if allowed ≠ 2 ^ 256 - 1 then
    require (allowed ≥ amount) "Insufficient allowance"
    let left ← sub allowed amount
    (t.setAllowance owner sender left).move owner recipient amount
  else t.move owner recipient amount

def bridgeFromCore (sender recipient : AccountAddress) (amount : Nat) : Solidity SpotToken := do
  require (sender = systemAddress ∨ t.balanceOf systemAddress ≥ amount) "Unauthorized"
  if sender ≠ systemAddress then
    let debited ← sub (t.balanceOf systemAddress) amount
    let t := t.setBalance systemAddress debited
    let credited ← add (t.balanceOf recipient) amount
    return t.setBalance recipient credited
  else t.mint recipient amount

/-- The calls that write. -/
inductive Call
  | transfer (recipient : AccountAddress) (amount : Nat)
  | approve (spender : AccountAddress) (amount : Nat)
  | transferFrom (owner recipient : AccountAddress) (amount : Nat)
  | bridgeFromCore (recipient : AccountAddress) (amount : Nat)

def call (sender : AccountAddress) : Call → SpotToken → Solidity SpotToken
  | .transfer recipient amount, t => do return (← t.transfer sender recipient amount).2
  | .approve spender amount, t => do return (← t.approve sender spender amount).2
  | .transferFrom owner recipient amount, t => do
    return (← t.transferFrom sender owner recipient amount).2
  | .bridgeFromCore recipient amount, t => t.bridgeFromCore systemAddress sender recipient amount

/-- The sum of all balances. -/
def held : Int := FinMap.total (fun _ (balance : Nat) => (balance : Int)) t.balances

/-- The balances sum up to the supply, a `uint256`. -/
def Sound : Prop := t.held = t.totalSupply ∧ t.totalSupply < 2 ^ 256

/-- A token as the other contracts see it. -/
def erc20 : Erc20 where
  State := SpotToken
  Call := Call
  Sound t := t.Sound
  balanceOf := balanceOf
  allowance := allowance
  transfer sender recipient amount t := t.transfer sender recipient amount
  transferFrom spender owner recipient amount t := t.transferFrom spender owner recipient amount
  call := call systemAddress

/-! ### It is a standard token -/

variable {systemAddress t} {t' : SpotToken} {a b : AccountAddress} {amount : Nat}
variable {balance : Nat} {c spender owner : AccountAddress} {paid : Bool}

theorem balanceOf_setBalance :
    (t.setBalance a balance).balanceOf b = if a = b then balance else t.balanceOf b := by
  unfold balanceOf setBalance
  rw [FinMap.get_insert]
  split <;> rfl

theorem weight_balance :
    FinMap.weight (fun _ (balance : Nat) => (balance : Int)) t.balances a = t.balanceOf a := by
  unfold FinMap.weight balanceOf
  cases t.balances[a]? <;> rfl

theorem held_setBalance :
    (t.setBalance a balance).held = t.held - t.balanceOf a + balance := by
  unfold held setBalance
  rw [FinMap.total_insert, weight_balance]

/-- Balances never overflow. -/
theorem balance_le_held : (t.balanceOf a : Int) ≤ t.held := by
  rw [← weight_balance]
  exact FinMap.weight_le_total fun _ _ => Int.natCast_nonneg _

/-- What a move leaves. -/
def moved (t : SpotToken) (a b : AccountAddress) (amount : Nat) : SpotToken :=
  let t := t.setBalance a (t.balanceOf a - amount)
  t.setBalance b (t.balanceOf b + amount)

theorem balanceOf_moved : (t.moved a b amount).balanceOf c =
    t.balanceOf c - (if c = a then amount else 0) + (if c = b then amount else 0) := by
  unfold moved
  dsimp only
  rw [balanceOf_setBalance, balanceOf_setBalance, balanceOf_setBalance]
  rcases eq_or_ne b c with rfl | hb
  · rcases eq_or_ne a b with rfl | ha
    · simp
    · simp [ha, ha.symm]
  · rcases eq_or_ne a c with rfl | ha
    · simp [hb, hb.symm]
    · simp [ha, ha.symm, hb, hb.symm]

theorem held_moved (hle : amount ≤ t.balanceOf a) : (t.moved a b amount).held = t.held := by
  unfold moved
  dsimp only
  rw [held_setBalance, held_setBalance]
  omega

theorem Sound.moved (h : t.Sound) (hle : amount ≤ t.balanceOf a) : (t.moved a b amount).Sound :=
  ⟨(held_moved hle).trans h.1, h.2⟩

theorem move_eq_ok (h : t.move a b amount = .ok (paid, t')) :
    amount ≤ t.balanceOf a ∧ t' = t.moved a b amount := by
  unfold move at h
  simp only [bind_eq_ok, require_eq_ok, sub_eq_ok, add_eq_ok, pure_eq_ok, Prod.mk.injEq] at h
  obtain ⟨_, hle, _, ⟨-, rfl⟩, _, ⟨-, rfl⟩, -, rfl⟩ := h
  exact ⟨hle, rfl⟩

/-- A move that is covered succeeds. -/
theorem move_covered (h : t.Sound) (hle : amount ≤ t.balanceOf a) :
    t.move a b amount = .ok (true, t.moved a b amount) := by
  have hfits : (t.setBalance a (t.balanceOf a - amount)).balanceOf b + amount < 2 ^ 256 := by
    have hheld := balance_le_held (t := t.moved a b amount) (a := b)
    rw [held_moved hle, h.1] at hheld
    have hsupply := h.2
    unfold SpotToken.moved at hheld
    dsimp only at hheld
    rw [balanceOf_setBalance, if_pos rfl] at hheld
    omega
  unfold move
  simp only [bind_eq_ok, require_eq_ok, sub_eq_ok, add_eq_ok, pure_eq_ok]
  exact ⟨(), hle, _, ⟨hle, rfl⟩, _, ⟨hfits, rfl⟩, rfl⟩

theorem allowance_setAllowance :
    (t.setAllowance a spender amount).allowance b c =
      if a = b ∧ spender = c then amount else t.allowance b c := by
  unfold setAllowance
  dsimp only
  rcases eq_or_ne b a with rfl | hb
  · rcases eq_or_ne c spender with rfl | hc
    · simp
    · simp [hc, hc.symm]
  · simp [hb, hb.symm]

theorem setAllowance_self :
    t.setAllowance a spender (t.allowance a spender) = t := by
  unfold setAllowance
  rw [Function.update_eq_self, Function.update_eq_self]

/-- Spending goes within the allowance, and does not raise it. -/
theorem transferFrom_eq_ok (h : t.transferFrom spender a b amount = .ok (paid, t')) :
    amount ≤ t.balanceOf a ∧ ∃ left, left ≤ t.allowance a spender ∧
      (t.allowance a spender = 2 ^ 256 - 1 ∨ amount ≤ t.allowance a spender) ∧
      t' = (t.setAllowance a spender left).moved a b amount := by
  unfold transferFrom at h
  dsimp only at h
  by_cases hmax : t.allowance a spender = 2 ^ 256 - 1
  · obtain ⟨hle, rfl⟩ := move_eq_ok ((if_neg (not_not.mpr hmax)).symm.trans h)
    exact ⟨hle, _, le_rfl, .inl hmax, by rw [setAllowance_self]⟩
  · replace h := (if_pos hmax).symm.trans h
    simp only [bind_eq_ok, require_eq_ok, sub_eq_ok] at h
    obtain ⟨_, hallowed, left, ⟨-, hleft⟩, h⟩ := h
    obtain ⟨hle, rfl⟩ := move_eq_ok h
    exact ⟨hle, left, by omega, .inr hallowed, rfl⟩

theorem bridgeFromCore_eq_ok (h : t.bridgeFromCore systemAddress a b amount = .ok t') :
    amount ≤ t.balanceOf systemAddress ∧ t' = t.moved systemAddress b amount ∨
    t.totalSupply + amount < 2 ^ 256 ∧
      t' = { t with totalSupply := t.totalSupply + amount }.setBalance b
        (t.balanceOf b + amount) := by
  unfold bridgeFromCore at h
  obtain ⟨_, -, h⟩ := bind_eq_ok.mp h
  by_cases hsystem : a = systemAddress
  · replace h := (if_neg (not_not.mpr hsystem)).symm.trans h
    unfold mint at h
    simp only [bind_eq_ok, add_eq_ok, pure_eq_ok] at h
    obtain ⟨_, ⟨hsupply, rfl⟩, _, ⟨-, rfl⟩, rfl⟩ := h
    exact .inr ⟨hsupply, rfl⟩
  · replace h := (if_pos hsystem).symm.trans h
    simp only [bind_eq_ok, sub_eq_ok, add_eq_ok, pure_eq_ok] at h
    obtain ⟨_, ⟨hle, rfl⟩, _, ⟨-, rfl⟩, rfl⟩ := h
    exact .inl ⟨hle, rfl⟩

/-- **Calls of others.** A call neither lowers the balance of an account that approves nobody
nor makes it approve. -/
theorem call_guards {sender : AccountAddress} {c : Call} (hsystem : owner ≠ systemAddress)
    (hguarded : (erc20 systemAddress).Guarded t owner) (hsender : sender ≠ owner)
    (h : call systemAddress sender c t = .ok t') :
    t.balanceOf owner ≤ t'.balanceOf owner ∧ (erc20 systemAddress).Guarded t' owner := by
  obtain ⟨hsound, hallowance⟩ := hguarded
  unfold call at h
  cases c with
  | transfer recipient amount =>
    obtain ⟨⟨paid, u⟩, hu, h⟩ := bind_eq_ok.mp h
    obtain rfl := pure_eq_ok.mp h
    obtain ⟨hle, rfl⟩ := move_eq_ok hu
    refine ⟨?_, hsound.moved hle, hallowance⟩
    rw [balanceOf_moved, if_neg hsender.symm]
    omega
  | approve spender amount =>
    obtain ⟨⟨paid, u⟩, hu, h⟩ := bind_eq_ok.mp h
    obtain rfl := pure_eq_ok.mp h
    obtain ⟨-, rfl⟩ := Prod.mk.inj (pure_eq_ok.mp hu)
    refine ⟨le_rfl, hsound, fun x => ?_⟩
    exact (allowance_setAllowance.trans (if_neg fun hx => hsender hx.1)).trans (hallowance x)
  | transferFrom payer recipient amount =>
    obtain ⟨⟨paid, u⟩, hu, h⟩ := bind_eq_ok.mp h
    obtain rfl := pure_eq_ok.mp h
    obtain ⟨hle, left, hleft, hallowed, rfl⟩ := transferFrom_eq_ok hu
    have hspent : payer = owner → amount = 0 ∧ left = 0 := by
      rintro rfl
      have hnone := hallowance sender
      change t.allowance payer sender = 0 at hnone
      omega
    refine ⟨?_, Sound.moved (t := t.setAllowance payer sender left) hsound hle, fun x => ?_⟩
    · rw [balanceOf_moved]
      show t.balanceOf owner ≤ t.balanceOf owner - _ + _
      split
      · rename_i hpayer
        rw [(hspent hpayer.symm).1]
        split <;> omega
      · omega
    · refine allowance_setAllowance.trans ?_
      split
      · rename_i hpayer
        exact (hspent hpayer.1).2
      · exact hallowance x
  | bridgeFromCore recipient amount =>
    obtain ⟨hle, rfl⟩ | ⟨hsupply, rfl⟩ := bridgeFromCore_eq_ok h
    · refine ⟨?_, hsound.moved hle, hallowance⟩
      rw [balanceOf_moved, if_neg hsystem]
      omega
    · refine ⟨?_, ⟨?_, hsupply⟩, hallowance⟩
      · rw [balanceOf_setBalance]
        split
        · rename_i hb
          subst hb
          exact Nat.le_add_right ..
        · exact le_rfl
      · rw [held_setBalance]
        show t.held - t.balanceOf recipient + ↑(t.balanceOf recipient + amount) =
          ↑(t.totalSupply + amount)
        rw [hsound.1]
        omega

/-- **A standard token**, for every account but the bridge's own. -/
theorem standard (hsystem : owner ≠ systemAddress) :
    (erc20 systemAddress).Standard owner where
  transfer_moves := by
    intro t t' recipient amount hguarded h
    obtain ⟨hle, rfl⟩ := move_eq_ok h
    exact ⟨⟨hle, fun _ => balanceOf_moved⟩, hguarded.1.moved hle, hguarded.2⟩
  transfer_covered := by
    intro t recipient amount hsound _ hle
    exact ⟨_, move_covered hsound hle⟩
  transferFrom_moves := by
    intro t t' sender amount hguarded hne h
    obtain ⟨hle, left, -, -, rfl⟩ := transferFrom_eq_ok h
    refine ⟨⟨hle, fun _ => balanceOf_moved⟩, Sound.moved hguarded.1 hle, fun x => ?_⟩
    exact (allowance_setAllowance.trans (if_neg fun hx => hne hx.1)).trans (hguarded.2 x)
  call_keeps hguarded hsender h := call_guards hsystem hguarded hsender h

end SpotToken

end Hypercore.Contracts
