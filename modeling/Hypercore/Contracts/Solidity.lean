import Hypercore.Primitives.Order
/-!
# Hypercore.Contracts.Solidity

Calls of Solidity contracts.

A call returns or reverts, and one that reverts leaves no trace. A `uint256` is a number
below 2^256: arithmetic on it is checked and reverts when it leaves the range.
-/

namespace Hypercore.Contracts

/-- Why a call reverts. -/
inductive Revert
  /-- A failed `require`. -/
  | require (message : String)
  /-- `Panic(0x11)`. -/
  | overflow
  deriving DecidableEq, Repr

/-- A call that returns or reverts. -/
abbrev Solidity (α : Type) := Except Revert α

namespace Solidity

variable {α β : Type}

@[simp] theorem pure_eq_ok {a b : α} : (pure a : Solidity α) = .ok b ↔ a = b := by
  simp [pure, Except.pure]

variable {x : Solidity α} {f : α → Solidity β} {condition : Prop} {message : String} {b c n : Nat}

/-- **Inversion.** A sequence returns exactly when both halves do. -/
@[simp] theorem bind_eq_ok {b : β} :
    (x >>= f) = .ok b ↔ ∃ a, x = .ok a ∧ f a = .ok b := by
  cases x with
  | error e => simp [bind, Except.bind]
  | ok a => simp [bind, Except.bind]

@[simp] theorem ok_bind {a : α} : ((.ok a : Solidity α) >>= f) = f a := rfl

def require (condition : Prop) [Decidable condition] (message : String) : Solidity Unit :=
  if condition then .ok () else .error (.require message)

@[simp] theorem require_eq_ok [Decidable condition] {u : Unit} :
    require condition message = .ok u ↔ condition := by
  unfold require
  split <;> simp_all

theorem require_pos [Decidable condition] (h : condition) : require condition message = .ok () :=
  require_eq_ok.mpr h

/-- `a + b`. -/
def add (a b : Nat) : Solidity Nat := if a + b < 2 ^ 256 then .ok (a + b) else .error .overflow

/-- `a - b`. -/
def sub (a b : Nat) : Solidity Nat := if b ≤ a then .ok (a - b) else .error .overflow

@[simp] theorem add_eq_ok {a : Nat} : add a b = .ok c ↔ a + b < 2 ^ 256 ∧ a + b = c := by
  unfold add
  split <;> simp_all

@[simp] theorem sub_eq_ok {a : Nat} : sub a b = .ok c ↔ b ≤ a ∧ a - b = c := by
  unfold sub
  split <;> simp_all

/-- `int64(uint64(n))`. -/
def int64 (n : Nat) : Int := (BitVec.ofNat 64 n).toInt

theorem int64_eq (n : Nat) : int64 n = (n : Int).bmod (2 ^ 64) := BitVec.toInt_ofNat ..

/-- Numbers below 2^63 keep their value. -/
theorem int64_of_lt (h : n < 2 ^ 63) : int64 n = n := by
  rw [int64_eq]
  exact Int.bmod_eq_of_le (by omega) (by omega)

/-- Only the low 64 bits matter. -/
theorem int64_eq_zero : int64 n = 0 ↔ n % 2 ^ 64 = 0 := by
  rw [int64_eq, Int.bmod_def]
  split <;> omega

/-- A revert, as a step that is not taken. -/
def toExec : Solidity α → Exec α
  | .ok a => .ok a
  | .error _ => .error .panic

@[simp] theorem toExec_eq_ok {a : α} : x.toExec = .ok a ↔ x = .ok a := by
  cases x <;> simp [toExec]

end Solidity

/-- A call of the contract at `callee` by an account. -/
structure Msg (callee : AccountAddress) where
  sender : AccountAddress
  /-- `block.number`. -/
  block : Nat
  block_lt : block < 2 ^ 256
  /-- Nobody signs for the zero address. -/
  sender_ne_zero : sender ≠ 0
  /-- The contract does not call itself. -/
  sender_ne_self : sender ≠ callee

/-! ### Tokens -/

/-- An ERC-20 token: what the contracts call, and the calls that anybody makes. -/
structure Erc20 where
  State : Type
  Call : Type
  /-- The states that the token can be in. -/
  Sound : State → Prop
  balanceOf : State → AccountAddress → Nat
  allowance : State → AccountAddress → AccountAddress → Nat
  transfer (sender recipient : AccountAddress) (amount : Nat) : State → Solidity (Bool × State)
  transferFrom (spender owner recipient : AccountAddress) (amount : Nat) :
    State → Solidity (Bool × State)
  call (sender : AccountAddress) : Call → State → Solidity State

namespace Erc20

variable (T : Erc20)

/-- Exactly `amount` went from one account to the other, without a fee. -/
def Moved (t t' : T.State) (sender recipient : AccountAddress) (amount : Nat) : Prop :=
  amount ≤ T.balanceOf t sender ∧
  ∀ a, T.balanceOf t' a = T.balanceOf t a - (if a = sender then amount else 0) +
    (if a = recipient then amount else 0)

/-- `owner` lets nobody spend its tokens. -/
def Guarded (t : T.State) (owner : AccountAddress) : Prop :=
  T.Sound t ∧ ∀ spender, T.allowance t owner spender = 0

/-- A standard token without fees, in the eyes of an account that approves nobody. -/
structure Standard (owner : AccountAddress) : Prop where
  transfer_moves : ∀ {t t' : T.State} {recipient amount}, T.Guarded t owner →
    T.transfer owner recipient amount t = .ok (true, t') →
      T.Moved t t' owner recipient amount ∧ T.Guarded t' owner
  transfer_covered : ∀ {t : T.State} {recipient amount}, T.Sound t → recipient ≠ 0 →
    amount ≤ T.balanceOf t owner → ∃ t', T.transfer owner recipient amount t = .ok (true, t')
  transferFrom_moves : ∀ {t t' : T.State} {sender amount}, T.Guarded t owner → sender ≠ owner →
    T.transferFrom owner sender owner amount t = .ok (true, t') →
      T.Moved t t' sender owner amount ∧ T.Guarded t' owner
  call_keeps : ∀ {t t' : T.State} {sender c}, T.Guarded t owner → sender ≠ owner →
    T.call sender c t = .ok t' →
      T.balanceOf t owner ≤ T.balanceOf t' owner ∧ T.Guarded t' owner

end Erc20

end Hypercore.Contracts
