import Hypercore.Primitives.Eip712
/-!
# Hypercore.Primitives.Signature

Signatures of typed data, and the gateway's recovery of their signer.

The recovery id of a `v` is read in two ways in the repository; this is the lenient one.
-/

namespace Hypercore

/-- Signature components. -/
structure Signature where
  r : Bytes32
  s : Bytes32
  v : UInt8
  deriving DecidableEq, Repr

/-- Errors of signature operations. -/
inductive SignatureError
  | invalidSignature
  | invalidRecoveryId
  | recoveryFailed
  deriving DecidableEq, Repr

/-- A recovery id: whether `y` is odd, and whether `x` was reduced. -/
structure RecoveryId where
  isYOdd : Bool
  isXReduced : Bool
  deriving DecidableEq, Repr

namespace RecoveryId

/-- Bit 0 and bit 1 of a number. -/
def ofBits (n : UInt8) : RecoveryId := ⟨n % 2 = 1, n / 2 % 2 = 1⟩

/-- The id of a number below four. -/
def ofByte (n : UInt8) : Option RecoveryId := if n < 4 then some (ofBits n) else none

theorem ofByte_below (n : UInt8) (h : n < 4) : ofByte n = some (ofBits n) := if_pos h

theorem ofByte_above (n : UInt8) (h : ¬ n < 4) : ofByte n = none := if_neg h

end RecoveryId

/-- What signing rests on outside the repository. -/
structure Signing extends SymbolicKeccak where
  /-- `str::to_lowercase`, on all of Unicode. -/
  lowercase : String → String
  /-- `k256::ecdsa::Signature::from_slice` takes these two numbers. -/
  isSignature : Bytes32 → Bytes32 → Bool
  /-- `VerifyingKey::recover_from_prehash`, and the address of the key. -/
  recoverFromPrehash : Digest → Bytes32 → Bytes32 → RecoveryId → Option AccountAddress
  /-- `RecoveryId::try_from`: the two bits of a number below four. -/
  recoveryIdFrom : UInt8 → Option RecoveryId := RecoveryId.ofByte
  recoveryIdFrom_below : ∀ n < 4, recoveryIdFrom n = some (.ofBits n)
  recoveryIdFrom_above : ∀ n, ¬ n < 4 → recoveryIdFrom n = none

/-- Signing that recovers nothing. -/
def hashesOnly : Signing where
  toSymbolicKeccak := .numbered
  lowercase := toLowercase
  isSignature _ _ := false
  recoverFromPrehash _ _ _ _ := none
  recoveryIdFrom_below := RecoveryId.ofByte_below
  recoveryIdFrom_above := RecoveryId.ofByte_above

theorem Signing.recoveryIdFrom_eq (S : Signing) (n : UInt8) :
    S.recoveryIdFrom n = RecoveryId.ofByte n := by
  by_cases hn : n < 4
  · rw [S.recoveryIdFrom_below n hn, RecoveryId.ofByte_below n hn]
  · rw [S.recoveryIdFrom_above n hn, RecoveryId.ofByte_above n hn]

namespace Signature

variable (S : Signing)

/-- The recovery id of a `v`: 27 or 28 in traditional Ethereum, 0 or 1, or from 35 on with
a chain id. -/
def recoveryId (v : UInt8) : Option RecoveryId :=
  if v = 0 ∨ v = 27 then some ⟨false, false⟩
  else if v = 1 ∨ v = 28 then some ⟨true, false⟩
  else if 35 ≤ v then some ⟨(v - 35) % 2 = 1, false⟩
  else none

/-- Recover the signer address from a message hash. -/
def recover (sig : Signature) (hash : S.Digest) : Except SignatureError AccountAddress :=
  if S.isSignature sig.r sig.s then
    match recoveryId sig.v with
    | none => .error .invalidRecoveryId
    | some id =>
      match S.recoverFromPrehash hash sig.r sig.s id with
      | none => .error .recoveryFailed
      | some a => .ok a
  else .error .invalidSignature

variable {S}

/-- What a recovered signer was recovered from. -/
theorem recover_eq_ok {sig : Signature} {hash : S.Digest} {a : AccountAddress} :
    sig.recover S hash = .ok a ↔ S.isSignature sig.r sig.s = true ∧
      ∃ id, recoveryId sig.v = some id ∧
        S.recoverFromPrehash hash sig.r sig.s id = some a := by
  unfold recover
  by_cases hsig : S.isSignature sig.r sig.s = true
  · rw [if_pos hsig]
    cases hid : recoveryId sig.v with
    | none => simp
    | some id =>
      cases hrec : S.recoverFromPrehash hash sig.r sig.s id <;> simp [hsig, hrec]
  · rw [if_neg hsig]
    simp [hsig]

end Signature

end Hypercore
