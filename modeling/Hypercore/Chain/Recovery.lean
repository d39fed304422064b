import Hypercore.Chain.TypedData
/-!
# Hypercore.Chain.Recovery

The two ways from a `v` to a recovery id.

The chain subtracts 27 and takes what is below four, the reduced `x` included; the gateway
takes 0, 1, 27, 28 and everything from 35 on. They agree on 27 and 28, and otherwise only
where neither recovers a key; below 27 the subtraction underflows.
-/

namespace Hypercore

open Exec

/-- The recovery ids under which either side tries to recover a key, of a `v` other than 27
and 28. -/
def strayRecoveryId (v : UInt8) : Option RecoveryId :=
  if v < 27 then none
  else if v = 29 then some ⟨false, true⟩
  else if v = 30 then some ⟨true, true⟩
  else if 35 ≤ v then some ⟨(v - 35) % 2 = 1, false⟩
  else none

section

variable (S : Signing)

/-- Both recoveries accept the same digests and signatures, with the same signer, and the chain's
arithmetic does not underflow. -/
structure RecoveriesAgree (hash : S.Digest) (sig : Signature) : Prop where
  returns : ∃ r, recoverAddress S hash sig = .ok r
  agree : ∀ a, recoverAddress S hash sig = .ok (.ok a) ↔ sig.recover S hash = .ok a

/-- Neither side recovers a key that the other one does not. -/
def Undisputed (hash : S.Digest) (sig : Signature) : Prop :=
  S.isSignature sig.r sig.s = false ∨ sig.v = 27 ∨ sig.v = 28 ∨
    (27 ≤ sig.v ∧ ∀ id, strayRecoveryId sig.v = some id →
      S.recoverFromPrehash hash sig.r sig.s id = none)

end

/-- The recovery ids that the two sides make of a `v` that does not underflow. -/
theorem recoveryIds_cases (S : Signing) (v : UInt8) (h : 27 ≤ v) :
    ((v = 27 ∨ v = 28) ∧ S.recoveryIdFrom (v - 27) = Signature.recoveryId v) ∨
    (v ≠ 27 ∧ v ≠ 28 ∧
      ((S.recoveryIdFrom (v - 27) = strayRecoveryId v ∧ Signature.recoveryId v = none) ∨
        (S.recoveryIdFrom (v - 27) = none ∧ Signature.recoveryId v = strayRecoveryId v))) := by
  rw [S.recoveryIdFrom_eq]
  have htable : ∀ n < 256, 27 ≤ UInt8.ofNat n →
      ((UInt8.ofNat n = 27 ∨ UInt8.ofNat n = 28) ∧
        RecoveryId.ofByte (UInt8.ofNat n - 27) = Signature.recoveryId (UInt8.ofNat n)) ∨
      (UInt8.ofNat n ≠ 27 ∧ UInt8.ofNat n ≠ 28 ∧
        ((RecoveryId.ofByte (UInt8.ofNat n - 27) = strayRecoveryId (UInt8.ofNat n) ∧
            Signature.recoveryId (UInt8.ofNat n) = none) ∨
          (RecoveryId.ofByte (UInt8.ofNat n - 27) = none ∧
            Signature.recoveryId (UInt8.ofNat n) = strayRecoveryId (UInt8.ofNat n)))) := by
    decide +kernel
  have hv := htable v.toNat v.toNat_lt
  rw [UInt8.ofNat_toNat] at hv
  exact hv h

variable {S : Signing} {hash : S.Digest} {sig : Signature}

/-- The chain's arithmetic underflows on a `v` below 27, once `r` and `s` are taken. -/
theorem recoverAddress_returns_iff :
    (∃ r, recoverAddress S hash sig = .ok r) ↔
      S.isSignature sig.r sig.s = false ∨ 27 ≤ sig.v := by
  unfold recoverAddress
  by_cases hsig : S.isSignature sig.r sig.s = true
  · rw [if_pos hsig]
    by_cases hv : sig.v < 27
    · rw [if_pos hv]
      simp [hsig, UInt8.not_le.mpr hv]
    · rw [if_neg hv]
      refine iff_of_true ?_ (.inr (UInt8.not_lt.mp hv))
      cases S.recoveryIdFrom (sig.v - 27) with
      | none => exact ⟨_, rfl⟩
      | some id =>
        dsimp only
        cases S.recoverFromPrehash hash sig.r sig.s id with
        | none => exact ⟨_, rfl⟩
        | some a => exact ⟨_, rfl⟩
  · rw [if_neg hsig]
    exact iff_of_true ⟨_, rfl⟩ (.inl (Bool.eq_false_iff.mpr hsig))

/-- Without a signature in `r` and `s`, both sides refuse. -/
theorem recoveriesAgree_of_no_signature (hsig : S.isSignature sig.r sig.s = false) :
    RecoveriesAgree S hash sig where
  returns := recoverAddress_returns_iff.mpr (.inl hsig)
  agree a := by
    rw [recoverAddress_eq_ok, Signature.recover_eq_ok, hsig]
    exact ⟨fun h => absurd h.1 Bool.false_ne_true, fun h => absurd h.1 Bool.false_ne_true⟩

section Signed

variable (hsig : S.isSignature sig.r sig.s = true)
include hsig

theorem recoverAddress_signed {a : AccountAddress} : recoverAddress S hash sig = .ok (.ok a) ↔
    27 ≤ sig.v ∧ ∃ id, S.recoveryIdFrom (sig.v - 27) = some id ∧
      S.recoverFromPrehash hash sig.r sig.s id = some a := by
  rw [recoverAddress_eq_ok, hsig]
  exact and_iff_right rfl

theorem recover_signed {a : AccountAddress} : sig.recover S hash = .ok a ↔
    ∃ id, Signature.recoveryId sig.v = some id ∧
      S.recoverFromPrehash hash sig.r sig.s id = some a := by
  rw [Signature.recover_eq_ok, hsig]
  exact and_iff_right rfl

/-- Where both sides agree, the key of a stray recovery id is not recovered: one side alone would
recover it. -/
theorem stray_unrecovered (h : RecoveriesAgree S hash sig) (hv : 27 ≤ sig.v)
    (hstray : sig.v ≠ 27 ∧ sig.v ≠ 28) {id : RecoveryId} (hid : strayRecoveryId sig.v = some id) :
    S.recoverFromPrehash hash sig.r sig.s id = none := by
  rw [← Option.not_isSome_iff_eq_none, Option.isSome_iff_exists]
  rintro ⟨a, ha⟩
  obtain ⟨hplain, -⟩ | ⟨-, -, ⟨htry, hnone⟩ | ⟨hnone, hread⟩⟩ := recoveryIds_cases S sig.v hv
  · exact hplain.elim hstray.1 hstray.2
  · have haccepted := (recoverAddress_signed hsig).mpr ⟨hv, id, htry.trans hid, ha⟩
    obtain ⟨id', hid', -⟩ := (recover_signed hsig).mp ((h.agree a).mp haccepted)
    rw [hnone] at hid'
    cases hid'
  · have haccepted := (recover_signed hsig).mpr ⟨id, hread.trans hid, ha⟩
    obtain ⟨-, id', hid', -⟩ := (recoverAddress_signed hsig).mp ((h.agree a).mpr haccepted)
    rw [hnone] at hid'
    cases hid'

/-- On 27 and 28 both sides make the same recovery id; on other values one of them makes none. -/
theorem recoveries_agree_of (hv : 27 ≤ sig.v) (hnone : sig.v ≠ 27 → sig.v ≠ 28 →
      ∀ id, strayRecoveryId sig.v = some id → S.recoverFromPrehash hash sig.r sig.s id = none) :
    RecoveriesAgree S hash sig := by
  refine ⟨recoverAddress_returns_iff.mpr (.inr hv), fun a => ?_⟩
  rw [recoverAddress_signed hsig, recover_signed hsig, and_iff_right hv]
  have hrefused {o : Option RecoveryId} (h27 : sig.v ≠ 27) (h28 : sig.v ≠ 28)
      (ho : o = strayRecoveryId sig.v ∨ o = none) :
      ¬ ∃ id, o = some id ∧ S.recoverFromPrehash hash sig.r sig.s id = some a := by
    rintro ⟨id, hid, ha⟩
    rcases ho with rfl | rfl
    · rw [hnone h27 h28 id hid] at ha
      cases ha
    · cases hid
  obtain ⟨-, heq⟩ | ⟨h27, h28, ⟨htry, hread⟩ | ⟨htry, hread⟩⟩ := recoveryIds_cases S sig.v hv
  · rw [heq]
  · exact iff_of_false (hrefused h27 h28 (.inl htry)) (hrefused h27 h28 (.inr hread))
  · exact iff_of_false (hrefused h27 h28 (.inr htry)) (hrefused h27 h28 (.inl hread))

end Signed

/-- **The signer.** Both recoveries accept the same digest and signature with the same signer,
without underflow, exactly when there is no dispute about `v`. Both read 27 and 28 as the same id,
below 27 the chain underflows, and elsewhere an id is harmless only if it recovers nobody. -/
theorem recoveries_agree_iff (S : Signing) (hash : S.Digest) (sig : Signature) :
    RecoveriesAgree S hash sig ↔ Undisputed S hash sig := by
  unfold Undisputed
  cases hsig : S.isSignature sig.r sig.s with
  | false => exact iff_of_true (recoveriesAgree_of_no_signature hsig) (.inl rfl)
  | true =>
    constructor
    · intro h
      obtain hsig' | hv := recoverAddress_returns_iff.mp h.returns
      · rw [hsig] at hsig'
        cases hsig'
      by_cases hplain : sig.v = 27 ∨ sig.v = 28
      · exact .inr (hplain.imp id .inl)
      · exact .inr (.inr (.inr ⟨hv, fun id hid =>
          stray_unrecovered hsig h hv (not_or.mp hplain) hid⟩))
    · rintro (h | h | h | ⟨hv, hnone⟩)
      · cases h
      · exact recoveries_agree_of hsig (h ▸ UInt8.le_refl 27) fun h27 => absurd h h27
      · exact recoveries_agree_of hsig (h ▸ by decide) fun _ h28 => absurd h h28
      · exact recoveries_agree_of hsig hv fun _ _ => hnone

/-- Signing in which every signature is of account 1, whatever the recovery id. -/
def oneSigner : Signing where
  toSymbolicKeccak := .numbered
  lowercase text := text
  isSignature _ _ := true
  recoverFromPrehash _ _ _ _ := some 1
  recoveryIdFrom_below := RecoveryId.ofByte_below
  recoveryIdFrom_above := RecoveryId.ofByte_above

/-- A signature with `v` 37, of chain id 1, is taken by the gateway and refused by the chain;
with `v` 0 the chain underflows. -/
theorem chain_id_signature_refused :
    ∃ (S : Signing) (hash : S.Digest) (r s : Bytes32),
      (Signature.mk r s 37).recover S hash = .ok 1 ∧
      recoverAddress S hash ⟨r, s, 37⟩ = .ok (.error .invalidSignature) ∧
      (Signature.mk r s 0).recover S hash = .ok 1 ∧
      recoverAddress S hash ⟨r, s, 0⟩ = .error .panic :=
  ⟨oneSigner, oneSigner.zero, .ofPrefix [], .ofPrefix [], rfl, rfl, rfl, rfl⟩

end Hypercore
