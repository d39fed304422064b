import Hypercore.Lib.Quorum
import Hypercore.Lib.Run
import Hypercore.Primitives.Keccak
/-!
# Hypercore.Chain.ValidatorSet

The validator set that the CometBFT application tracks.

The total power is kept beside the members and moved by each update. As long as no update
has a negative power it is the sum of the members' powers (`Sound`); two supermajorities
then share a third of it by the weighted quorums of `Quorum`.

SHA-256 is any function to 32 bytes. Powers are `i64`s; arithmetic on them halts where the
result is none.
-/

namespace Hypercore

namespace CometBft

open Exec

/-- The result of an `i64` operation whose exact value is `v`. -/
def i64 (v : Int) : Exec Int := if -2 ^ 63 ≤ v ∧ v < 2 ^ 63 then .ok v else .error .panic

theorem i64_eq_ok {v w : Int} (h : i64 v = .ok w) : w = v := by
  unfold i64 at h
  split at h
  · exact (Except.ok.inj h).symm
  · cases h

/-- A validator in the set. -/
structure Validator where
  pubKey : List UInt8
  /-- Voting power. -/
  power : Int
  /-- Optional moniker. -/
  name : Option String
  deriving DecidableEq, Repr

namespace Validator

/-- Create a new validator. -/
def new (pubKey : List UInt8) (power : Int) : Validator := ⟨pubKey, power, none⟩

/-- The first 20 bytes of the hash of the public key. -/
def address (sha256 : List UInt8 → Bytes32) (v : Validator) : AccountAddress :=
  Fin.ofNat _ (ofBeBytes ((sha256 v.pubKey).val.take 20))

end Validator

/-- Validators by address, with their total voting power. -/
structure ValidatorSet where
  validators : FinMap AccountAddress Validator
  totalPower : Int

/-- Calls that change a validator set. -/
inductive ValidatorCall
  | addValidator (pubKey : List UInt8) (power : Int)
  | updatePower (address : AccountAddress) (newPower : Int)
  | removeValidator (address : AccountAddress)
  | applyUpdates (updates : List (List UInt8 × Int))

namespace ValidatorSet

variable (sha256 : List UInt8 → Bytes32)

/-- A new empty validator set. -/
def new : ValidatorSet := ⟨∅, 0⟩

/-- Add a validator to the set. Only a positive power is kept. -/
def addValidator (s : ValidatorSet) (pubKey : List UInt8) (power : Int) : Exec ValidatorSet := do
  let validator := Validator.new pubKey power
  let address := validator.address sha256
  let totalPower ← (match s.validators[address]? with
    | some existing => i64 (s.totalPower - existing.power)
    | none => return s.totalPower)
  let totalPower ← i64 (totalPower + power)
  return {
    validators :=
      if 0 < power then s.validators.insert address validator else s.validators.erase address
    totalPower }

/-- Update a validator's power; `false` if there is no such validator. -/
def updatePower (s : ValidatorSet) (address : AccountAddress) (newPower : Int) :
    Exec (Bool × ValidatorSet) :=
  match s.validators[address]? with
  | none => return (false, s)
  | some validator => do
    let totalPower ← i64 (s.totalPower - validator.power)
    let totalPower ← i64 (totalPower + newPower)
    return (true, {
      validators :=
        if newPower = 0 then s.validators.erase address
        else s.validators.insert address { validator with power := newPower }
      totalPower })

/-- Remove a validator from the set. -/
def removeValidator (s : ValidatorSet) (address : AccountAddress) :
    Exec (Option Validator × ValidatorSet) :=
  match s.validators[address]? with
  | none => return (none, s)
  | some validator => do
    let totalPower ← i64 (s.totalPower - validator.power)
    return (some validator, ⟨s.validators.erase address, totalPower⟩)

/-- Apply validator updates. -/
def applyUpdates (s : ValidatorSet) (updates : List (List UInt8 × Int)) : Exec ValidatorSet :=
  updates.foldlM (fun s p => s.addValidator sha256 p.1 p.2) s

/-- The threshold for a supermajority. -/
def supermajorityThreshold (s : ValidatorSet) : Exec Int := do
  let doubled ← i64 (s.totalPower * 2)
  let rounded ← i64 (doubled + 2)
  return rounded.tdiv 3

/-- Check if the given power constitutes a supermajority. -/
def isSupermajority (s : ValidatorSet) (power : Int) : Exec Bool := do
  let threshold ← s.supermajorityThreshold
  return threshold ≤ power

/-- One call. Results are dropped; the set is kept. -/
def step : ValidatorCall → ValidatorSet → Exec ValidatorSet
  | .addValidator pubKey power, s => s.addValidator sha256 pubKey power
  | .updatePower address newPower, s => do return (← s.updatePower address newPower).2
  | .removeValidator address, s => do return (← s.removeValidator address).2
  | .applyUpdates updates, s => s.applyUpdates sha256 updates

/-! ### The powers of the members -/

/-- The addresses of the members. -/
def members (s : ValidatorSet) : Finset AccountAddress :=
  (s.validators.toList.map Prod.fst).toFinset

/-- The power of a member, zero for anybody else. -/
def powerOf (s : ValidatorSet) (a : AccountAddress) : Int :=
  FinMap.weight (fun _ v => v.power) s.validators a

/-- The power that some of the members have together. -/
def jointPower (s : ValidatorSet) (A : Finset AccountAddress) : Int := ∑ a ∈ A, s.powerOf a

/-- The sum of the members' powers. -/
def memberPower (s : ValidatorSet) : Int := FinMap.total (fun _ v => v.power) s.validators

variable {sha256} {s s' : ValidatorSet}

theorem memberPower_eq (s : ValidatorSet) : s.memberPower = s.jointPower s.members := by
  unfold memberPower jointPower members FinMap.total
  rw [List.sum_toFinset _ (FinMap.nodup_keys s.validators), List.map_map]
  congr 1
  refine List.map_congr_left fun p hp => ?_
  unfold powerOf FinMap.weight
  rw [Function.comp_apply, FinMap.mem_toList.mp hp]
  rfl

/-- The total power is the members', and none of these has a negative power. -/
structure Sound (s : ValidatorSet) : Prop where
  total : s.totalPower = s.memberPower
  nonneg : ∀ (a : AccountAddress) v, s.validators[a]? = some v → 0 ≤ v.power

theorem Sound.new : new.Sound where
  total := by
    unfold memberPower ValidatorSet.new
    rw [FinMap.total_empty]
  nonneg a v h := by simp [ValidatorSet.new] at h

theorem Sound.powerOf_nonneg (h : s.Sound) (a : AccountAddress) : 0 ≤ s.powerOf a := by
  unfold powerOf FinMap.weight
  cases ha : s.validators[a]? with
  | none => exact Int.le_refl 0
  | some v => exact h.nonneg a v ha

/-- Writing a member, when the total moves by the difference. -/
theorem Sound.insert (h : s.Sound) {a : AccountAddress} {v : Validator} (hv : 0 ≤ v.power)
    {total : Int} (htotal : total = s.totalPower - s.powerOf a + v.power) :
    Sound ⟨s.validators.insert a v, total⟩ where
  total := by
    unfold memberPower
    rw [FinMap.total_insert, htotal, h.total]
    rfl
  nonneg b w hw := by
    rw [FinMap.get_insert] at hw
    split at hw
    · obtain rfl := Option.some.inj hw
      exact hv
    · exact h.nonneg b w hw

/-- Taking a member out, when the total drops by its power. -/
theorem Sound.erase (h : s.Sound) {a : AccountAddress} {total : Int}
    (htotal : total = s.totalPower - s.powerOf a) :
    Sound ⟨s.validators.erase a, total⟩ where
  total := by
    unfold memberPower
    rw [FinMap.total_erase, htotal, h.total]
    rfl
  nonneg b w hw := by
    rw [FinMap.get_erase] at hw
    split at hw
    · cases hw
    · exact h.nonneg b w hw

theorem Sound.addValidator (h : s.Sound) {pubKey : List UInt8} {power : Int} (hpower : 0 ≤ power)
    (hs : s.addValidator sha256 pubKey power = .ok s') : s'.Sound := by
  obtain ⟨left, hleft, hs⟩ := bind_inv hs
  obtain ⟨total, htotal, hs⟩ := bind_inv hs
  obtain rfl := pure_inv hs
  have heq : left = s.totalPower - s.powerOf ((Validator.new pubKey power).address sha256) := by
    unfold powerOf FinMap.weight
    cases hget : s.validators[(Validator.new pubKey power).address sha256]? with
    | none =>
      rw [hget] at hleft
      rw [← pure_inv hleft]
      exact (Int.sub_zero _).symm
    | some existing =>
      rw [hget] at hleft
      exact i64_eq_ok hleft
  have hsum := i64_eq_ok htotal
  by_cases hpos : 0 < power
  · rw [if_pos hpos]
    exact h.insert hpower (by rw [hsum, heq]; rfl)
  · rw [if_neg hpos]
    exact h.erase (by omega)

/-- No power of the call is negative. -/
def Nonneg : ValidatorCall → Prop
  | .addValidator _ power => 0 ≤ power
  | .updatePower _ newPower => 0 ≤ newPower
  | .removeValidator _ => True
  | .applyUpdates updates => ∀ p ∈ updates, 0 ≤ p.2

instance (call : ValidatorCall) : Decidable (Nonneg call) := by
  cases call <;> unfold Nonneg <;> infer_instance

/-- **Step lemma.** A call without negative powers keeps the total that of the members. -/
theorem Sound.step {call : ValidatorCall} (h : s.Sound) (hcall : Nonneg call)
    (hs : step sha256 call s = .ok s') : s'.Sound := by
  cases call with
  | addValidator pubKey power => exact h.addValidator hcall hs
  | updatePower address newPower =>
    obtain ⟨⟨done, s₁⟩, hup, hs⟩ := bind_inv hs
    obtain rfl := pure_inv hs
    unfold updatePower at hup
    cases hget : s.validators[address]? with
    | none =>
      rw [hget] at hup
      obtain ⟨-, rfl⟩ := pair_inv hup
      exact h
    | some validator =>
      rw [hget] at hup
      obtain ⟨left, hleft, hup⟩ := bind_inv hup
      obtain ⟨total, htotal, hup⟩ := bind_inv hup
      obtain ⟨-, rfl⟩ := pair_inv hup
      have hpower : s.powerOf address = validator.power := by
        unfold powerOf FinMap.weight
        rw [hget]
        rfl
      have heq := i64_eq_ok hleft
      have hsum := i64_eq_ok htotal
      dsimp only
      by_cases hzero : newPower = 0
      · rw [if_pos hzero]
        exact h.erase (by omega)
      · rw [if_neg hzero]
        exact h.insert (v := { validator with power := newPower }) hcall (by dsimp only; omega)
  | removeValidator address =>
    obtain ⟨⟨removed, s₁⟩, hrem, hs⟩ := bind_inv hs
    obtain rfl := pure_inv hs
    unfold removeValidator at hrem
    cases hget : s.validators[address]? with
    | none =>
      rw [hget] at hrem
      obtain ⟨-, rfl⟩ := pair_inv hrem
      exact h
    | some validator =>
      rw [hget] at hrem
      obtain ⟨total, htotal, hrem⟩ := bind_inv hrem
      obtain ⟨-, rfl⟩ := pair_inv hrem
      refine h.erase ?_
      rw [i64_eq_ok htotal]
      unfold powerOf FinMap.weight
      rw [hget]
      rfl
  | applyUpdates updates =>
    exact foldlM_induction (P := Sound) hs h fun p hp _ _ hx hadd =>
      hx.addValidator (hcall p hp) hadd

/-! ### Supermajorities -/

/-- Some of the members, who pass the supermajority test together. -/
structure Supermajority (s : ValidatorSet) (A : Finset AccountAddress) : Prop where
  members : A ⊆ s.members
  passes : s.isSupermajority (s.jointPower A) = .ok true

/-- A supermajority holds two thirds of the power. -/
theorem Supermajority.two_thirds {A : Finset AccountAddress} (h : s.Supermajority A)
    (h0 : 0 ≤ s.totalPower) : 2 * s.totalPower ≤ 3 * s.jointPower A := by
  obtain ⟨threshold, hthreshold, hle⟩ := bind_inv h.passes
  obtain ⟨doubled, hdoubled, hthreshold⟩ := bind_inv hthreshold
  obtain ⟨rounded, hrounded, hthreshold⟩ := bind_inv hthreshold
  obtain rfl := pure_inv hthreshold
  have hpasses : rounded.tdiv 3 ≤ s.jointPower A := of_decide_eq_true (pure_inv hle)
  rw [i64_eq_ok hrounded, i64_eq_ok hdoubled, Int.tdiv_eq_ediv_of_nonneg (by omega)] at hpasses
  omega

theorem Sound.totalPower_nonneg (h : s.Sound) : 0 ≤ s.totalPower := by
  rw [h.total, memberPower_eq]
  exact Finset.sum_nonneg fun a _ => h.powerOf_nonneg a

/-- Two supermajorities are quorums of two thirds. -/
theorem Sound.twoThirds (h : s.Sound) {A B : Finset AccountAddress} (hA : s.Supermajority A)
    (hB : s.Supermajority B) : Quorum.TwoThirds s.powerOf s.members A B := by
  have hV : s.totalPower = ∑ a ∈ s.members, s.powerOf a := h.total.trans s.memberPower_eq
  refine ⟨fun a _ => h.powerOf_nonneg a, hA.members, hB.members, ?_, ?_⟩
  · rw [← hV]
    exact hA.two_thirds h.totalPower_nonneg
  · rw [← hV]
    exact hB.two_thirds h.totalPower_nonneg

/-- The power accounts of a validator set: the total is the sum over the members, any two
supermajorities share a third of it, and more than a third unless the members split into three
groups of equal power. -/
structure Accounts (s : ValidatorSet) : Prop where
  total : s.totalPower = s.memberPower
  third : ∀ A B, s.Supermajority A → s.Supermajority B →
    s.totalPower ≤ 3 * s.jointPower (A ∩ B)
  more : ¬ Quorum.SplitsInThree s.powerOf s.members →
    ∀ A B, s.Supermajority A → s.Supermajority B → s.totalPower < 3 * s.jointPower (A ∩ B)

theorem Sound.accounts (h : s.Sound) : s.Accounts := by
  have hV : s.totalPower = ∑ a ∈ s.members, s.powerOf a := h.total.trans s.memberPower_eq
  refine ⟨h.total, fun A B hA hB => ?_, fun hsplit A B hA hB => ?_⟩
  · rw [hV]
    exact (h.twoThirds hA hB).third_le_sum_inter
  · by_contra hle
    refine hsplit ((Quorum.splitsInThree_iff fun a _ => h.powerOf_nonneg a).mpr
      ⟨A, B, h.twoThirds hA hB, ?_⟩)
    rw [← hV]
    exact Int.not_lt.mp hle

/-- **Power accounts.** Every sequence of updates without negative powers leaves a set whose
accounts are right. Each update moves the total by what it moves a member's power (`Sound`). -/
theorem power_accounts (h : Run.Reaches (step sha256) (fun _ call => Nonneg call) new s) :
    s.Accounts :=
  Sound.accounts (h.invariant Sound.new fun _ _ _ hs hcall hstep => hs.step hcall hstep)

/-- A public key of one byte over and over. -/
def keyOf (b : UInt8) : List UInt8 := List.replicate 32 b

/-- The hash, on three public keys. -/
def sha256OfKeys (data : List UInt8) : Bytes32 :=
  if data = keyOf 1 then .ofPrefix [114, 205, 110, 132, 34, 196, 7, 251, 109, 9, 134, 144, 241,
    19, 11, 125, 237, 126, 194, 247, 245, 225, 211, 11, 217, 213, 33, 240, 21, 54, 55, 147]
  else if data = keyOf 2 then .ofPrefix [117, 135, 123, 180, 29, 57, 59, 95, 184, 69, 92, 230,
    14, 205, 141, 218, 0, 29, 6, 49, 100, 150, 177, 77, 250, 127, 137, 86, 86, 238, 202, 74]
  else if data = keyOf 3 then .ofPrefix [100, 138, 165, 197, 121, 251, 48, 243, 138, 247, 68,
    217, 125, 110, 200, 64, 199, 169, 18, 119, 164, 153, 160, 215, 128, 243, 231, 49, 78, 202, 9,
    11]
  else .ofPrefix []

/-- The address of the validator of a key. -/
def addressOf (b : UInt8) : AccountAddress := (Validator.new (keyOf b) 0).address sha256OfKeys

/-- Three validators, of whom one is given more power and one is removed. -/
theorem power_accounts_updated : ∃ s,
    Run.Reaches (step sha256OfKeys) (fun _ call => Nonneg call) new s ∧
      s.totalPower = 250 ∧ s.Accounts := by
  obtain ⟨s, hs, htest⟩ := exists_of_test
    (x := [ValidatorCall.applyUpdates [(keyOf 1, 100), (keyOf 2, 100), (keyOf 3, 100)],
        .updatePower (addressOf 2) 150, .addValidator (keyOf 3) 0].foldlM
      (fun s call => if Nonneg call then step sha256OfKeys call s else .error .panic) new)
    (p := fun s => s.totalPower = 250) (by decide +kernel)
  have hreach : Run.Reaches (step sha256OfKeys) (fun _ call => Nonneg call) new s :=
    .of_checked (fun _ _ => inferInstance) hs
  exact ⟨s, hreach, of_decide_eq_true htest, power_accounts hreach⟩

/-- Three validators of equal power: two supermajorities share one of them, who has exactly a
third. -/
theorem third_is_not_more : ∃ s,
    Run.Reaches (step sha256OfKeys) (fun _ _ => True) new s ∧
      ∃ A B, s.Supermajority A ∧ s.Supermajority B ∧
        ¬ s.totalPower < 3 * s.jointPower (A ∩ B) := by
  obtain ⟨s, hs, htest⟩ := exists_of_test
    (x := [ValidatorCall.applyUpdates [(keyOf 1, 100), (keyOf 2, 100), (keyOf 3, 100)]].foldlM
      (fun s call => step sha256OfKeys call s) new)
    (p := fun s => ({addressOf 1, addressOf 2} : Finset AccountAddress) ⊆ s.members ∧
      ({addressOf 2, addressOf 3} : Finset AccountAddress) ⊆ s.members ∧
      s.isSupermajority (s.jointPower {addressOf 1, addressOf 2}) = .ok true ∧
      s.isSupermajority (s.jointPower {addressOf 2, addressOf 3}) = .ok true ∧
      ¬ s.totalPower < 3 * s.jointPower ({addressOf 1, addressOf 2} ∩ {addressOf 2, addressOf 3}))
    (by decide +kernel)
  obtain ⟨hA, hB, hpA, hpB, hle⟩ := of_decide_eq_true htest
  exact ⟨s, .of_foldlM (fun _ _ _ => trivial) hs, _, _, ⟨hA, hpA⟩, ⟨hB, hpB⟩, hle⟩

end ValidatorSet

end CometBft

end Hypercore
