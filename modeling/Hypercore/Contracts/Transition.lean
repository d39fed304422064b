import Hypercore.Contracts.ValidatorRegistry
/-!
# Hypercore.Contracts.Transition

What a transaction can do to the registry and its token, said once: `transition_of_execute`.
-/

namespace Hypercore.Contracts

open Solidity Std

namespace ValidatorRegistry

variable {Digest : Type} {r r' : ValidatorRegistry Digest} {a b : AccountAddress}
  {v w : Validator}

/-! ### Writes -/

/-- The sets of validators, keys and updates are the same. -/
structure SameSet (r r' : ValidatorRegistry Digest) : Prop where
  validators : r'.validators = r.validators
  pubKeyToOperator : r'.pubKeyToOperator = r.pubKeyToOperator
  validatorList : r'.validatorList = r.validatorList
  activeValidatorCount : r'.activeValidatorCount = r.activeValidatorCount
  pendingUpdates : r'.pendingUpdates = r.pendingUpdates
  totalStaked : r'.totalStaked = r.totalStaked

theorem validator_of_eq (h : r'.validators = r.validators) : r'.validator a = r.validator a := by
  unfold validator
  rw [h]

theorem validator_setValidator :
    (r.setValidator a v).validator b = if a = b then v else r.validator b := by
  unfold validator setValidator
  rw [FinMap.get_insert]
  split <;> rfl

/-- The last write counts. -/
theorem setValidator_setValidator : (r.setValidator a v).setValidator a w = r.setValidator a w := by
  unfold setValidator
  congr 1
  refine ExtTreeMap.ext_getElem? fun b => ?_
  rw [FinMap.get_insert, FinMap.get_insert, FinMap.get_insert]
  split <;> rfl

theorem computeVotingPower_of_eq (h : r'.maxEffectiveStake = r.maxEffectiveStake) (stake : Nat) :
    r'.computeVotingPower stake = r.computeVotingPower stake := by
  unfold computeVotingPower
  rw [h]

@[simp] theorem validator_pushUpdate {pubKey : List UInt8} {power : Int} :
    (r.pushUpdate pubKey power).validator a = r.validator a := rfl

@[simp] theorem operator_empty : Validator.empty.operator = 0 := rfl

@[simp] theorem active_empty : Validator.empty.active = false := rfl

/-- A record with a new stake and its voting power. -/
def withStake (r : ValidatorRegistry Digest) (v : Validator) (stake : Nat) : Validator where
  __ := v
  stake := stake
  votingPower := r.computeVotingPower stake

def restaked (r : ValidatorRegistry Digest) (a : AccountAddress) (stake totalStaked : Nat) :
    ValidatorRegistry Digest where
  __ := r.setValidator a (r.withStake (r.validator a) stake)
  totalStaked := totalStaked

theorem validator_restaked {stake total : Nat} : (r.restaked a stake total).validator b =
    if a = b then r.withStake (r.validator a) stake else r.validator b :=
  validator_setValidator

/-- The start of unbonding. -/
def unbonding (r : ValidatorRegistry Digest) (a : AccountAddress) (block : Nat) :
    ValidatorRegistry Digest :=
  (r.setValidator a { r.validator a with unbondingStart := block }).pushUpdate
    (r.validator a).pubKey 0

variable {block : Nat} {g : Genesis}

theorem validator_unbonding : (r.unbonding a block).validator b =
    if a = b then { r.validator a with unbondingStart := block } else r.validator b :=
  validator_setValidator

/-- A record switched on or off. -/
def flipped (r : ValidatorRegistry Digest) (a : AccountAddress) (active : Bool)
    (activeSince activeValidatorCount : Nat) : ValidatorRegistry Digest where
  __ := r.setValidator a
    { r.validator a with
      active := active
      activeSince := activeSince }
  activeValidatorCount := activeValidatorCount

theorem validator_flipped {active : Bool} {since count : Nat} :
    (r.flipped a active since count).validator b =
      if a = b then
        { r.validator a with
          active := active
          activeSince := since }
      else r.validator b :=
  validator_setValidator

/-- What `increaseStake` leaves in the registry. -/
def increased (r : ValidatorRegistry Digest) (a : AccountAddress) (amount : Nat) :
    ValidatorRegistry Digest :=
  let stake := (r.validator a).stake + amount
  let r' := r.restaked a stake (r.totalStaked + amount)
  if r.computeVotingPower stake ≠ (r.validator a).votingPower then
    r'.pushUpdate (r.validator a).pubKey (int64 (r.computeVotingPower stake))
  else r'

/-- What `slash` leaves. -/
def slashed (r : ValidatorRegistry Digest) (a : AccountAddress) (amount block : Nat) :
    ValidatorRegistry Digest :=
  let cut := min amount (r.validator a).stake
  let stake := (r.validator a).stake - cut
  let r' := r.restaked a stake (r.totalStaked - cut)
  if stake < r.minStake ∧ (r.validator a).unbondingStart = 0 then r'.unbonding a block else r'

variable [DecidableEq Digest] {keccak256 : List UInt8 → Digest}

/-- The record that `registerValidator` writes. -/
def newValidator (r : ValidatorRegistry Digest) (g : Genesis) : Validator where
  operator := g.operator
  pubKey := g.pubKey
  stake := g.stake
  votingPower := r.computeVotingPower g.stake
  active := false
  activeSince := 0
  unbondingStart := 0
  moniker := g.moniker

/-- What `registerValidator` leaves. -/
def recorded (keccak256 : List UInt8 → Digest) (r : ValidatorRegistry Digest) (g : Genesis) :
    ValidatorRegistry Digest where
  __ := r.setValidator g.operator (r.newValidator g)
  pubKeyToOperator := Function.update r.pubKeyToOperator (keccak256 g.pubKey) g.operator
  validatorList := r.validatorList ++ [g.operator]
  totalStaked := r.totalStaked + g.stake

/-- The record that genesis leaves. -/
def genesisValidator (block : Nat) (r : ValidatorRegistry Digest) (g : Genesis) : Validator where
  __ := r.newValidator g
  active := true
  activeSince := block

/-- `registerValidator`, with the record activated. -/
def activated (keccak256 : List UInt8 → Digest) (block : Nat) (r : ValidatorRegistry Digest)
    (g : Genesis) : ValidatorRegistry Digest where
  __ := (r.recorded keccak256 g).setValidator g.operator (r.genesisValidator block g)
  activeValidatorCount := r.activeValidatorCount + 1

/-- What `completeUnbonding` leaves in the registry. -/
def removed (keccak256 : List UInt8 → Digest) (r : ValidatorRegistry Digest)
    (a : AccountAddress) : ValidatorRegistry Digest where
  __ := r
  totalStaked := r.totalStaked - (r.validator a).stake
  pubKeyToOperator := Function.update r.pubKeyToOperator (keccak256 (r.validator a).pubKey) 0
  validators := r.validators.erase a

theorem validator_recorded : (r.recorded keccak256 g).validator b =
    if g.operator = b then r.newValidator g else r.validator b :=
  validator_setValidator

theorem validator_activated :
    (r.activated keccak256 block g).validator b =
      if g.operator = b then r.genesisValidator block g else r.validator b := by
  have h : (r.activated keccak256 block g).validator b = ((r.recorded keccak256 g).setValidator
      g.operator (r.genesisValidator block g)).validator b := rfl
  rw [h, validator_setValidator, validator_recorded]
  split <;> rfl

theorem validator_removed :
    (r.removed keccak256 a).validator b = if a = b then .empty else r.validator b := by
  unfold validator removed
  rw [FinMap.get_erase]
  split <;> rfl

/-! ### Internal functions -/

theorem registerValidator_eq_ok :
    r.registerValidator keccak256 g.operator g.pubKey g.stake g.moniker = .ok r' ↔
      r.totalStaked + g.stake < 2 ^ 256 ∧ r.recorded keccak256 g = r' := by
  unfold registerValidator
  simp only [bind_eq_ok, add_eq_ok, pure_eq_ok]
  constructor
  · rintro ⟨total, ⟨hlt, rfl⟩, rfl⟩
    exact ⟨hlt, rfl⟩
  · rintro ⟨hlt, rfl⟩
    exact ⟨_, ⟨hlt, rfl⟩, rfl⟩

theorem addGenesisValidator_eq_ok :
    addGenesisValidator keccak256 block r g = .ok r' ↔
      r.totalStaked + g.stake < 2 ^ 256 ∧ r.activeValidatorCount + 1 < 2 ^ 256 ∧
        r.activated keccak256 block g = r' := by
  unfold addGenesisValidator
  simp only [bind_eq_ok, registerValidator_eq_ok, add_eq_ok, pure_eq_ok]
  have hself : (r.recorded keccak256 g).validator g.operator = r.newValidator g := by
    rw [validator_recorded, if_pos rfl]
  constructor
  · rintro ⟨_, ⟨hlt, rfl⟩, _, ⟨hcount, rfl⟩, rfl⟩
    refine ⟨hlt, hcount, ?_⟩
    rw [hself]
    rfl
  · rintro ⟨hlt, hcount, rfl⟩
    refine ⟨_, ⟨hlt, rfl⟩, _, ⟨hcount, rfl⟩, ?_⟩
    rw [hself]
    rfl

variable {operators : List AccountAddress} {pubKeys : List (List UInt8)} {stakes : List Nat}
  {monikers : List String}

theorem operators_genesisEntries (hkeys : operators.length = pubKeys.length)
    (hstakes : operators.length = stakes.length) (hmonikers : operators.length = monikers.length) :
    (genesisEntries operators pubKeys stakes monikers).map (·.operator) = operators := by
  unfold genesisEntries
  rw [List.map_map]
  refine List.map_fst_zip ?_
  simp only [List.length_zip]
  omega

theorem stakes_genesisEntries (hkeys : operators.length = pubKeys.length)
    (hstakes : operators.length = stakes.length) (hmonikers : operators.length = monikers.length) :
    (genesisEntries operators pubKeys stakes monikers).map (·.stake) = stakes := by
  have hcomp : ((fun g : Genesis => g.stake) ∘ fun e : AccountAddress × List UInt8 × Nat × String =>
      ⟨e.1, e.2.1, e.2.2.1, e.2.2.2⟩) = Prod.fst ∘ Prod.snd ∘ Prod.snd := rfl
  unfold genesisEntries
  have hpair : (pubKeys.zip (stakes.zip monikers)).length ≤ operators.length := by
    simp only [List.length_zip]
    omega
  have htriple : (stakes.zip monikers).length ≤ pubKeys.length := by
    simp only [List.length_zip]
    omega
  rw [List.map_map, hcomp, ← List.map_map, ← List.map_map, List.map_snd_zip hpair,
    List.map_snd_zip htriple, List.map_fst_zip (by omega)]

omit [DecidableEq Digest] in
/-- **One update.** It switches the record that its key leads to and counts it, if that is not
as the update says; or it does nothing. -/
theorem applyUpdate_eq_ok {block : Nat} {u : ValidatorUpdate}
    (h : applyUpdate keccak256 block r u = .ok r') :
    let a := r.pubKeyToOperator (keccak256 u.pubKey)
    (a ≠ 0 ∧ ∃ since count, r' = r.flipped a (decide (u.power > 0)) since count ∧
      count + (r.validator a).active.toNat =
        r.activeValidatorCount + (decide (u.power > 0)).toNat) ∨
    ((a = 0 ∨ (r.validator a).active = decide (u.power > 0)) ∧ r' = r) := by
  intro a
  unfold applyUpdate at h
  by_cases h0 : a = 0
  · rw [if_pos h0] at h
    exact .inr ⟨.inl h0, (pure_eq_ok.mp h).symm⟩
  rw [if_neg h0] at h
  by_cases hp : u.power > 0
  · rw [if_pos hp] at h
    rw [decide_eq_true hp]
    by_cases hactive : (r.validator a).active = true
    · rw [if_pos hactive] at h
      exact .inr ⟨.inr hactive, (pure_eq_ok.mp h).symm⟩
    · rw [if_neg hactive] at h
      simp only [bind_eq_ok, add_eq_ok, pure_eq_ok] at h
      obtain ⟨_, ⟨_, rfl⟩, rfl⟩ := h
      refine .inl ⟨h0, block, _, rfl, ?_⟩
      rw [Bool.eq_false_of_not_eq_true hactive]
      rfl
  · rw [if_neg hp] at h
    rw [decide_eq_false hp]
    by_cases hactive : (r.validator a).active = true
    · rw [if_pos hactive] at h
      simp only [bind_eq_ok, sub_eq_ok, pure_eq_ok] at h
      obtain ⟨_, ⟨hle, rfl⟩, rfl⟩ := h
      refine .inl ⟨h0, (r.validator a).activeSince, _, rfl, ?_⟩
      rw [hactive]
      exact Nat.sub_add_cancel hle
    · rw [if_neg hactive] at h
      exact .inr ⟨.inr (Bool.eq_false_of_not_eq_true hactive), (pure_eq_ok.mp h).symm⟩

end ValidatorRegistry

open ValidatorRegistry

namespace Staking

variable {T : Erc20} {Digest : Type} [DecidableEq Digest] {keccak256 : List UInt8 → Digest}
  {callee : AccountAddress} {s s' : Staking T Digest}

/-- The calls that change neither a record nor an update. -/
def Call.isSetting : Call → Bool
  | .initializeRegistry .. | .approveValidator _ | .revokeValidator _
  | .setPermissionedMode _ => true
  | .updateParams .. | .renounceAdmin => true
  | _ => false

/-- What a transaction that returns does. -/
inductive Transition (keccak256 : List UInt8 → Digest) (s : Staking T Digest) :
    Tx T callee → List ValidatorUpdate → Staking T Digest → Prop
  | settings {msg c registry} (hc : c.isSetting = true) (h : SameSet s.registry registry) :
    Transition keccak256 s (.registry msg c) [] ⟨registry, s.token⟩
  | genesis {msg operators pubKeys stakes monikers registry}
    (hkeys : operators.length = pubKeys.length) (hstakes : operators.length = stakes.length)
    (hmonikers : operators.length = monikers.length)
    (h : (genesisEntries operators pubKeys stakes monikers).foldlM
      (addGenesisValidator keccak256 msg.block) s.registry = .ok registry) :
    Transition keccak256 s (.registry msg (.addGenesisValidators operators pubKeys stakes monikers))
      [] ⟨registry, s.token⟩
  | register {msg pubKey moniker token}
    (hnew : (s.registry.validator msg.sender).operator = 0)
    (hkey : s.registry.pubKeyToOperator (keccak256 pubKey) = 0)
    (hpaid : T.transferFrom callee msg.sender callee s.registry.minStake s.token =
      .ok (true, token)) :
    Transition keccak256 s (.registry msg (.register pubKey moniker)) []
      ⟨(s.registry.recorded keccak256 ⟨msg.sender, pubKey, s.registry.minStake, moniker⟩).pushUpdate
        pubKey (int64 (s.registry.computeVotingPower s.registry.minStake)), token⟩
  | increaseStake {msg amount token}
    (hlive : (s.registry.validator msg.sender).operator ≠ 0)
    (hstays : (s.registry.validator msg.sender).unbondingStart = 0)
    (hpaid : T.transferFrom callee msg.sender callee amount s.token = .ok (true, token)) :
    Transition keccak256 s (.registry msg (.increaseStake amount)) []
      ⟨s.registry.increased msg.sender amount, token⟩
  | startUnbonding {msg}
    (hlive : (s.registry.validator msg.sender).operator ≠ 0)
    (hstays : (s.registry.validator msg.sender).unbondingStart = 0) :
    Transition keccak256 s (.registry msg .startUnbonding) []
      ⟨s.registry.unbonding msg.sender msg.block, s.token⟩
  | completeUnbonding {msg token}
    (hlive : (s.registry.validator msg.sender).operator ≠ 0)
    (hleaves : (s.registry.validator msg.sender).unbondingStart ≠ 0)
    (hstake : (s.registry.validator msg.sender).stake ≤ s.registry.totalStaked)
    (hpaid : T.transfer callee msg.sender (s.registry.validator msg.sender).stake s.token =
      .ok (true, token)) :
    Transition keccak256 s (.registry msg .completeUnbonding) []
      ⟨s.registry.removed keccak256 msg.sender, token⟩
  | processEpoch {msg registry epoch}
    (h : s.registry.pendingUpdates.foldlM (applyUpdate keccak256 msg.block) s.registry =
      .ok registry) :
    Transition keccak256 s (.registry msg .processEpoch) s.registry.pendingUpdates
      ⟨{ registry with
        pendingUpdates := []
        currentEpoch := epoch
        lastEpochBlock := msg.block }, s.token⟩
  | slash {msg operator amount}
    (hlive : (s.registry.validator operator).operator ≠ 0)
    (hstake : min amount (s.registry.validator operator).stake ≤ s.registry.totalStaked) :
    Transition keccak256 s (.registry msg (.slash operator amount)) []
      ⟨s.registry.slashed operator amount msg.block, s.token⟩
  | token {sender hne c token} (h : T.call sender c s.token = .ok token) :
    Transition keccak256 s (.token sender hne c) [] { s with token := token }

omit [DecidableEq Digest] in
theorem onRegistry_eq_ok {x : Solidity (ValidatorRegistry Digest)} {us : List ValidatorUpdate} :
    s.onRegistry x = .ok (us, s') ↔
      ∃ registry, x = .ok registry ∧ us = [] ∧ s' = ⟨registry, s.token⟩ := by
  unfold onRegistry
  simp only [bind_eq_ok, pure_eq_ok, Prod.mk.injEq]
  constructor
  · rintro ⟨registry, h, rfl, rfl⟩
    exact ⟨registry, h, rfl, rfl⟩
  · rintro ⟨registry, h, rfl, rfl⟩
    exact ⟨registry, h, rfl, rfl⟩

omit [DecidableEq Digest] in
theorem silent_eq_ok {x : Solidity (Staking T Digest)} {us : List ValidatorUpdate} :
    silent x = .ok (us, s') ↔ x = .ok s' ∧ us = [] := by
  unfold silent
  simp only [bind_eq_ok, pure_eq_ok, Prod.mk.injEq]
  constructor
  · rintro ⟨_, h, rfl, rfl⟩
    exact ⟨h, rfl⟩
  · rintro ⟨h, rfl⟩
    exact ⟨s', h, rfl, rfl⟩

variable {msg : Msg callee} {registry : ValidatorRegistry Digest}
variable {amount : Nat} {us : List ValidatorUpdate} {tx : Tx T callee}

theorem slash_eq_ok {operator : AccountAddress}
    (h : s.registry.slash msg operator amount = .ok registry) :
    Transition keccak256 s (.registry msg (.slash operator amount)) [] ⟨registry, s.token⟩ := by
  unfold slash at h
  simp only [bind_eq_ok, require_eq_ok, sub_eq_ok] at h
  obtain ⟨_, -, _, hlive, stake, ⟨-, hstake⟩, total, ⟨hle, htotal⟩, h⟩ := h
  have hcut : (if amount > (s.registry.validator operator).stake then
      (s.registry.validator operator).stake else amount) =
        min amount (s.registry.validator operator).stake := by
    split <;> omega
  rw [hcut] at hstake hle htotal
  have hslashed : registry = s.registry.slashed operator amount msg.block := by
    unfold slashed unbonding
    dsimp only
    rw [validator_restaked, if_pos rfl, hstake, htotal]
    split at h
    · rename_i hout
      rw [if_pos hout, ← pure_eq_ok.mp h]
      exact congrArg (fun r : ValidatorRegistry Digest => r.pushUpdate _ 0)
        (setValidator_setValidator (r := { s.registry with totalStaked := total })).symm
    · rename_i hout
      rw [if_neg hout, ← pure_eq_ok.mp h]
      rfl
  rw [hslashed]
  exact .slash hlive hle

theorem register_eq_ok {pubKey : List UInt8} {moniker : String}
    (h : s.register keccak256 msg pubKey moniker = .ok s') :
    Transition keccak256 s (.registry msg (.register pubKey moniker)) [] s' := by
  unfold register at h
  simp only [bind_eq_ok, require_eq_ok, pure_eq_ok] at h
  obtain ⟨_, -, _, -, _, hnew, _, hkey, _, -, ⟨paid, token⟩, hpaid, _, rfl, r, hr, rfl⟩ := h
  obtain ⟨-, rfl⟩ := registerValidator_eq_ok (g := ⟨msg.sender, pubKey, _, moniker⟩).mp hr
  exact .register hnew hkey hpaid

theorem increaseStake_eq_ok (h : s.increaseStake msg amount = .ok s') :
    Transition keccak256 s (.registry msg (.increaseStake amount)) [] s' := by
  unfold increaseStake at h
  simp only [bind_eq_ok, require_eq_ok, add_eq_ok] at h
  obtain ⟨_, -, _, hlive, _, hstays, ⟨paid, token⟩, hpaid, _, rfl, _, ⟨-, rfl⟩, _, ⟨-, rfl⟩, h⟩ := h
  have hincreased : s' = ⟨s.registry.increased msg.sender amount, token⟩ := by
    unfold increased
    dsimp only
    by_cases hpower : s.registry.computeVotingPower
        ((s.registry.validator msg.sender).stake + amount) =
          (s.registry.validator msg.sender).votingPower
    · rw [if_neg (not_not.mpr hpower)]
      obtain rfl := pure_eq_ok.mp ((if_neg (not_not.mpr hpower)).symm.trans h)
      unfold restaked withStake
      rw [hpower]
      rfl
    · rw [if_pos hpower]
      obtain rfl := pure_eq_ok.mp ((if_pos hpower).symm.trans h)
      rfl
  rw [hincreased]
  exact .increaseStake hlive hstays hpaid

theorem startUnbonding_eq_ok (h : s.startUnbonding msg = .ok s') :
    Transition keccak256 s (.registry msg .startUnbonding) [] s' := by
  unfold startUnbonding at h
  simp only [bind_eq_ok, require_eq_ok, pure_eq_ok] at h
  obtain ⟨_, -, _, hlive, _, hstays, rfl⟩ := h
  exact .startUnbonding hlive hstays

theorem completeUnbonding_eq_ok (h : s.completeUnbonding keccak256 msg = .ok s') :
    Transition keccak256 s (.registry msg .completeUnbonding) [] s' := by
  unfold completeUnbonding at h
  simp only [bind_eq_ok, require_eq_ok, add_eq_ok, sub_eq_ok] at h
  obtain ⟨_, -, _, hlive, _, hleaves, _, ⟨-, rfl⟩, _, -, _, ⟨hstake, rfl⟩, h⟩ := h
  have hinactive : ((s.registry.removed keccak256 msg.sender).validator msg.sender).active ≠
      true := by
    rw [validator_removed, if_pos rfl]
    decide
  obtain ⟨count, hcount, ⟨paid, token⟩, hpaid, _, rfl, h⟩ := h
  obtain rfl := pure_eq_ok.mp h
  have hkept : s.registry.activeValidatorCount = count :=
    Except.ok.inj ((if_neg hinactive).symm.trans hcount)
  subst hkept
  exact .completeUnbonding hlive hleaves hstake hpaid

/-- A setting that only the admin changes. -/
theorem transition_of_settings {c : Call} (hc : c.isSetting = true)
    (h : s.onRegistry (do s.registry.onlyAdmin msg return registry) = .ok (us, s'))
    (hset : SameSet s.registry registry) :
    Transition keccak256 s (.registry msg c) us s' := by
  obtain ⟨r, hr, rfl, rfl⟩ := onRegistry_eq_ok.mp h
  obtain ⟨_, -, hr⟩ := bind_eq_ok.mp hr
  obtain rfl := pure_eq_ok.mp hr
  exact .settings hc hset

/-- **Inversion.** What a transaction that returns does. -/
theorem transition_of_execute (h : s.execute keccak256 tx = .ok (us, s')) :
    Transition keccak256 s tx us s' := by
  cases tx with
  | token sender hne c =>
    unfold execute at h
    simp only [bind_eq_ok, pure_eq_ok, Prod.mk.injEq] at h
    obtain ⟨token, h, rfl, rfl⟩ := h
    exact .token h
  | registry msg c =>
    cases c with
    | initializeRegistry =>
      obtain ⟨r, hr, rfl, rfl⟩ := onRegistry_eq_ok.mp h
      unfold initializeRegistry at hr
      simp only [bind_eq_ok, pure_eq_ok] at hr
      obtain ⟨_, -, _, -, rfl⟩ := hr
      exact .settings rfl ⟨rfl, rfl, rfl, rfl, rfl, rfl⟩
    | approveValidator operator =>
      exact transition_of_settings rfl h ⟨rfl, rfl, rfl, rfl, rfl, rfl⟩
    | revokeValidator operator =>
      exact transition_of_settings rfl h ⟨rfl, rfl, rfl, rfl, rfl, rfl⟩
    | setPermissionedMode permissioned =>
      exact transition_of_settings rfl h ⟨rfl, rfl, rfl, rfl, rfl, rfl⟩
    | addGenesisValidators operators pubKeys stakes monikers =>
      obtain ⟨r, hr, rfl, rfl⟩ := onRegistry_eq_ok.mp h
      unfold addGenesisValidators at hr
      simp only [bind_eq_ok, require_eq_ok] at hr
      obtain ⟨_, -, _, hkeys, _, hstakes, _, hmonikers, hr⟩ := hr
      exact .genesis hkeys hstakes hmonikers hr
    | updateParams => exact transition_of_settings rfl h ⟨rfl, rfl, rfl, rfl, rfl, rfl⟩
    | renounceAdmin => exact transition_of_settings rfl h ⟨rfl, rfl, rfl, rfl, rfl, rfl⟩
    | register pubKey moniker =>
      obtain ⟨hs, rfl⟩ := silent_eq_ok.mp h
      exact register_eq_ok hs
    | increaseStake amount =>
      obtain ⟨hs, rfl⟩ := silent_eq_ok.mp h
      exact increaseStake_eq_ok hs
    | startUnbonding =>
      obtain ⟨hs, rfl⟩ := silent_eq_ok.mp h
      exact startUnbonding_eq_ok hs
    | completeUnbonding =>
      obtain ⟨hs, rfl⟩ := silent_eq_ok.mp h
      exact completeUnbonding_eq_ok hs
    | processEpoch =>
      obtain ⟨⟨updates, registry⟩, hr, h⟩ := bind_eq_ok.mp h
      obtain ⟨rfl, rfl⟩ := Prod.mk.inj (pure_eq_ok.mp h)
      unfold processEpoch at hr
      simp only [bind_eq_ok, pure_eq_ok, Prod.mk.injEq] at hr
      obtain ⟨_, -, _, -, _, -, r, hr, _, -, rfl, rfl⟩ := hr
      exact .processEpoch hr
    | slash operator amount =>
      obtain ⟨r, hr, rfl, rfl⟩ := onRegistry_eq_ok.mp h
      exact slash_eq_ok hr

theorem step_eq_ok :
    s.step keccak256 tx = .ok s' ↔ ∃ us, s.execute keccak256 tx = .ok (us, s') := by
  unfold step
  simp only [toExec_eq_ok, bind_eq_ok, pure_eq_ok]
  constructor
  · rintro ⟨⟨us, s'⟩, h, rfl⟩
    exact ⟨us, h⟩
  · rintro ⟨us, h⟩
    exact ⟨(us, s'), h, rfl⟩

end Staking

end Hypercore.Contracts
