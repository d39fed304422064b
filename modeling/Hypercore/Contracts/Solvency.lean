import Hypercore.Contracts.Membership
/-!
# Hypercore.Contracts.Solvency

The stakes, the total and the tokens that the registry holds.

`addGenesisValidators` records stakes that nobody pays in, and writes over a record with the
stake that it has. Where the tokens were sent before and nothing is written over, the total is
the sum of all stakes, and every validator that leaves is paid.
-/

namespace Hypercore.Contracts

open Solidity Std

namespace ValidatorRegistry

variable {Digest : Type} {r r' : ValidatorRegistry Digest} {a : AccountAddress}

/-- The sum of the stakes of all records. -/
def staked (r : ValidatorRegistry Digest) : Int :=
  FinMap.total (fun _ v => (v.stake : Int)) r.validators

/-- The total is the sum of the stakes, and blank records have none. -/
structure Summed (r : ValidatorRegistry Digest) : Prop where
  total : r.totalStaked = r.staked
  blank : ∀ a, a ≠ 0 → (r.validator a).operator = 0 → (r.validator a).stake = 0

theorem weight_stake :
    FinMap.weight (fun _ v => (v.stake : Int)) r.validators a = (r.validator a).stake := by
  unfold FinMap.weight validator
  cases r.validators[a]? <;> rfl

theorem staked_setValidator {v : Validator} :
    (r.setValidator a v).staked = r.staked - (r.validator a).stake + v.stake := by
  unfold staked setValidator
  rw [FinMap.total_insert, weight_stake]

theorem stake_le_staked : ((r.validator a).stake : Int) ≤ r.staked := by
  rw [← weight_stake]
  exact FinMap.weight_le_total fun _ _ => Int.natCast_nonneg _

theorem totalStaked_increased {amount : Nat} :
    (r.increased a amount).totalStaked = r.totalStaked + amount := by
  unfold increased
  dsimp only
  split <;> rfl

theorem totalStaked_slashed {amount block : Nat} :
    (r.slashed a amount block).totalStaked ≤ r.totalStaked := by
  unfold slashed
  dsimp only
  split <;> exact Nat.sub_le ..

namespace Summed

theorem congr (h : r.Summed) (hvalidators : r'.validators = r.validators)
    (htotal : r'.totalStaked = r.totalStaked) : r'.Summed where
  total := by
    unfold staked
    rw [htotal, hvalidators]
    exact h.total
  blank b hb := by
    rw [validator_of_eq hvalidators]
    exact h.blank b hb

theorem deployed (deployer : AccountAddress) :
    (ValidatorRegistry.deployed deployer : ValidatorRegistry Digest).Summed where
  total := FinMap.total_empty _ |>.symm
  blank _ _ _ := rfl

/-- One record and the total move together. -/
theorem write {v : Validator} (h : r.Summed) (hvalidators : r'.validators = r.validators.insert a v)
    (htotal : (r'.totalStaked : Int) = r.totalStaked - (r.validator a).stake + v.stake)
    (hblank : a ≠ 0 → v.operator = 0 → v.stake = 0) : r'.Summed where
  total := by
    have hstaked : r'.staked = (r.setValidator a v).staked := by
      unfold staked
      rw [hvalidators]
      rfl
    rw [htotal, hstaked, staked_setValidator, h.total]
  blank b hb := by
    rw [validator_of_eq (r := r.setValidator a v) hvalidators, validator_setValidator]
    split
    · rename_i hab
      exact hblank (hab ▸ hb)
    · exact h.blank b hb

theorem restaked {stake total : Nat} (h : r.Summed) (hlive : (r.validator a).operator ≠ 0)
    (htotal : (total : Int) = r.totalStaked - (r.validator a).stake + stake) :
    (r.restaked a stake total).Summed :=
  h.write rfl htotal fun _ hoperator => absurd hoperator hlive

theorem pushUpdate {pubKey : List UInt8} {power : Int} (h : r.Summed) :
    (r.pushUpdate pubKey power).Summed :=
  h.congr rfl rfl

variable {block amount : Nat} {g : Genesis}

theorem unbonding (h : r.Summed) (hlive : (r.validator a).operator ≠ 0) :
    (r.unbonding a block).Summed := by
  refine h.write rfl ?_ fun _ hoperator => absurd hoperator hlive
  show (r.totalStaked : Int) = r.totalStaked - (r.validator a).stake + (r.validator a).stake
  omega

theorem increased (h : r.Summed) (hlive : (r.validator a).operator ≠ 0) :
    (r.increased a amount).Summed := by
  have hrestaked :
      (r.restaked a ((r.validator a).stake + amount) (r.totalStaked + amount)).Summed :=
    h.restaked hlive (by omega)
  unfold ValidatorRegistry.increased
  dsimp only
  split
  · exact hrestaked.pushUpdate
  · exact hrestaked

theorem slashed (h : r.Summed) (hlive : (r.validator a).operator ≠ 0) :
    (r.slashed a amount block).Summed := by
  have hle : ((r.validator a).stake : Int) ≤ r.totalStaked := h.total ▸ stake_le_staked
  unfold ValidatorRegistry.slashed
  dsimp only
  have hrestaked : (r.restaked a ((r.validator a).stake - min amount (r.validator a).stake)
      (r.totalStaked - min amount (r.validator a).stake)).Summed := h.restaked hlive (by omega)
  split
  · refine hrestaked.unbonding ?_
    rw [validator_restaked, if_pos rfl]
    exact hlive
  · exact hrestaked

theorem flipped {active : Bool} {since count : Nat} (h : r.Summed) :
    (r.flipped a active since count).Summed := by
  refine h.write rfl ?_ (h.blank a)
  show (r.totalStaked : Int) = r.totalStaked - (r.validator a).stake + (r.validator a).stake
  omega

variable [DecidableEq Digest] {keccak256 : List UInt8 → Digest}

/-- A record is written where no stake is. -/
theorem recorded (h : r.Summed) (hfree : (r.validator g.operator).stake = 0) :
    (r.recorded keccak256 g).Summed := by
  refine h.write rfl ?_ fun hne hoperator => absurd hoperator hne
  show ((r.totalStaked + g.stake : Nat) : Int) =
    r.totalStaked - (r.validator g.operator).stake + g.stake
  omega

theorem activated (h : r.Summed) (hfree : (r.validator g.operator).stake = 0) :
    (r.activated keccak256 block g).Summed := by
  have hrecorded : (r.recorded keccak256 g).Summed := h.recorded hfree
  refine hrecorded.write (a := g.operator) rfl ?_ fun hne hoperator => absurd hoperator hne
  rw [validator_recorded, if_pos rfl]
  show ((r.totalStaked + g.stake : Nat) : Int) =
    (r.totalStaked + g.stake : Nat) - g.stake + g.stake
  omega

theorem removed (h : r.Summed) : (r.removed keccak256 a).Summed where
  total := by
    have hle : ((r.validator a).stake : Int) ≤ r.staked := stake_le_staked
    have hstaked : (r.removed keccak256 a).staked = r.staked - (r.validator a).stake := by
      rw [← weight_stake]
      exact FinMap.total_erase _ _ _
    have htotal : (r.removed keccak256 a).totalStaked =
      r.totalStaked - (r.validator a).stake := rfl
    have hsum := h.total
    rw [hstaked, htotal]
    omega
  blank b hb := by
    rw [validator_removed]
    split
    · exact fun _ => rfl
    · exact h.blank b hb

/-- **Genesis.** No stake is written over. -/
theorem genesis {es : List Genesis} (h : r.Summed)
    (hpairs : es.Pairwise fun e e' => e.operator = e'.operator → e.stake = 0)
    (hfree : ∀ e ∈ es, (r.validator e.operator).stake = 0)
    (hrun : es.foldlM (addGenesisValidator keccak256 block) r = .ok r') :
    r'.Summed ∧ r'.totalStaked = r.totalStaked + (es.map (·.stake)).sum := by
  induction es generalizing r with
  | nil =>
    obtain rfl := pure_eq_ok.mp hrun
    exact ⟨h, rfl⟩
  | cons e es ih =>
    obtain ⟨hhead, hpairs⟩ := List.pairwise_cons.mp hpairs
    obtain ⟨r₁, hr₁, hrun⟩ := bind_eq_ok.mp ((List.foldlM_cons ..).symm.trans hrun)
    obtain ⟨-, -, rfl⟩ := addGenesisValidator_eq_ok.mp hr₁
    obtain ⟨hsummed, htotal⟩ := ih (h.activated (hfree e (.head _))) hpairs (fun e' he' => by
      rw [validator_activated]
      split
      · rename_i hsame
        exact hhead e' he' hsame
      · exact hfree e' (.tail _ he')) hrun
    refine ⟨hsummed, htotal.trans ?_⟩
    show r.totalStaked + e.stake + _ = _
    rw [List.map_cons, List.sum_cons, Nat.add_assoc]

omit [DecidableEq Digest] in
/-- Updates do not touch stakes. -/
theorem applyUpdates {block : Nat} {us : List ValidatorUpdate} (h : r.Summed)
    (hrun : us.foldlM (applyUpdate keccak256 block) r = .ok r') :
    r'.Summed ∧ r'.totalStaked = r.totalStaked := by
  induction us generalizing r with
  | nil =>
    obtain rfl := pure_eq_ok.mp hrun
    exact ⟨h, rfl⟩
  | cons u us ih =>
    obtain ⟨r₁, hr₁, hrest⟩ := bind_eq_ok.mp ((List.foldlM_cons ..).symm.trans hrun)
    obtain ⟨h0, since, count, rfl, hcount⟩ | ⟨-, rfl⟩ := applyUpdate_eq_ok hr₁
    · obtain ⟨hsummed, htotal⟩ := ih h.flipped hrest
      exact ⟨hsummed, htotal⟩
    · exact ih h hrest

end Summed

end ValidatorRegistry

open ValidatorRegistry

namespace Staking

variable {T : Erc20} {Digest : Type} [DecidableEq Digest] {keccak256 : List UInt8 → Digest}
  {callee deployer : AccountAddress} {s s' : Staking T Digest}

/-- The total is the sum of all stakes, and the registry holds that many tokens. -/
def Solvent (callee : AccountAddress) (s : Staking T Digest) : Prop :=
  s.registry.totalStaked = s.registry.staked ∧
    s.registry.staked ≤ T.balanceOf s.token callee

/-- Whoever has unbonded for the whole period gets the whole stake. -/
def PaysOut (keccak256 : List UInt8 → Digest) (callee : AccountAddress) (s : Staking T Digest) :
    Prop :=
  ∀ msg : Msg callee, s.registry.initialized = true →
    (s.registry.validator msg.sender).operator ≠ 0 →
    (s.registry.validator msg.sender).unbondingStart ≠ 0 →
    (s.registry.validator msg.sender).unbondingStart + s.registry.unbondingPeriod ≤ msg.block →
    ∃ s' : Staking T Digest, s.completeUnbonding keccak256 msg = .ok s' ∧
      T.Moved s.token s'.token callee msg.sender (s.registry.validator msg.sender).stake

/-- The tokens of genesis validators are there before they are added, and none of them is
added over a stake. -/
def Backed (s : Staking T Digest) : Tx T callee → Prop
  | .registry _ (.addGenesisValidators operators pubKeys stakes monikers) =>
    (∀ a ∈ operators, (s.registry.validator a).stake = 0) ∧
    (genesisEntries operators pubKeys stakes monikers).Pairwise
      (fun e e' => e.operator = e'.operator → e.stake = 0) ∧
    s.registry.totalStaked + stakes.sum ≤ T.balanceOf s.token callee
  | _ => True

/-- What runs keep. -/
structure Covered (callee : AccountAddress) (s : Staking T Digest) : Prop where
  summed : s.registry.Summed
  guarded : T.Guarded s.token callee
  backed : s.registry.totalStaked ≤ T.balanceOf s.token callee

/-- **Step lemma.** -/
theorem Transition.covered {tx : Tx T callee} {us : List ValidatorUpdate}
    (hT : T.Standard callee) (htx : Transition keccak256 s tx us s') (h : s.Covered callee)
    (hbacked : s.Backed tx) : s'.Covered callee := by
  cases htx with
  | settings hc hset =>
    refine ⟨h.summed.congr hset.validators hset.totalStaked, h.guarded, ?_⟩
    rw [hset.totalStaked]
    exact h.backed
  | @genesis msg operators pubKeys stakes monikers registry hkeys hstakes hmonikers hrun =>
    obtain ⟨hfree, hpairs, hfunds⟩ := hbacked
    have hoperators := operators_genesisEntries hkeys hstakes hmonikers
    obtain ⟨hsummed, htotal⟩ := h.summed.genesis hpairs
      (fun e he => hfree _ (hoperators ▸ List.mem_map_of_mem he)) hrun
    refine ⟨hsummed, h.guarded, ?_⟩
    rw [htotal, stakes_genesisEntries hkeys hstakes hmonikers]
    exact hfunds
  | @register msg pubKey moniker token hnew hkey hpaid =>
    obtain ⟨⟨-, hmoved⟩, hguarded⟩ := hT.transferFrom_moves h.guarded msg.sender_ne_self hpaid
    have hfree := h.summed.blank msg.sender msg.sender_ne_zero hnew
    refine ⟨(h.summed.recorded (g := ⟨msg.sender, pubKey, s.registry.minStake, moniker⟩)
      hfree).pushUpdate, hguarded, ?_⟩
    have hbalance := hmoved callee
    rw [if_neg msg.sender_ne_self.symm, if_pos rfl] at hbalance
    show s.registry.totalStaked + s.registry.minStake ≤ _
    rw [hbalance]
    exact Nat.add_le_add_right h.backed _
  | @increaseStake msg amount token hlive hstays hpaid =>
    obtain ⟨⟨-, hmoved⟩, hguarded⟩ := hT.transferFrom_moves h.guarded msg.sender_ne_self hpaid
    refine ⟨h.summed.increased hlive, hguarded, ?_⟩
    have hbalance := hmoved callee
    rw [if_neg msg.sender_ne_self.symm, if_pos rfl] at hbalance
    rw [hbalance, totalStaked_increased]
    exact Nat.add_le_add_right h.backed _
  | startUnbonding hlive hstays => exact ⟨h.summed.unbonding hlive, h.guarded, h.backed⟩
  | @completeUnbonding msg token hlive hleaves hstake hpaid =>
    obtain ⟨⟨-, hmoved⟩, hguarded⟩ := hT.transfer_moves h.guarded hpaid
    refine ⟨h.summed.removed, hguarded, ?_⟩
    have hbalance := hmoved callee
    rw [if_pos rfl, if_neg msg.sender_ne_self.symm] at hbalance
    show s.registry.totalStaked - (s.registry.validator msg.sender).stake ≤ _
    rw [hbalance]
    exact Nat.sub_le_sub_right h.backed _
  | processEpoch hrun =>
    obtain ⟨hsummed, htotal⟩ := h.summed.applyUpdates hrun
    exact ⟨hsummed.congr rfl rfl, h.guarded, htotal.trans_le h.backed⟩
  | slash hlive hstake =>
    exact ⟨h.summed.slashed hlive, h.guarded, totalStaked_slashed.trans h.backed⟩
  | @token sender hne c token hcall => 
    obtain ⟨hle, hguarded⟩ := hT.call_keeps h.guarded hne hcall
    exact ⟨h.summed, hguarded, h.backed.trans hle⟩

omit [DecidableEq Digest] in
theorem Covered.solvent (h : s.Covered callee) : s.Solvent callee :=
  ⟨h.summed.total, h.summed.total ▸ Int.ofNat_le.mpr h.backed⟩

/-- A covered registry pays. -/
theorem Covered.paysOut (hT : T.Standard callee) (h : s.Covered callee) :
    s.PaysOut keccak256 callee := by
  intro msg hinitialized hlive hleaves hdue
  have hstake : (s.registry.validator msg.sender).stake ≤ s.registry.totalStaked := by
    have hle : ((s.registry.validator msg.sender).stake : Int) ≤ s.registry.staked :=
      stake_le_staked
    rw [← h.summed.total] at hle
    exact Int.ofNat_le.mp hle
  obtain ⟨token, hpaid⟩ := hT.transfer_covered h.guarded.1
    msg.sender_ne_zero (hstake.trans h.backed)
  have hinactive : ((s.registry.removed keccak256 msg.sender).validator msg.sender).active ≠
      true := by
    rw [validator_removed, if_pos rfl]
    decide
  have hfits := msg.block_lt
  refine ⟨⟨s.registry.removed keccak256 msg.sender, token⟩, ?_,
    (hT.transfer_moves h.guarded hpaid).1⟩
  unfold completeUnbonding onlyInitialized
  dsimp only
  rw [require_pos hinitialized, ok_bind, require_pos hlive, ok_bind, require_pos hleaves, ok_bind,
    add_eq_ok.mpr ⟨by omega, rfl⟩, ok_bind, require_pos hdue, ok_bind,
    sub_eq_ok.mpr ⟨hstake, rfl⟩, ok_bind]
  refine (congrArg (· >>= _) (if_neg hinactive)).trans ?_
  rw [ok_bind, hpaid]
  rfl

/-- **Solvency.** With a standard token, in every run in which genesis stakes are backed, the
total is the sum of the stakes, the registry holds that much, and whoever has unbonded is paid.
`Covered` is the invariant, and what leaves the total is paid from what the registry holds. -/
theorem solvent_of_backed_run {start : Staking T Digest} (hT : T.Standard callee)
    (hdeployed : start.registry = .deployed deployer) (hguarded : T.Guarded start.token callee)
    (hrun : Run.Reaches (fun (tx : Tx T callee) s => s.step keccak256 tx) Backed start s) :
    s.Solvent callee ∧ s.PaysOut keccak256 callee := by
  have hcovered : s.Covered callee := by
    refine hrun.invariant (P := fun s => s.Covered callee) ?_ ?_
    · refine ⟨hdeployed ▸ .deployed deployer, hguarded, ?_⟩
      rw [hdeployed]
      exact Nat.zero_le _
    · intro s tx s' h hbacked hstep
      obtain ⟨us, hexecute⟩ := step_eq_ok.mp hstep
      exact (transition_of_execute hexecute).covered hT h hbacked
  exact ⟨hcovered.solvent, hcovered.paysOut hT⟩

theorem sampleStart_guarded : sampleToken.Guarded sampleStart.token registryAddress :=
  ⟨⟨by decide +kernel, by decide⟩, fun spender =>
    if_neg (c := (registryAddress = 2 ∨ registryAddress = 3) ∧ spender = registryAddress)
      (t := 1000) fun h => absurd h.1 (by decide)⟩

instance (s : Staking sampleToken (List UInt8)) (tx : Tx sampleToken registryAddress) :
    Decidable (s.Backed tx) := by
  unfold Backed
  split <;> infer_instance

/-- Two validators join with 100 each, and the first of them leaves. -/
theorem solvent_joinAndLeave : ∃ s, sampleRun Backed joinAndLeave = .ok s ∧
    s.Solvent registryAddress ∧ s.PaysOut id registryAddress := by
  obtain ⟨s, hs, -⟩ := Exec.exists_of_test (x := sampleRun Backed joinAndLeave)
    (p := fun _ => true) (by decide +kernel)
  exact ⟨s, hs, solvent_of_backed_run (SpotToken.standard (by decide)) rfl sampleStart_guarded
    (sampleRun_reaches hs)⟩

/-- The validator 2 calls in block 8. -/
def lateMsg : Msg registryAddress where
  sender := 2
  block := 8
  block_lt := by decide
  sender_ne_zero := by decide
  sender_ne_self := by decide

/-- A genesis validator with a stake of 100 that nobody paid in cannot be paid. -/
theorem solvency_broken : ∃ s,
    Run.Reaches (fun (tx : Tx sampleToken registryAddress) s => s.step id tx)
      (fun _ _ => True) sampleStart s ∧
    ¬ s.Solvent registryAddress ∧ ¬ s.PaysOut id registryAddress := by
  obtain ⟨s, hs, ht⟩ := Exec.exists_of_test
    (x := sampleRun (fun _ _ => True) [
      callBy 1 1 (.initializeRegistry 100 500 10 5 10),
      callBy 1 2 (.addGenesisValidators [2] [List.replicate 32 2] [100] ["two"]),
      callBy 2 3 .startUnbonding])
    (p := fun s => s.registry.staked = 100 ∧ SpotToken.balanceOf s.token registryAddress = 0 ∧
      s.registry.initialized = true ∧ (s.registry.validator 2).operator ≠ 0 ∧
      (s.registry.validator 2).unbondingStart = 3 ∧ s.registry.unbondingPeriod = 5 ∧
      (s.completeUnbonding id lateMsg).toOption.isNone) (by decide +kernel)
  obtain ⟨hstaked, hbalance, hinitialized, hlive, hstart, hperiod, hreverts⟩ :=
    of_decide_eq_true ht
  refine ⟨s, sampleRun_reaches hs, fun hsolvent => ?_, fun hpays => ?_⟩
  · have hheld := hsolvent.2
    change s.registry.staked ≤ (SpotToken.balanceOf s.token registryAddress : Nat) at hheld
    rw [hstaked, hbalance] at hheld
    exact absurd hheld (by decide)
  · obtain ⟨s', hs', -⟩ := hpays lateMsg hinitialized hlive
      (fun h0 => absurd (hstart.symm.trans h0) (by decide)) (by
        change (s.registry.validator 2).unbondingStart + s.registry.unbondingPeriod ≤ 8
        rw [hstart, hperiod])
    rw [hs'] at hreverts
    cases hreverts

end Staking

end Hypercore.Contracts
