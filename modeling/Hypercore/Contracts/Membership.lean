import Hypercore.Contracts.SpotToken
import Hypercore.Contracts.Transition
import Hypercore.Lib.Run
import Mathlib.Data.Set.Card
/-!
# Hypercore.Contracts.Membership

Which validators are active, as the record, the list and the counter say it.

A validator that left stays in `validatorList`, so one that comes back is listed twice; and
`completeUnbonding` asks the deleted record whether it was active, so it never counts a
validator out. In runs that do neither, the views list exactly the active validators.
-/

namespace Hypercore.Contracts

open Solidity Std

/-- Changing a predicate at one entry of a list without repetitions. -/
theorem countP_change {α : Type} [DecidableEq α] {l : List α} {a : α} {f g : α → Bool}
    (hnodup : l.Nodup) (ha : a ∈ l) (hne : ∀ b, b ≠ a → f b = g b) :
    l.countP g + (f a).toNat = l.countP f + (g a).toNat := by
  have hperm := List.perm_cons_erase ha
  have hrest : (l.erase a).countP f = (l.erase a).countP g := by
    refine List.countP_congr fun b hb => ?_
    rw [hne b (hnodup.mem_erase_iff.mp hb).1]
  rw [hperm.countP_eq f, hperm.countP_eq g, List.countP_cons, List.countP_cons, hrest]
  cases f a <;> cases g a <;> simp

namespace ValidatorRegistry

variable {Digest : Type} [DecidableEq Digest] {keccak256 : List UInt8 → Digest}
  {r r' : ValidatorRegistry Digest} {a : AccountAddress}

/-- The counter is the number of active records, and the view returns each of them once, with
its key and its power. -/
def Membership (r : ValidatorRegistry Digest) : Prop :=
  let operators := r.getActiveValidators.1
  r.activeValidatorCount = {a | (r.validator a).active = true}.ncard ∧ operators.Nodup ∧
  (∀ a, a ∈ operators ↔ (r.validator a).active = true) ∧
  r.getActiveValidators.2.1 = operators.map (fun a => (r.validator a).pubKey) ∧
  r.getActiveValidators.2.2 = operators.map (fun a => (r.validator a).votingPower)

/-- A record is blank or its owner's own and listed once; keys lead to the records that have
them; and the counter counts the active entries of the list. -/
structure Listed (keccak256 : List UInt8 → Digest) (r : ValidatorRegistry Digest) : Prop where
  nodup : r.validatorList.Nodup
  own : ∀ a, (r.validator a).operator = 0 ∧ (r.validator a).active = false ∨
    (r.validator a).operator = a ∧ a ∈ r.validatorList
  keyed : ∀ h, r.pubKeyToOperator h ≠ 0 →
    (r.validator (r.pubKeyToOperator h)).operator ≠ 0 ∧
      keccak256 (r.validator (r.pubKeyToOperator h)).pubKey = h
  count : r.activeValidatorCount = r.validatorList.countP fun a => (r.validator a).active

namespace Listed

omit [DecidableEq Digest] in
theorem listed_of_live (h : r.Listed keccak256) (hlive : (r.validator a).operator ≠ 0) :
    a ∈ r.validatorList :=
  ((h.own a).resolve_left fun hblank => hlive hblank.1).2

omit [DecidableEq Digest] in
theorem own_of_active (h : r.Listed keccak256) (hactive : (r.validator a).active = true) :
    (r.validator a).operator = a ∧ a ∈ r.validatorList :=
  (h.own a).resolve_left fun hblank => by simp [hactive] at hblank

omit [DecidableEq Digest] in
theorem deployed (deployer : AccountAddress) :
    (ValidatorRegistry.deployed deployer : ValidatorRegistry Digest).Listed keccak256 where
  nodup := .nil
  own _ := .inl ⟨rfl, rfl⟩
  keyed _ h := absurd rfl h
  count := rfl

omit [DecidableEq Digest] in
/-- Only owners, keys and activity matter. -/
theorem congr (h : r.Listed keccak256) (hlist : r'.validatorList = r.validatorList)
    (hkeys : r'.pubKeyToOperator = r.pubKeyToOperator)
    (hcount : r'.activeValidatorCount = r.activeValidatorCount)
    (hval : ∀ b, (r'.validator b).operator = (r.validator b).operator ∧
      (r'.validator b).pubKey = (r.validator b).pubKey ∧
      (r'.validator b).active = (r.validator b).active) : r'.Listed keccak256 where
  nodup := hlist ▸ h.nodup
  own a := by
    rw [(hval a).1, (hval a).2.2, hlist]
    exact h.own a
  keyed d hd := by
    rw [hkeys] at hd ⊢
    rw [(hval _).1, (hval _).2.1]
    exact h.keyed d hd
  count := by
    rw [hcount, hlist, h.count]
    exact List.countP_congr fun b _ => by rw [(hval b).2.2]

omit [DecidableEq Digest] in
theorem restaked {stake total : Nat} (h : r.Listed keccak256) :
    (r.restaked a stake total).Listed keccak256 := by
  refine h.congr rfl rfl rfl fun b => ?_
  rw [validator_restaked]
  split
  · rename_i hab
    rw [hab]
    exact ⟨rfl, rfl, rfl⟩
  · exact ⟨rfl, rfl, rfl⟩

omit [DecidableEq Digest] in
theorem unbonding {block : Nat} (h : r.Listed keccak256) :
    (r.unbonding a block).Listed keccak256 := by
  refine h.congr rfl rfl rfl fun b => ?_
  rw [validator_unbonding]
  split
  · rename_i hab
    rw [hab]
    exact ⟨rfl, rfl, rfl⟩
  · exact ⟨rfl, rfl, rfl⟩

omit [DecidableEq Digest] in
theorem pushUpdate {pubKey : List UInt8} {power : Int} (h : r.Listed keccak256) :
    (r.pushUpdate pubKey power).Listed keccak256 :=
  h.congr rfl rfl rfl fun _ => ⟨rfl, rfl, rfl⟩

omit [DecidableEq Digest] in
theorem increased {amount : Nat} (h : r.Listed keccak256) :
    (r.increased a amount).Listed keccak256 := by
  unfold ValidatorRegistry.increased
  dsimp only
  split
  · exact h.restaked.pushUpdate
  · exact h.restaked

omit [DecidableEq Digest] in
theorem slashed {amount block : Nat} (h : r.Listed keccak256) :
    (r.slashed a amount block).Listed keccak256 := by
  unfold ValidatorRegistry.slashed
  dsimp only
  split
  · exact h.restaked.unbonding
  · exact h.restaked

/-- A validator that was never listed enters. -/
theorem enter {v : Validator} (h : r.Listed keccak256) (hnew : a ∉ r.validatorList)
    (hown : v.operator = a) (hlist : r'.validatorList = r.validatorList ++ [a])
    (hkeys : r'.pubKeyToOperator = Function.update r.pubKeyToOperator (keccak256 v.pubKey) a)
    (hval : ∀ b, r'.validator b = if a = b then v else r.validator b)
    (hcount : r'.activeValidatorCount = r.activeValidatorCount + v.active.toNat) :
    r'.Listed keccak256 where
  nodup := by
    rw [hlist]
    exact h.nodup.append (List.nodup_singleton a) (List.disjoint_singleton.mpr hnew)
  own b := by
    rw [hval, hlist, List.mem_append, List.mem_singleton]
    split
    · rename_i hab
      exact .inr ⟨hown.trans hab, .inr hab.symm⟩
    · exact (h.own b).imp_right fun hb => ⟨hb.1, .inl hb.2⟩
  keyed d hd := by
    rw [hkeys] at hd ⊢
    by_cases hk : d = keccak256 v.pubKey
    · rw [hk, Function.update_self] at hd ⊢
      rw [hval, if_pos rfl, hown]
      exact ⟨hd, rfl⟩
    · rw [Function.update_of_ne hk] at hd ⊢
      have hlive := h.keyed d hd
      have hne : a ≠ r.pubKeyToOperator d := by
        rintro rfl
        exact hnew (h.listed_of_live hlive.1)
      rw [hval, if_neg hne]
      exact hlive
  count := by
    have hrest : r.validatorList.countP (fun b => (r'.validator b).active) =
        r.validatorList.countP fun b => (r.validator b).active := by
      refine List.countP_congr fun b hb => ?_
      have hne : a ≠ b := by
        rintro rfl
        exact hnew hb
      rw [hval, if_neg hne]
    rw [hcount, hlist, List.countP_append, hrest, ← h.count, List.countP_singleton, hval,
      if_pos rfl]
    cases v.active <;> rfl

theorem recorded {g : Genesis} (h : r.Listed keccak256) (hnew : g.operator ∉ r.validatorList) :
    (r.recorded keccak256 g).Listed keccak256 :=
  h.enter hnew (v := r.newValidator g) rfl rfl rfl (fun _ => validator_recorded) rfl

theorem activated {g : Genesis} {block : Nat} (h : r.Listed keccak256)
    (hnew : g.operator ∉ r.validatorList) :
    (r.activated keccak256 block g).Listed keccak256 :=
  h.enter hnew (v := r.genesisValidator block g) rfl rfl rfl (fun _ => validator_activated) rfl

/-- **Genesis.** Different operators that were never listed. -/
theorem genesis {block : Nat} {es : List Genesis} (h : r.Listed keccak256)
    (hnodup : (es.map (·.operator)).Nodup) (hnew : ∀ e ∈ es, e.operator ∉ r.validatorList)
    (hrun : es.foldlM (addGenesisValidator keccak256 block) r = .ok r') : r'.Listed keccak256 := by
  induction es generalizing r with
  | nil =>
    obtain rfl := pure_eq_ok.mp hrun
    exact h
  | cons e es ih =>
    obtain ⟨hhead, hnodup⟩ := List.nodup_cons.mp hnodup
    obtain ⟨r₁, hr₁, hrun⟩ := bind_eq_ok.mp ((List.foldlM_cons ..).symm.trans hrun)
    obtain ⟨-, -, rfl⟩ := addGenesisValidator_eq_ok.mp hr₁
    refine ih (h.activated (hnew e (.head _))) hnodup (fun e' he' hmem => ?_) hrun
    rcases List.mem_append.mp hmem with hmem | hmem
    · exact hnew e' (.tail _ he') hmem
    · exact hhead (List.mem_map.mpr ⟨e', he', List.mem_singleton.mp hmem⟩)

/-- A validator that is not active leaves. -/
theorem removed (h : r.Listed keccak256) (hinactive : (r.validator a).active = false) :
    (r.removed keccak256 a).Listed keccak256 where
  nodup := h.nodup
  own b := by
    rw [validator_removed]
    split
    · exact .inl ⟨rfl, rfl⟩
    · exact h.own b
  keyed d hd := by
    have hkeys : (r.removed keccak256 a).pubKeyToOperator =
        Function.update r.pubKeyToOperator (keccak256 (r.validator a).pubKey) 0 := rfl
    rw [hkeys] at hd ⊢
    by_cases hk : d = keccak256 (r.validator a).pubKey
    · rw [hk, Function.update_self] at hd
      exact absurd rfl hd
    · rw [Function.update_of_ne hk] at hd ⊢
      have hlive := h.keyed d hd
      have hne : a ≠ r.pubKeyToOperator d := by
        rintro rfl
        exact hk hlive.2.symm
      rw [validator_removed, if_neg hne]
      exact hlive
  count := by
    refine h.count.trans (List.countP_congr fun b _ => ?_)
    rw [validator_removed]
    split
    · rename_i hab
      rw [← hab, hinactive]
      decide
    · rfl

omit [DecidableEq Digest] in
/-- A listed validator is switched on or off, and counted. -/
theorem flipped {active : Bool} {since count : Nat} (h : r.Listed keccak256)
    (hlive : (r.validator a).operator ≠ 0)
    (hcount : count + (r.validator a).active.toNat = r.activeValidatorCount + active.toNat) :
    (r.flipped a active since count).Listed keccak256 where
  nodup := h.nodup
  own b := by
    rw [validator_flipped]
    split
    · rename_i hab
      exact hab ▸ .inr ((h.own a).resolve_left fun hblank => hlive hblank.1)
    · exact h.own b
  keyed d hd := by
    have hkeyed := h.keyed d hd
    show ((r.flipped a active since count).validator (r.pubKeyToOperator d)).operator ≠ 0 ∧
      keccak256 ((r.flipped a active since count).validator (r.pubKeyToOperator d)).pubKey = d
    rw [validator_flipped]
    split
    · rename_i hab
      rw [hab]
      exact hkeyed
    · exact hkeyed
  count := by
    have hchange := countP_change (f := fun b => (r.validator b).active)
      (g := fun b => ((r.flipped a active since count).validator b).active) h.nodup
      (h.listed_of_live hlive) fun b hb => by rw [validator_flipped, if_neg (Ne.symm hb)]
    rw [← h.count, validator_flipped, if_pos rfl] at hchange
    exact Nat.add_right_cancel (hcount.trans hchange.symm)

omit [DecidableEq Digest] in
theorem applyUpdates {block : Nat} {us : List ValidatorUpdate} (h : r.Listed keccak256)
    (hrun : us.foldlM (applyUpdate keccak256 block) r = .ok r') : r'.Listed keccak256 := by
  induction us generalizing r with
  | nil =>
    obtain rfl := pure_eq_ok.mp hrun
    exact h
  | cons u us ih =>
    obtain ⟨r₁, hr₁, hrun⟩ := bind_eq_ok.mp ((List.foldlM_cons ..).symm.trans hrun)
    refine ih ?_ hrun
    obtain ⟨h0, since, count, rfl, hcount⟩ | ⟨-, rfl⟩ := applyUpdate_eq_ok hr₁
    · exact h.flipped (h.keyed _ h0).1 hcount
    · exact h

end Listed

/-! ### The view -/

omit [DecidableEq Digest] in
/-- The view's loop takes the first active validators of the list. -/
theorem fillActive_eq (r : ValidatorRegistry Digest) (l : List AccountAddress) (room : Nat) :
    r.fillActive l room =
      ((l.filter fun b => (r.validator b).active).take room).map r.validator := by
  induction l generalizing room with
  | nil => simp [fillActive]
  | cons b l ih =>
    cases room with
    | zero => simp [fillActive]
    | succ room =>
      rw [fillActive, List.filter_cons]
      split
      · rw [ih, List.take_succ_cons, List.map_cons]
      · exact ih _

omit [DecidableEq Digest] in
theorem Listed.membership (h : r.Listed keccak256) : r.Membership := by
  generalize hactives : r.validatorList.filter (fun b => (r.validator b).active) = actives
  have hmem (a : AccountAddress) : a ∈ actives ↔ (r.validator a).active = true := by
    rw [← hactives, List.mem_filter]
    exact ⟨And.right, fun ha => ⟨(h.own_of_active ha).2, ha⟩⟩
  have hnodup : actives.Nodup := hactives ▸ h.nodup.filter _
  have hcount : r.activeValidatorCount = actives.length := by
    rw [h.count, List.countP_eq_length_filter, hactives]
  have hown : actives.map (fun a => (r.validator a).operator) = actives :=
    (List.map_congr_left fun a ha => (h.own_of_active ((hmem a).mp ha)).1).trans (List.map_id' _)
  have hview : r.getActiveValidators = (actives, actives.map fun a => (r.validator a).pubKey,
      actives.map fun a => (r.validator a).votingPower) := by
    unfold getActiveValidators
    rw [fillActive_eq, hactives, hcount, List.take_length]
    simp [Function.comp_def, hown]
  unfold Membership
  rw [hview]
  refine ⟨?_, hnodup, hmem, rfl, rfl⟩
  have hset : {a | (r.validator a).active = true} = ↑actives.toFinset := by
    ext a
    simp [hmem]
  rw [hcount, hset, Set.ncard_coe_finset, List.toFinset_card_of_nodup hnodup]

end ValidatorRegistry

open ValidatorRegistry

namespace Staking

variable {T : Erc20} {Digest : Type} [DecidableEq Digest] {keccak256 : List UInt8 → Digest}
  {callee deployer : AccountAddress} {s s' : Staking T Digest}

/-- Nobody enters who was ever listed, and nobody leaves who is still active. -/
def Orderly (s : Staking T Digest) : Tx T callee → Prop
  | .registry _ (.addGenesisValidators operators _ _ _) =>
    operators.Nodup ∧ ∀ a ∈ operators, a ∉ s.registry.validatorList
  | .registry msg (.register _ _) => msg.sender ∉ s.registry.validatorList
  | .registry msg .completeUnbonding => (s.registry.validator msg.sender).active = false
  | _ => True

instance (s : Staking T Digest) (tx : Tx T callee) : Decidable (s.Orderly tx) := by
  unfold Orderly
  split <;> infer_instance

/-- **Step lemma.** -/
theorem Transition.listed {tx : Tx T callee} {us : List ValidatorUpdate}
    (htx : Transition keccak256 s tx us s') (h : s.registry.Listed keccak256)
    (horderly : s.Orderly tx) : s'.registry.Listed keccak256 := by
  cases htx with
  | settings hc hset =>
    exact h.congr hset.validatorList hset.pubKeyToOperator hset.activeValidatorCount
      fun b => by rw [validator_of_eq hset.validators]; exact ⟨rfl, rfl, rfl⟩
  | @genesis msg operators pubKeys stakes monikers registry hkeys hstakes hmonikers hrun =>
    obtain ⟨hnodup, hnew⟩ := horderly
    have hoperators := operators_genesisEntries hkeys hstakes hmonikers
    refine h.genesis (hoperators.symm ▸ hnodup) (fun e he => ?_) hrun
    exact hnew _ (hoperators ▸ List.mem_map_of_mem he)
  | @register msg pubKey moniker token hnew hkey hpaid =>
    exact (h.recorded (g := ⟨msg.sender, pubKey, s.registry.minStake, moniker⟩)
      horderly).pushUpdate
  | increaseStake hlive hstays hpaid => exact h.increased
  | startUnbonding hlive hstays => exact h.unbonding
  | completeUnbonding hlive hleaves hstake hpaid => exact h.removed horderly
  | processEpoch hrun => exact (h.applyUpdates hrun).congr rfl rfl rfl fun _ => ⟨rfl, rfl, rfl⟩
  | slash hlive hstake => exact h.slashed
  | token _ => exact h

/-- **Membership.** In every run in which nobody enters twice and nobody leaves while active, the
counter counts the active validators and the view lists each of them once. `Listed` ties record,
list and counter together, and every external function keeps it. -/
theorem membership_of_orderly_run {start : Staking T Digest}
    (hdeployed : start.registry = .deployed deployer)
    (hrun : Run.Reaches (fun (tx : Tx T callee) s => s.step keccak256 tx) Orderly start s) :
    s.registry.Membership := by
  have hlisted : s.registry.Listed keccak256 := by
    refine hrun.invariant (P := fun s => s.registry.Listed keccak256) ?_ ?_
    · rw [hdeployed]
      exact .deployed deployer
    · intro s tx s' h horderly hstep
      obtain ⟨us, hexecute⟩ := step_eq_ok.mp hstep
      exact (transition_of_execute hexecute).listed h horderly
  exact hlisted.membership

/-! ### Runs -/

/-- The registry's address in the runs below. -/
def registryAddress : AccountAddress := 0x1000

/-- A token whose bridge has the address 0x200. -/
abbrev sampleToken : Erc20 := SpotToken.erc20 0x200

/-- A call by `sender`, unless it is the zero address or the registry. -/
def callBy (sender : AccountAddress) (block : Nat) (c : Call) :
    Option (Tx sampleToken registryAddress) :=
  if h : sender ≠ 0 ∧ sender ≠ registryAddress ∧ block < 2 ^ 256 then
    some (.registry ⟨sender, block, h.2.2, h.1, h.2.1⟩ c)
  else none

/-- A registry of the admin 1, where the accounts 2 and 3 have 1000 tokens each and let the
registry spend them. Public keys stand for their own hashes. -/
def sampleStart : Staking sampleToken (List UInt8) where
  registry := .deployed 1
  token := {
    totalSupply := 2000
    balances := (∅ : FinMap AccountAddress Nat).insert 2 1000 |>.insert 3 1000
    allowance := fun owner spender =>
      if (owner = 2 ∨ owner = 3) ∧ spender = registryAddress then 1000 else 0 }

/-- Run calls, each checked on the way. -/
def sampleRun (ok : Staking sampleToken (List UInt8) → Tx sampleToken registryAddress → Prop)
    [∀ s tx, Decidable (ok s tx)] (calls : List (Option (Tx sampleToken registryAddress))) :
    Exec (Staking sampleToken (List UInt8)) :=
  (calls.filterMap id).foldlM
    (fun s tx => if ok s tx then s.step id tx else .error .panic) sampleStart

theorem sampleRun_reaches
    {ok : Staking sampleToken (List UInt8) → Tx sampleToken registryAddress → Prop}
    [∀ s tx, Decidable (ok s tx)] {calls : List (Option (Tx sampleToken registryAddress))}
    {s : Staking sampleToken (List UInt8)} (h : sampleRun ok calls = .ok s) :
    Run.Reaches (fun (tx : Tx sampleToken registryAddress) s => s.step id tx) ok sampleStart s :=
  .of_checked inferInstance h

/-- Two validators join, and the first of them leaves after its removal was processed. -/
def joinAndLeave : List (Option (Tx sampleToken registryAddress)) := [
  callBy 1 1 (.initializeRegistry 100 500 10 5 10),
  callBy 1 2 (.approveValidator 2),
  callBy 1 2 (.approveValidator 3),
  callBy 2 3 (.register (List.replicate 32 2) "two"),
  callBy 3 4 (.register (List.replicate 32 3) "three"),
  callBy 2 11 .processEpoch,
  callBy 2 12 .startUnbonding,
  callBy 2 21 .processEpoch,
  callBy 2 22 .completeUnbonding]

theorem membership_joinAndLeave :
    ∃ s, sampleRun Orderly joinAndLeave = .ok s ∧ s.registry.Membership := by
  obtain ⟨s, hs, -⟩ := Exec.exists_of_test (x := sampleRun Orderly joinAndLeave)
    (p := fun _ => true) (by decide +kernel)
  exact ⟨s, hs, membership_of_orderly_run rfl (sampleRun_reaches hs)⟩

/-- A genesis validator leaves before its removal is processed: it is still counted, and the
view lists the zero address. -/
theorem membership_broken : ∃ s,
    Run.Reaches (fun (tx : Tx sampleToken registryAddress) s => s.step id tx)
      (fun _ _ => True) sampleStart s ∧
    s.registry.activeValidatorCount = 1 ∧ s.registry.getActiveValidators.1 = [0] ∧
    ¬ s.registry.Membership := by
  obtain ⟨s, hs, ht⟩ := Exec.exists_of_test
    (x := sampleRun (fun _ _ => True) [
      callBy 1 1 (.initializeRegistry 100 500 10 5 10),
      callBy 1 2 (.addGenesisValidators [2] [List.replicate 32 2] [0] ["two"]),
      callBy 2 3 .startUnbonding,
      callBy 2 8 .completeUnbonding])
    (p := fun s => s.registry.activeValidatorCount = 1 ∧ s.registry.getActiveValidators.1 = [0] ∧
      (s.registry.validator 0).active = false) (by decide +kernel)
  obtain ⟨hcount, hview, hzero⟩ := of_decide_eq_true ht
  refine ⟨s, sampleRun_reaches hs, hcount, hview, fun ⟨_, _, hmem, _⟩ => ?_⟩
  have hactive := (hmem 0).mp (hview ▸ List.mem_singleton.mpr rfl)
  rw [hzero] at hactive
  cases hactive

end Staking

end Hypercore.Contracts
