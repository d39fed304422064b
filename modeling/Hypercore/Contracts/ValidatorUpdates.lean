import Hypercore.Contracts.Membership
/-!
# Hypercore.Contracts.ValidatorUpdates

The validator set that consensus gets from the registry.

Consensus starts from the genesis validators and applies what each `processEpoch` returns. The
registry queues an update when a stake or a removal changes what consensus should see, and
`Agrees` says what the queue is worth: the set with all queued updates applied has the power
that each record states, and a record that will be active is in it.
-/

namespace Hypercore.Contracts

open Solidity Std

/-- The powers of public keys. -/
abbrev ValidatorSet := List UInt8 → Option Int

namespace ValidatorSet

/-- Power 0 removes a key, another power sets it. -/
def apply (set : ValidatorSet) (u : ValidatorUpdate) : ValidatorSet :=
  Function.update set u.pubKey (if u.power = 0 then none else some u.power)

/-- A validator of the genesis. -/
def enter (set : ValidatorSet) (pubKey : List UInt8) (power : Int) : ValidatorSet :=
  Function.update set pubKey (some power)

def applyAll (set : ValidatorSet) (us : List ValidatorUpdate) : ValidatorSet := us.foldl apply set

theorem applyAll_append {set : ValidatorSet} {us : List ValidatorUpdate} {u : ValidatorUpdate} :
    set.applyAll (us ++ [u]) = (set.applyAll us).apply u := by
  unfold applyAll
  rw [List.foldl_append]
  rfl

/-- Each key has its own history. -/
theorem applyAll_enter_ne {set : ValidatorSet} {us : List ValidatorUpdate} {k l : List UInt8}
    {power : Int} (h : l ≠ k) : (set.enter k power).applyAll us l = set.applyAll us l := by
  induction us using List.reverseRecOn with
  | nil => exact Function.update_of_ne h ..
  | append_singleton us u ih =>
    rw [applyAll_append, applyAll_append]
    unfold apply
    by_cases hu : l = u.pubKey
    · rw [hu, Function.update_self, Function.update_self]
    · rw [Function.update_of_ne hu, Function.update_of_ne hu]
      exact ih

end ValidatorSet

/-- Whether a record is active after some updates for its key. -/
def activeAfter {Digest : Type} [DecidableEq Digest] (keccak256 : List UInt8 → Digest)
    (us : List ValidatorUpdate) (v : Validator) : Bool :=
  us.foldl
    (fun active u =>
      if keccak256 u.pubKey = keccak256 v.pubKey then decide (u.power > 0) else active)
    v.active

section ActiveAfter

variable {Digest : Type} [DecidableEq Digest] {keccak256 : List UInt8 → Digest}
  {us : List ValidatorUpdate} {u : ValidatorUpdate} {v w : Validator}

theorem activeAfter_append : activeAfter keccak256 (us ++ [u]) v =
    if keccak256 u.pubKey = keccak256 v.pubKey then decide (u.power > 0)
    else activeAfter keccak256 us v := by
  unfold activeAfter
  rw [List.foldl_append]
  rfl

theorem activeAfter_congr (hkey : v.pubKey = w.pubKey) (hactive : v.active = w.active) :
    activeAfter keccak256 us v = activeAfter keccak256 us w := by
  unfold activeAfter
  rw [hkey, hactive]

variable (keccak256) in
/-- A key that comes into the set, and was out of it after the queued updates: either none of
them is about it, or the last one that is removes it. -/
theorem enters_queue {set : ValidatorSet} {p : Int} (hactive : v.active = true)
    (hqueue : ∀ u ∈ us, keccak256 u.pubKey = keccak256 v.pubKey → u.pubKey = v.pubKey)
    (hout : set.applyAll us v.pubKey = none) :
    (set.enter v.pubKey p).applyAll us v.pubKey = some p ∧
        activeAfter keccak256 us v = true ∨
      (set.enter v.pubKey p).applyAll us v.pubKey = none ∧
        activeAfter keccak256 us v = false := by
  induction us using List.reverseRecOn with
  | nil => exact .inl ⟨Function.update_self .., hactive⟩
  | append_singleton us u ih =>
    rw [ValidatorSet.applyAll_append] at hout
    rw [ValidatorSet.applyAll_append, activeAfter_append]
    unfold ValidatorSet.apply at hout ⊢
    by_cases hu : u.pubKey = v.pubKey
    · rw [hu, Function.update_self] at hout
      have hzero : u.power = 0 := by
        by_contra hne
        rw [if_neg hne] at hout
        cases hout
      rw [hu, Function.update_self, if_pos hzero, if_pos rfl, hzero]
      exact .inr ⟨rfl, rfl⟩
    · have hne : keccak256 u.pubKey ≠ keccak256 v.pubKey :=
        fun hkey => hu (hqueue u (List.mem_append_right _ (.head _)) hkey)
      rw [Function.update_of_ne (Ne.symm hu)] at hout ⊢
      rw [if_neg hne]
      exact ih (fun u' hu' => hqueue u' (List.mem_append_left _ hu')) hout

end ActiveAfter

/-! ### What the records and the set have to do with each other -/

/-- Keys lead to the live records that have them and back; what the set says of a key is the
power of its record; and the live records that will be active are those with a key in the
set. -/
structure Agrees {Digest : Type} (keccak256 : List UInt8 → Digest)
    (validator : AccountAddress → Validator) (operatorOf : Digest → AccountAddress)
    (set : ValidatorSet) (willBeActive : AccountAddress → Bool) : Prop where
  keyed : ∀ h, operatorOf h ≠ 0 → (validator (operatorOf h)).operator ≠ 0 ∧
    keccak256 (validator (operatorOf h)).pubKey = h
  own : ∀ a, (validator a).operator ≠ 0 →
    a ≠ 0 ∧ operatorOf (keccak256 (validator a).pubKey) = a
  active_live : ∀ a, (validator a).active = true → (validator a).operator ≠ 0
  stated : ∀ k w, set k = some w → ∃ a, (validator a).operator ≠ 0 ∧ (validator a).pubKey = k ∧
    w = (validator a).votingPower ∧ (validator a).votingPower < 2 ^ 63
  staying : ∀ a, (validator a).operator ≠ 0 →
    willBeActive a = (set (validator a).pubKey).isSome
  leaving : ∀ a, (validator a).operator ≠ 0 → (validator a).unbondingStart ≠ 0 →
    set (validator a).pubKey = none

namespace Agrees

variable {Digest : Type} {keccak256 : List UInt8 → Digest}
  {validator validator' : AccountAddress → Validator}
  {operatorOf operatorOf' : Digest → AccountAddress} {set set' : ValidatorSet}
  {willBeActive willBeActive' : AccountAddress → Bool} {a b : AccountAddress} {v : Validator}

/-- No two live records share the hash of their keys. -/
theorem live_unique (h : Agrees keccak256 validator operatorOf set willBeActive)
    (ha : (validator a).operator ≠ 0) (hb : (validator b).operator ≠ 0)
    (hkey : keccak256 (validator a).pubKey = keccak256 (validator b).pubKey) : a = b := by
  rw [← (h.own a ha).2, hkey, (h.own b hb).2]

variable [DecidableEq Digest]

/-- **Writing a record.** The record at `a` is written or rewritten under its own key, and what
the set says of the key is the power of the new record, or nothing. -/
theorem put {p : Option Int} (h : Agrees keccak256 validator operatorOf set willBeActive)
    (ha : a ≠ 0) (hlive : v.operator ≠ 0)
    (hsame : (validator a).operator ≠ 0 → (validator a).pubKey = v.pubKey)
    (hfree : operatorOf (keccak256 v.pubKey) = 0 ∨ operatorOf (keccak256 v.pubKey) = a)
    (hval : ∀ b, validator' b = if a = b then v else validator b)
    (hkeys : operatorOf' = Function.update operatorOf (keccak256 v.pubKey) a)
    (hset : set' = Function.update set v.pubKey p)
    (hpower : ∀ w, p = some w → w = v.votingPower ∧ v.votingPower < 2 ^ 63)
    (hleaving : v.unbondingStart ≠ 0 → p = none)
    (hwill : willBeActive' a = p.isSome)
    (hothers : ∀ b, a ≠ b → (validator b).operator ≠ 0 →
      keccak256 v.pubKey ≠ keccak256 (validator b).pubKey → willBeActive' b = willBeActive b) :
    Agrees keccak256 validator' operatorOf' set' willBeActive' := by
  have hself : validator' a = v := by rw [hval, if_pos rfl]
  have hother (b : AccountAddress) (hb : a ≠ b) : validator' b = validator b := by
    rw [hval, if_neg hb]
  -- another live record has another key
  have hdiffer (b : AccountAddress) (hb : a ≠ b) (hblive : (validator b).operator ≠ 0) :
      keccak256 v.pubKey ≠ keccak256 (validator b).pubKey := by
    intro hkey
    obtain ⟨hb0, hback⟩ := h.own b hblive
    rw [← hkey] at hback
    rcases hfree with hfree | hfree
    · exact hb0 (hback.symm.trans hfree)
    · exact hb (hfree.symm.trans hback)
  constructor
  · intro d hd
    rw [hkeys] at hd ⊢
    by_cases hk : d = keccak256 v.pubKey
    · rw [hk, Function.update_self, hself]
      exact ⟨hlive, rfl⟩
    · rw [Function.update_of_ne hk] at hd ⊢
      obtain ⟨hdlive, hdkey⟩ := h.keyed d hd
      have hne : a ≠ operatorOf d := by
        intro had
        rw [← had] at hdlive hdkey
        exact hk (hsame hdlive ▸ hdkey.symm)
      rw [hother _ hne]
      exact ⟨hdlive, hdkey⟩
  · intro b hblive
    by_cases hb : a = b
    · subst hb
      rw [hself, hkeys, Function.update_self]
      exact ⟨ha, rfl⟩
    · rw [hother b hb] at hblive ⊢
      rw [hkeys, Function.update_of_ne (hdiffer b hb hblive).symm]
      exact h.own b hblive
  · intro b hbactive
    by_cases hb : a = b
    · subst hb
      rw [hself]
      exact hlive
    · rw [hother b hb] at hbactive ⊢
      exact h.active_live b hbactive
  · intro k w hw
    rw [hset] at hw
    by_cases hk : k = v.pubKey
    · rw [hk, Function.update_self] at hw
      refine ⟨a, ?_⟩
      rw [hself]
      exact ⟨hlive, hk.symm, hpower w hw⟩
    · rw [Function.update_of_ne hk] at hw
      obtain ⟨b, hblive, hbkey, hbpower⟩ := h.stated k w hw
      have hb : a ≠ b := by
        rintro rfl
        exact hk (hbkey.symm.trans (hsame hblive))
      refine ⟨b, ?_⟩
      rw [hother b hb]
      exact ⟨hblive, hbkey, hbpower⟩
  · intro b hblive
    by_cases hb : a = b
    · subst hb
      rw [hself, hset, Function.update_self]
      exact hwill
    · rw [hother b hb] at hblive ⊢
      have hk := hdiffer b hb hblive
      rw [hothers b hb hblive hk, hset, Function.update_of_ne fun hkey => hk (congrArg _ hkey.symm)]
      exact h.staying b hblive
  · intro b hblive hbleaving
    by_cases hb : a = b
    · subst hb
      rw [hself] at hbleaving ⊢
      rw [hset, Function.update_self]
      exact hleaving hbleaving
    · rw [hother b hb] at hblive hbleaving ⊢
      rw [hset, Function.update_of_ne fun hkey => hdiffer b hb hblive (congrArg _ hkey.symm)]
      exact h.leaving b hblive hbleaving

/-- **Deleting a record** whose key is not in the set. -/
theorem drop (h : Agrees keccak256 validator operatorOf set willBeActive)
    (hlive : (validator a).operator ≠ 0) (hnone : set (validator a).pubKey = none)
    (hval : ∀ b, validator' b = if a = b then .empty else validator b)
    (hwill : ∀ b, a ≠ b → willBeActive' b = willBeActive b) :
    Agrees keccak256 validator'
      (Function.update operatorOf (keccak256 (validator a).pubKey) 0) set willBeActive' := by
  have hself : validator' a = .empty := by rw [hval, if_pos rfl]
  have hother (b : AccountAddress) (hb : a ≠ b) : validator' b = validator b := by
    rw [hval, if_neg hb]
  have hne_of_live (b : AccountAddress) (hblive : (validator' b).operator ≠ 0) : a ≠ b := by
    rintro rfl
    rw [hself] at hblive
    exact hblive rfl
  constructor
  · intro d hd
    by_cases hk : d = keccak256 (validator a).pubKey
    · rw [hk, Function.update_self] at hd
      exact absurd rfl hd
    · rw [Function.update_of_ne hk] at hd ⊢
      obtain ⟨hdlive, hdkey⟩ := h.keyed d hd
      have hne : a ≠ operatorOf d := by
        rintro rfl
        exact hk hdkey.symm
      rw [hother _ hne]
      exact ⟨hdlive, hdkey⟩
  · intro b hblive
    have hb := hne_of_live b hblive
    rw [hother b hb] at hblive ⊢
    have hk : keccak256 (validator b).pubKey ≠ keccak256 (validator a).pubKey :=
      fun hkey => hb (h.live_unique hlive hblive hkey.symm)
    rw [Function.update_of_ne hk]
    exact h.own b hblive
  · intro b hbactive
    by_cases hb : a = b
    · subst hb
      rw [hself] at hbactive
      cases hbactive
    · rw [hother b hb] at hbactive ⊢
      exact h.active_live b hbactive
  · intro k w hw
    obtain ⟨b, hblive, hbkey, hbpower⟩ := h.stated k w hw
    have hb : a ≠ b := by
      rintro rfl
      rw [hbkey, hw] at hnone
      cases hnone
    refine ⟨b, ?_⟩
    rw [hother b hb]
    exact ⟨hblive, hbkey, hbpower⟩
  · intro b hblive
    have hb := hne_of_live b hblive
    rw [hother b hb] at hblive ⊢
    rw [hwill b hb]
    exact h.staying b hblive
  · intro b hblive hbleaving
    have hb := hne_of_live b hblive
    rw [hother b hb] at hblive hbleaving ⊢
    exact h.leaving b hblive hbleaving

end Agrees

namespace ValidatorRegistry

variable {Digest : Type} [DecidableEq Digest] {keccak256 : List UInt8 → Digest}
  {r r' : ValidatorRegistry Digest} {set : ValidatorSet} {a b : AccountAddress}

/-- The records agree with the set that the queued updates will make of `set`. -/
def Reports (keccak256 : List UInt8 → Digest) (set : ValidatorSet)
    (r : ValidatorRegistry Digest) : Prop :=
  Agrees keccak256 r.validator r.pubKeyToOperator (set.applyAll r.pendingUpdates)
    fun a => activeAfter keccak256 r.pendingUpdates (r.validator a)

/-- A power that `int64(uint64(power))` keeps, or makes zero. -/
def Fits (power : Nat) : Prop := power < 2 ^ 63 ∨ power % 2 ^ 64 = 0

theorem int64_fits {power : Nat} {w : Int} (h : Fits power)
    (hw : (if int64 power = 0 then none else some (int64 power)) = some w) :
    w = power ∧ power < 2 ^ 63 := by
  rcases h with hlt | hzero
  · rw [int64_of_lt hlt] at hw
    split at hw
    · cases hw
    · exact ⟨(Option.some.inj hw).symm, hlt⟩
  · rw [if_pos (int64_eq_zero.mpr hzero)] at hw
    cases hw

theorem int64_fits_pos {power : Nat} (h : Fits power) :
    decide (int64 power > 0) = (if int64 power = 0 then none else some (int64 power)).isSome := by
  rcases h with hlt | hzero
  · rw [int64_of_lt hlt]
    rcases Nat.eq_zero_or_pos power with rfl | hpos
    · rfl
    · rw [if_neg (by omega)]
      exact decide_eq_true (by omega)
  · rw [int64_eq_zero.mpr hzero]
    rfl

namespace Reports

theorem congr (h : r.Reports keccak256 set) (hvalidators : r'.validators = r.validators)
    (hkeys : r'.pubKeyToOperator = r.pubKeyToOperator)
    (hpending : r'.pendingUpdates = r.pendingUpdates) : r'.Reports keccak256 set := by
  have hval : r'.validator = r.validator := funext fun _ => validator_of_eq hvalidators
  unfold Reports
  rw [hval, hkeys, hpending]
  exact h

theorem deployed (deployer : AccountAddress) :
    (ValidatorRegistry.deployed deployer : ValidatorRegistry Digest).Reports keccak256
      fun _ => none where
  keyed _ h := absurd rfl h
  own _ h := absurd rfl h
  active_live _ h := nomatch h
  stated _ _ h := nomatch h
  staying _ h := absurd rfl h
  leaving _ h := absurd rfl h

/-- **A live record is rewritten and reported.** -/
theorem report {v : Validator} {power : Int} (h : r.Reports keccak256 set)
    (hlive : (r.validator a).operator ≠ 0) (hoperator : v.operator = (r.validator a).operator)
    (hkey : v.pubKey = (r.validator a).pubKey)
    (hval : ∀ b, r'.validator b = if a = b then v else r.validator b)
    (hkeys : r'.pubKeyToOperator = r.pubKeyToOperator)
    (hpending : r'.pendingUpdates = r.pendingUpdates ++ [⟨v.pubKey, power⟩])
    (hpower : ∀ w, (if power = 0 then none else some power) = some w →
      w = v.votingPower ∧ v.votingPower < 2 ^ 63)
    (hpos : decide (power > 0) = (if power = 0 then none else some power).isSome)
    (hleaving : v.unbondingStart ≠ 0 → power = 0) : r'.Reports keccak256 set := by
  obtain ⟨ha, hback⟩ := h.own a hlive
  rw [← hkey] at hback
  refine h.put ha (hoperator ▸ hlive) (fun _ => hkey.symm) (.inr hback) hval ?_ ?_ hpower
    (fun hne => if_pos (hleaving hne)) ?_ ?_
  · rw [hkeys]
    exact (Function.update_eq_self_iff.mpr hback.symm).symm
  · rw [hpending, ValidatorSet.applyAll_append]
    rfl
  · rw [hpending, activeAfter_append, hval, if_pos rfl, if_pos rfl]
    exact hpos
  · intro b hab _ hne
    rw [hpending, activeAfter_append, hval, if_neg hab, if_neg hne]

/-- **A live record is rewritten and not reported.** Its power stays, or it is leaving. -/
theorem rewrite {v : Validator} (h : r.Reports keccak256 set)
    (hlive : (r.validator a).operator ≠ 0) (hoperator : v.operator = (r.validator a).operator)
    (hkey : v.pubKey = (r.validator a).pubKey) (hactive : v.active = (r.validator a).active)
    (hval : ∀ b, r'.validator b = if a = b then v else r.validator b)
    (hkeys : r'.pubKeyToOperator = r.pubKeyToOperator)
    (hpending : r'.pendingUpdates = r.pendingUpdates)
    (hpower : v.votingPower = (r.validator a).votingPower ∨
      activeAfter keccak256 r.pendingUpdates (r.validator a) = false)
    (hleaving : v.unbondingStart = (r.validator a).unbondingStart) : r'.Reports keccak256 set := by
  obtain ⟨ha, hback⟩ := h.own a hlive
  have hstaying := h.staying a hlive
  rw [← hkey] at hback hstaying
  refine h.put (p := set.applyAll r.pendingUpdates v.pubKey) ha (hoperator ▸ hlive)
    (fun _ => hkey.symm) (.inr hback) hval ?_ ?_ ?_ ?_ ?_ ?_
  · rw [hkeys]
    exact (Function.update_eq_self_iff.mpr hback.symm).symm
  · rw [hpending, Function.update_eq_self]
  · intro w hw
    obtain ⟨b, hblive, hbkey, hbpower⟩ := h.stated _ w hw
    obtain rfl := h.live_unique hlive hblive (by rw [hbkey, hkey])
    rcases hpower with hpower | hout
    · rw [hpower]
      exact hbpower
    · rw [hout, hw] at hstaying
      cases hstaying
  · intro hne
    rw [hkey]
    exact h.leaving a hlive (hleaving ▸ hne)
  · rw [hpending, hval, if_pos rfl, activeAfter_congr hkey hactive]
    exact hstaying
  · intro b hab _ _
    rw [hpending, hval, if_neg hab]

/-- **Registration**, with its update. -/
theorem register {g : Genesis} (h : r.Reports keccak256 set) (ha : g.operator ≠ 0)
    (hnew : (r.validator g.operator).operator = 0)
    (hkey : r.pubKeyToOperator (keccak256 g.pubKey) = 0)
    (hfits : Fits (r.computeVotingPower g.stake)) :
    ((r.recorded keccak256 g).pushUpdate g.pubKey
      (int64 (r.computeVotingPower g.stake))).Reports keccak256 set := by
  refine h.put (v := r.newValidator g) ha ha (fun hlive => absurd hnew hlive) (.inl hkey)
    (fun b => ?_) rfl ValidatorSet.applyAll_append
    (fun _ => int64_fits hfits) (fun hne => absurd rfl hne) ?_ ?_
  · show (r.recorded keccak256 g).validator b = _
    exact validator_recorded
  · show activeAfter keccak256 (r.pendingUpdates ++ [_]) ((r.recorded keccak256 g).validator _) = _
    rw [activeAfter_append, validator_recorded, if_pos rfl]
    exact (if_pos rfl).trans (int64_fits_pos hfits)
  · intro b hab _ hne
    show activeAfter keccak256 (r.pendingUpdates ++ [_]) ((r.recorded keccak256 g).validator b) = _
    rw [activeAfter_append, validator_recorded, if_neg hab]
    exact if_neg hne

variable {block : Nat}

theorem unbonding (h : r.Reports keccak256 set) (hlive : (r.validator a).operator ≠ 0) :
    (r.unbonding a block).Reports keccak256 set :=
  h.report (v := { r.validator a with unbondingStart := block }) hlive rfl rfl
    (fun _ => validator_unbonding) rfl rfl (fun _ h0 => nomatch h0) rfl fun _ => rfl

theorem increased {amount : Nat} (h : r.Reports keccak256 set)
    (hlive : (r.validator a).operator ≠ 0) (hstays : (r.validator a).unbondingStart = 0)
    (hfits : r.computeVotingPower ((r.validator a).stake + amount) ≠ (r.validator a).votingPower →
      Fits (r.computeVotingPower ((r.validator a).stake + amount))) :
    (r.increased a amount).Reports keccak256 set := by
  unfold ValidatorRegistry.increased
  dsimp only
  split
  · rename_i hpower
    exact h.report (v := r.withStake (r.validator a) ((r.validator a).stake + amount)) hlive rfl rfl
      (fun _ => validator_pushUpdate.trans validator_restaked) rfl rfl
      (fun _ => int64_fits (hfits hpower)) (int64_fits_pos (hfits hpower))
      fun hne => absurd hstays hne
  · rename_i hpower
    exact h.rewrite (v := r.withStake (r.validator a) ((r.validator a).stake + amount)) hlive rfl
      rfl rfl (fun _ => validator_restaked) rfl rfl
      (.inl (not_not.mp hpower)) rfl

/-- **Slashing.** The validator is thrown out, keeps its power, or is on its way out. -/
theorem slashed {amount : Nat} (h : r.Reports keccak256 set) (hlive : (r.validator a).operator ≠ 0)
    (hok : ((r.validator a).stake - min amount (r.validator a).stake < r.minStake ∧
        (r.validator a).unbondingStart = 0) ∨
      r.computeVotingPower ((r.validator a).stake - min amount (r.validator a).stake) =
        (r.validator a).votingPower ∨
      activeAfter keccak256 r.pendingUpdates (r.validator a) = false) :
    (r.slashed a amount block).Reports keccak256 set := by
  unfold ValidatorRegistry.slashed
  dsimp only
  split
  · -- one write puts in the stake, the power and the start of unbonding
    refine h.report (v := { r.withStake (r.validator a)
      ((r.validator a).stake - min amount (r.validator a).stake) with unbondingStart := block })
      hlive rfl rfl (fun b => ?_) rfl ?_ (fun _ h0 => ?_) ?_ fun _ => rfl
    · rw [validator_unbonding, validator_restaked, if_pos rfl, validator_restaked]
      split <;> rfl
    · unfold ValidatorRegistry.unbonding
      rw [validator_restaked, if_pos rfl]
      rfl
    · cases h0
    · rfl
  · rename_i hout
    exact h.rewrite (v := r.withStake (r.validator a)
      ((r.validator a).stake - min amount (r.validator a).stake)) hlive rfl rfl rfl
      (fun _ => validator_restaked) rfl rfl (hok.resolve_left hout) rfl

theorem removed (h : r.Reports keccak256 set) (hlive : (r.validator a).operator ≠ 0)
    (hleaves : (r.validator a).unbondingStart ≠ 0) :
    (r.removed keccak256 a).Reports keccak256 set := by
  refine h.drop hlive (h.leaving a hlive hleaves) (fun _ => validator_removed) fun b hab => ?_
  show activeAfter keccak256 r.pendingUpdates ((r.removed keccak256 a).validator b) = _
  rw [validator_removed, if_neg hab]

/-- One genesis validator, told to consensus at the same time. -/
theorem activated {g : Genesis} (h : r.Reports keccak256 set) (ha : g.operator ≠ 0)
    (hnew : (r.validator g.operator).operator = 0)
    (hkey : r.pubKeyToOperator (keccak256 g.pubKey) = 0)
    (hlt : r.computeVotingPower g.stake < 2 ^ 63)
    (hqueue : ∀ u ∈ r.pendingUpdates, keccak256 u.pubKey = keccak256 g.pubKey →
      u.pubKey = g.pubKey) :
    (r.activated keccak256 block g).Reports keccak256
      (set.enter g.pubKey (r.computeVotingPower g.stake)) := by
  have hout : set.applyAll r.pendingUpdates g.pubKey = none := by
    cases hw : set.applyAll r.pendingUpdates g.pubKey with
    | none => rfl
    | some w =>
      obtain ⟨b, hblive, hbkey, -⟩ := h.stated _ w hw
      obtain ⟨hb, hback⟩ := h.own b hblive
      rw [hbkey, hkey] at hback
      exact absurd hback.symm hb
  have henters := enters_queue keccak256 (v := r.genesisValidator block g)
    (p := r.computeVotingPower g.stake) rfl hqueue hout
  refine h.put (v := r.genesisValidator block g)
    (p := (set.enter g.pubKey (r.computeVotingPower g.stake)).applyAll r.pendingUpdates g.pubKey)
    ha ha (fun hlive => absurd hnew hlive) (.inl hkey) (fun _ => validator_activated) rfl ?_ ?_
    (fun hne => absurd rfl hne) ?_ ?_
  · funext k
    show (set.enter g.pubKey _).applyAll r.pendingUpdates k =
      Function.update (set.applyAll r.pendingUpdates) g.pubKey _ k
    by_cases hk : k = g.pubKey
    · rw [hk, Function.update_self]
    · rw [Function.update_of_ne hk, ValidatorSet.applyAll_enter_ne hk]
  · intro w hw
    rcases henters with ⟨hin, -⟩ | ⟨hin, -⟩
    · exact ⟨(Option.some.inj (hin.symm.trans hw)).symm, hlt⟩
    · cases hin.symm.trans hw
  · rw [validator_activated, if_pos rfl]
    rcases henters with ⟨hin, hwill⟩ | ⟨hin, hwill⟩
    · exact hwill.trans (congrArg Option.isSome hin).symm
    · exact hwill.trans (congrArg Option.isSome hin).symm
  · intro b hab _ _
    rw [validator_activated, if_neg hab]
    rfl

end Reports

/-! ### Epochs -/

/-- Only activity changes. -/
structure SameButActive (r r' : ValidatorRegistry Digest) : Prop where
  pubKeyToOperator : r'.pubKeyToOperator = r.pubKeyToOperator
  operator : ∀ b, (r'.validator b).operator = (r.validator b).operator
  pubKey : ∀ b, (r'.validator b).pubKey = (r.validator b).pubKey
  votingPower : ∀ b, (r'.validator b).votingPower = (r.validator b).votingPower
  unbondingStart : ∀ b, (r'.validator b).unbondingStart = (r.validator b).unbondingStart

namespace SameButActive

omit [DecidableEq Digest] in
theorem refl (r : ValidatorRegistry Digest) : SameButActive r r :=
  ⟨rfl, fun _ => rfl, fun _ => rfl, fun _ => rfl, fun _ => rfl⟩

omit [DecidableEq Digest] in
theorem trans {r'' : ValidatorRegistry Digest} (h : SameButActive r r')
    (h' : SameButActive r' r'') : SameButActive r r'' where
  pubKeyToOperator := h'.pubKeyToOperator.trans h.pubKeyToOperator
  operator b := (h'.operator b).trans (h.operator b)
  pubKey b := (h'.pubKey b).trans (h.pubKey b)
  votingPower b := (h'.votingPower b).trans (h.votingPower b)
  unbondingStart b := (h'.unbondingStart b).trans (h.unbondingStart b)

omit [DecidableEq Digest] in
theorem flipped {active : Bool} {since count : Nat} :
    SameButActive r (r.flipped a active since count) := by
  refine ⟨rfl, fun b => ?_, fun b => ?_, fun b => ?_, fun b => ?_⟩ <;>
  · rw [validator_flipped]
    split
    · rename_i hab
      rw [hab]
    · rfl

end SameButActive

/-- Keys lead to live records and back. -/
structure Keyed (keccak256 : List UInt8 → Digest) (r : ValidatorRegistry Digest) : Prop where
  keyed : ∀ h, r.pubKeyToOperator h ≠ 0 →
    (r.validator (r.pubKeyToOperator h)).operator ≠ 0 ∧
      keccak256 (r.validator (r.pubKeyToOperator h)).pubKey = h
  own : ∀ a, (r.validator a).operator ≠ 0 →
    a ≠ 0 ∧ r.pubKeyToOperator (keccak256 (r.validator a).pubKey) = a

omit [DecidableEq Digest] in
theorem Keyed.same (h : r.Keyed keccak256) (hsame : SameButActive r r') : r'.Keyed keccak256 where
  keyed d hd := by
    rw [hsame.pubKeyToOperator] at hd ⊢
    rw [hsame.operator, hsame.pubKey]
    exact h.keyed d hd
  own b hb := by
    rw [hsame.operator] at hb
    rw [hsame.pubKeyToOperator, hsame.pubKey]
    exact h.own b hb

variable {block : Nat}

/-- **One update.** It decides on the live record with its key, and on nothing else. -/
theorem applyUpdate_active {u : ValidatorUpdate} (h : r.Keyed keccak256)
    (hrun : applyUpdate keccak256 block r u = .ok r') :
    SameButActive r r' ∧ ∀ b, (r'.validator b).active =
      if (r.validator b).operator ≠ 0 ∧ keccak256 u.pubKey = keccak256 (r.validator b).pubKey then
        decide (u.power > 0)
      else (r.validator b).active := by
  -- the record that the key leads to is the live one that has it
  have hfound (b : AccountAddress) : (r.validator b).operator ≠ 0 ∧
      keccak256 u.pubKey = keccak256 (r.validator b).pubKey ↔
        r.pubKeyToOperator (keccak256 u.pubKey) = b ∧ b ≠ 0 := by
    constructor
    · rintro ⟨hlive, hkey⟩
      obtain ⟨hb, hback⟩ := h.own b hlive
      exact ⟨hkey ▸ hback, hb⟩
    · rintro ⟨rfl, hb⟩
      obtain ⟨hlive, hkey⟩ := h.keyed _ hb
      exact ⟨hlive, hkey.symm⟩
  obtain ⟨h0, since, count, rfl, -⟩ | ⟨hsame, rfl⟩ := applyUpdate_eq_ok hrun
  · refine ⟨.flipped, fun b => ?_⟩
    rw [validator_flipped, if_congr (hfound b) rfl rfl]
    by_cases hb : r.pubKeyToOperator (keccak256 u.pubKey) = b
    · rw [if_pos hb, if_pos ⟨hb, hb ▸ h0⟩]
    · rw [if_neg hb, if_neg fun hand => hb hand.1]
  · refine ⟨.refl _, fun b => ?_⟩
    rw [if_congr (hfound b) rfl rfl]
    split
    · rename_i hand
      obtain ⟨rfl, hb⟩ := hand
      exact hsame.resolve_left hb
    · rfl

/-- **All updates.** -/
theorem applyUpdates_active {us : List ValidatorUpdate} (h : r.Keyed keccak256)
    (hrun : us.foldlM (applyUpdate keccak256 block) r = .ok r') :
    SameButActive r r' ∧ ∀ b, (r'.validator b).active =
      if (r.validator b).operator ≠ 0 then activeAfter keccak256 us (r.validator b)
      else (r.validator b).active := by
  induction us generalizing r with
  | nil =>
    obtain rfl := pure_eq_ok.mp hrun
    exact ⟨.refl _, fun b => (ite_self _).symm⟩
  | cons u us ih =>
    obtain ⟨r₁, hr₁, hrest⟩ := bind_eq_ok.mp ((List.foldlM_cons ..).symm.trans hrun)
    obtain ⟨hsame₁, hactive₁⟩ := applyUpdate_active h hr₁
    obtain ⟨hsame, hactive⟩ := ih (h.same hsame₁) hrest
    refine ⟨hsame₁.trans hsame, fun b => ?_⟩
    rw [hactive, hsame₁.operator, hactive₁]
    by_cases hlive : (r.validator b).operator ≠ 0
    · rw [if_pos hlive, if_pos hlive]
      unfold activeAfter
      rw [hsame₁.pubKey, hactive₁, List.foldl_cons]
      simp only [hlive, true_and, ne_eq, not_false_eq_true]
    · rw [if_neg hlive, if_neg hlive, if_neg fun hand => hlive hand.1]

/-- **The end of an epoch.** All queued updates are applied on both sides. -/
theorem Reports.processEpoch (h : r.Reports keccak256 set)
    (hrun : r.pendingUpdates.foldlM (applyUpdate keccak256 block) r = .ok r') :
    Agrees keccak256 r'.validator r'.pubKeyToOperator (set.applyAll r.pendingUpdates)
      fun a => (r'.validator a).active := by
  obtain ⟨hsame, hactive⟩ := applyUpdates_active ⟨h.keyed, h.own⟩ hrun
  have hkeyed := Keyed.same ⟨h.keyed, h.own⟩ hsame
  refine ⟨hkeyed.keyed, hkeyed.own, fun a ha => ?_, fun k w hw => ?_, fun a ha => ?_,
    fun a ha => ?_⟩
  · rw [hactive] at ha
    rw [hsame.operator]
    split at ha
    · assumption
    · exact h.active_live a ha
  · obtain ⟨a, ha⟩ := h.stated k w hw
    refine ⟨a, ?_⟩
    rw [hsame.operator, hsame.pubKey, hsame.votingPower]
    exact ha
  · rw [hsame.operator] at ha
    rw [hactive, if_pos ha, hsame.pubKey]
    exact h.staying a ha
  · rw [hsame.operator] at ha
    rw [hsame.pubKey, hsame.unbondingStart]
    exact h.leaving a ha

/-- A genesis validator with an operator and a key that are not in use. -/
structure NewGenesis (keccak256 : List UInt8 → Digest) (r : ValidatorRegistry Digest)
    (g : Genesis) : Prop where
  operator_ne_zero : g.operator ≠ 0
  operator_new : (r.validator g.operator).operator = 0
  key_new : r.pubKeyToOperator (keccak256 g.pubKey) = 0
  queue : ∀ u ∈ r.pendingUpdates, keccak256 u.pubKey = keccak256 g.pubKey → u.pubKey = g.pubKey
  power_lt : r.computeVotingPower g.stake < 2 ^ 63

/-- The genesis set. -/
def genesisSet (r : ValidatorRegistry Digest) (set : ValidatorSet) (es : List Genesis) :
    ValidatorSet :=
  es.foldl (fun set g => set.enter g.pubKey (r.computeVotingPower g.stake)) set

omit [DecidableEq Digest] in
theorem genesisSet_congr {es : List Genesis} (h : r'.maxEffectiveStake = r.maxEffectiveStake) :
    r'.genesisSet set es = r.genesisSet set es := by
  have hpower : r'.computeVotingPower = r.computeVotingPower :=
    funext fun stake => computeVotingPower_of_eq h stake
  unfold genesisSet
  rw [hpower]

/-- **Genesis.** Different operators with different keys, all of them new. -/
theorem Reports.genesis {es : List Genesis} (h : r.Reports keccak256 set)
    (hpairs : es.Pairwise fun e e' => e.operator ≠ e'.operator ∧
      keccak256 e.pubKey ≠ keccak256 e'.pubKey) (hnew : ∀ e ∈ es, r.NewGenesis keccak256 e)
    (hrun : es.foldlM (addGenesisValidator keccak256 block) r = .ok r') :
    r'.Reports keccak256 (r.genesisSet set es) := by
  induction es generalizing r set with
  | nil =>
    obtain rfl := pure_eq_ok.mp hrun
    exact h
  | cons e es ih =>
    obtain ⟨hhead, hpairs⟩ := List.pairwise_cons.mp hpairs
    obtain ⟨r₁, hr₁, hrest⟩ := bind_eq_ok.mp ((List.foldlM_cons ..).symm.trans hrun)
    obtain ⟨-, -, rfl⟩ := addGenesisValidator_eq_ok.mp hr₁
    have he := hnew e (.head _)
    have hset : r.genesisSet set (e :: es) = (r.activated keccak256 block e).genesisSet
        (set.enter e.pubKey (r.computeVotingPower e.stake)) es :=
      (genesisSet_congr (r := r) rfl).symm
    rw [hset]
    refine ih (h.activated he.operator_ne_zero he.operator_new he.key_new he.power_lt he.queue)
      hpairs (fun e' he' => ?_) hrest
    obtain ⟨hoperator, hkey⟩ := hhead e' he'
    have hnew' := hnew e' (.tail _ he')
    refine ⟨hnew'.operator_ne_zero, ?_, ?_, hnew'.queue, hnew'.power_lt⟩
    · rw [validator_activated, if_neg hoperator]
      exact hnew'.operator_new
    · exact (Function.update_of_ne (Ne.symm hkey) ..).trans hnew'.key_new

end ValidatorRegistry

open ValidatorRegistry Staking

/-- The registry, and the set that consensus has. -/
structure Watched (T : Erc20) (Digest : Type) where
  staking : Staking T Digest
  set : ValidatorSet

namespace Watched

variable {T : Erc20} {Digest : Type} [DecidableEq Digest] (keccak256 : List UInt8 → Digest)
  {callee deployer : AccountAddress} (o : Watched T Digest)

/-- Consensus knows the validators that are added before the first epoch ends. -/
def told : Tx T callee → ValidatorSet
  | .registry _ (.addGenesisValidators operators pubKeys stakes monikers) =>
    if o.staking.registry.currentEpoch ≤ 1 then
      o.staking.registry.genesisSet o.set (genesisEntries operators pubKeys stakes monikers)
    else o.set
  | _ => o.set

/-- Execute a transaction, and apply what it returns. -/
def watch (tx : Tx T callee) (o : Watched T Digest) : Exec (Watched T Digest) := do
  let (updates, staking) ← (o.staking.execute keccak256 tx).toExec
  return ⟨staking, (o.told tx).applyAll updates⟩

/-- The set has exactly the keys of the active validators, each with its voting power, a
non-negative `int64`. -/
def Mirrors : Prop :=
  (∀ a, (o.staking.registry.validator a).active = true →
    (o.staking.registry.validator a).votingPower < 2 ^ 63 ∧
      o.set (o.staking.registry.validator a).pubKey =
        some ((o.staking.registry.validator a).votingPower : Int)) ∧
  ∀ k w, o.set k = some w → ∃ a, (o.staking.registry.validator a).active = true ∧
    (o.staking.registry.validator a).pubKey = k ∧
    w = (o.staking.registry.validator a).votingPower

/-- Genesis comes first and uses no operator or key twice, queued powers survive the casts, and
a slash throws the validator out, leaves its power, or hits one on its way out. -/
def Reported (o : Watched T Digest) : Tx T callee → Prop
  | .registry _ (.addGenesisValidators operators pubKeys stakes monikers) =>
    o.staking.registry.currentEpoch ≤ 1 ∧
    (genesisEntries operators pubKeys stakes monikers).Pairwise
      (fun e e' => e.operator ≠ e'.operator ∧ keccak256 e.pubKey ≠ keccak256 e'.pubKey) ∧
    ∀ e ∈ genesisEntries operators pubKeys stakes monikers,
      o.staking.registry.NewGenesis keccak256 e
  | .registry _ (.register _ _) =>
    Fits (o.staking.registry.computeVotingPower o.staking.registry.minStake)
  | .registry msg (.increaseStake amount) =>
    let v := o.staking.registry.validator msg.sender
    o.staking.registry.computeVotingPower (v.stake + amount) ≠ v.votingPower →
      Fits (o.staking.registry.computeVotingPower (v.stake + amount))
  | .registry _ (.slash operator amount) =>
    let v := o.staking.registry.validator operator
    let stake := v.stake - min amount v.stake
    stake < o.staking.registry.minStake ∧ v.unbondingStart = 0 ∨
      o.staking.registry.computeVotingPower stake = v.votingPower ∨
      activeAfter keccak256 o.staking.registry.pendingUpdates v = false
  | _ => True

variable {keccak256 o}

/-- **Step lemma.** -/
theorem reports_of_transition {tx : Tx T callee} {us : List ValidatorUpdate}
    {s' : Staking T Digest} (htx : o.staking.Transition keccak256 tx us s')
    (h : o.staking.registry.Reports keccak256 o.set) (hreported : o.Reported keccak256 tx) :
    s'.registry.Reports keccak256 ((o.told tx).applyAll us) := by
  cases htx with
  | @settings msg c registry hc hset =>
    have htold : o.told (Tx.registry msg c) = o.set := by
      cases c with
      | addGenesisValidators => cases hc
      | _ => rfl
    rw [htold]
    exact h.congr hset.validators hset.pubKeyToOperator hset.pendingUpdates
  | @genesis msg operators pubKeys stakes monikers registry hkeys hstakes hmonikers hrun =>
    obtain ⟨hepoch, hpairs, hnew⟩ := hreported
    have htold : o.told (Tx.registry msg
        (.addGenesisValidators operators pubKeys stakes monikers)) =
          o.staking.registry.genesisSet o.set
            (genesisEntries operators pubKeys stakes monikers) := if_pos hepoch
    rw [htold]
    exact h.genesis hpairs hnew hrun
  | @register msg pubKey moniker token hnew hkey hpaid =>
    exact h.register (g := ⟨msg.sender, pubKey, _, moniker⟩) msg.sender_ne_zero hnew hkey hreported
  | increaseStake hlive hstays hpaid => exact h.increased hlive hstays hreported
  | startUnbonding hlive hstays => exact h.unbonding hlive
  | completeUnbonding hlive hleaves hstake hpaid => exact h.removed hlive hleaves
  | processEpoch hrun =>
    have hagrees := h.processEpoch hrun
    exact hagrees
  | slash hlive hstake => exact h.slashed hlive hreported
  | token _ => exact h

theorem watch_eq_ok {tx : Tx T callee} {o' : Watched T Digest} :
    watch keccak256 tx o = .ok o' ↔ ∃ us s', o.staking.execute keccak256 tx = .ok (us, s') ∧
      o' = ⟨s', (o.told tx).applyAll us⟩ := by
  unfold watch
  simp only [Exec.bind_eq_ok, toExec_eq_ok, Exec.pure_eq_ok]
  constructor
  · rintro ⟨⟨us, s'⟩, h, rfl⟩
    exact ⟨us, s', h, rfl⟩
  · rintro ⟨us, s', h, rfl⟩
    exact ⟨(us, s'), h, rfl⟩

omit [DecidableEq Digest] in
/-- With nothing queued, the set is what the records say. -/
theorem mirrors_of_agrees (h : Agrees keccak256 o.staking.registry.validator
    o.staking.registry.pubKeyToOperator o.set fun a => (o.staking.registry.validator a).active) :
    o.Mirrors := by
  constructor
  · intro a hactive
    have hlive := h.active_live a hactive
    have hsome := (h.staying a hlive).symm.trans hactive
    obtain ⟨w, hw⟩ := Option.isSome_iff_exists.mp hsome
    obtain ⟨b, hblive, hbkey, hpower, hlt⟩ := h.stated _ w hw
    obtain rfl := h.live_unique hblive hlive (congrArg _ hbkey)
    exact ⟨hlt, hpower ▸ hw⟩
  · intro k w hw
    obtain ⟨a, hlive, hkey, hpower, -⟩ := h.stated k w hw
    refine ⟨a, ?_, hkey, hpower⟩
    rw [h.staying a hlive, hkey, hw]
    rfl

/-- **The updates describe the set.** In every run whose steps are reported, the set that
consensus has after a `processEpoch` is the set of active validators. At all times the set with
the queued updates applied agrees with the records (`Reports`), and `processEpoch` applies them.
-/
theorem mirrors_of_reported_run {start : Watched T Digest}
    (hdeployed : start.staking.registry = .deployed deployer) (hset : start.set = fun _ => none)
    (hrun : Run.Reaches (fun (tx : Tx T callee) o => watch keccak256 tx o) (Reported keccak256)
      start o) {msg : Msg callee} {o' : Watched T Digest}
    (hepoch : watch keccak256 (.registry msg .processEpoch) o = .ok o') : o'.Mirrors := by
  have hreports : o.staking.registry.Reports keccak256 o.set := by
    refine hrun.invariant (P := fun o => o.staking.registry.Reports keccak256 o.set) ?_ ?_
    · rw [hdeployed, hset]
      exact .deployed deployer
    · intro o tx o' h hreported hstep
      obtain ⟨us, s', hexecute, rfl⟩ := watch_eq_ok.mp hstep
      exact reports_of_transition (transition_of_execute hexecute) h hreported
  obtain ⟨us, s', hexecute, rfl⟩ := watch_eq_ok.mp hepoch
  have htransition := transition_of_execute hexecute
  cases htransition with
  | settings hc _ => cases hc
  | processEpoch happly =>
    have hagrees := hreports.processEpoch happly
    exact mirrors_of_agrees hagrees

/-! ### Runs -/

/-- The registry before it is initialized, and an empty set. -/
def sampleWatch : Watched sampleToken (List UInt8) where
  staking := sampleStart
  set _ := none

/-- Run calls, each checked on the way. -/
def watchedRun (ok : Watched sampleToken (List UInt8) → Tx sampleToken registryAddress → Prop)
    [∀ o tx, Decidable (ok o tx)] (calls : List (Option (Tx sampleToken registryAddress))) :
    Exec (Watched sampleToken (List UInt8)) :=
  (calls.filterMap id).foldlM
    (fun o tx => if ok o tx then watch id tx o else .error .panic) sampleWatch

instance {r : ValidatorRegistry Digest} {g : Genesis} : Decidable (r.NewGenesis keccak256 g) :=
  decidable_of_iff (g.operator ≠ 0 ∧ (r.validator g.operator).operator = 0 ∧
      r.pubKeyToOperator (keccak256 g.pubKey) = 0 ∧
      (∀ u ∈ r.pendingUpdates, keccak256 u.pubKey = keccak256 g.pubKey → u.pubKey = g.pubKey) ∧
      r.computeVotingPower g.stake < 2 ^ 63)
    ⟨fun ⟨h1, h2, h3, h4, h5⟩ => ⟨h1, h2, h3, h4, h5⟩, fun ⟨h1, h2, h3, h4, h5⟩ =>
      ⟨h1, h2, h3, h4, h5⟩⟩

instance {power : Nat} : Decidable (Fits power) :=
  inferInstanceAs (Decidable (_ ∨ _))

instance (o : Watched T Digest) : (tx : Tx T callee) → Decidable (o.Reported keccak256 tx)
  | .registry _ (.addGenesisValidators ..) => inferInstanceAs (Decidable (_ ∧ _ ∧ _))
  | .registry _ (.register ..) => inferInstanceAs (Decidable (Fits _))
  | .registry _ (.increaseStake _) => inferInstanceAs (Decidable (_ → _))
  | .registry _ (.slash ..) => inferInstanceAs (Decidable (_ ∧ _ ∨ _ ∨ _))
  | .registry _ (.initializeRegistry ..) | .registry _ (.approveValidator _)
  | .registry _ (.revokeValidator _) | .registry _ (.setPermissionedMode _)
  | .registry _ (.updateParams ..) | .registry _ .renounceAdmin | .registry _ .startUnbonding
  | .registry _ .completeUnbonding | .registry _ .processEpoch | .token .. => isTrue trivial

/-- A message that ends an epoch. -/
def epochMsg (block : Nat) (h : block < 2 ^ 256) : Msg registryAddress where
  sender := 9
  block := block
  block_lt := h
  sender_ne_zero := by decide
  sender_ne_self := by decide

/-- A genesis validator, two that join, and one of them that leaves. -/
def genesisAndJoin : List (Option (Tx sampleToken registryAddress)) :=
  callBy 1 1 (.initializeRegistry 100 500 10 5 10) ::
  callBy 1 1 (.addGenesisValidators [4] [List.replicate 32 4] [7] ["four"]) :: joinAndLeave.tail

/-- The next epoch ends with the set of the two that are active. -/
theorem mirrors_genesisAndJoin : ∃ o o', watchedRun (Reported id) genesisAndJoin = .ok o ∧
    watch id (.registry (epochMsg 31 (by decide)) .processEpoch) o = .ok o' ∧ o'.Mirrors := by
  obtain ⟨⟨o, o'⟩, hrun, -⟩ := Exec.exists_of_test
    (x := watchedRun (Reported id) genesisAndJoin >>= fun o =>
      watch id (.registry (epochMsg 31 (by decide)) .processEpoch) o >>= fun o' => pure (o, o'))
    (p := fun _ => true) (by decide +kernel)
  obtain ⟨o₁, ho, hrun⟩ := Exec.bind_eq_ok.mp hrun
  obtain ⟨o₂, hepoch, hrun⟩ := Exec.bind_eq_ok.mp hrun
  obtain ⟨rfl, rfl⟩ := Prod.mk.inj (Exec.pure_eq_ok.mp hrun)
  exact ⟨o₁, o₂, ho, hepoch,
    mirrors_of_reported_run rfl rfl (.of_checked inferInstance ho) hepoch⟩

/-- A genesis validator is slashed from 100 to 70: the next epoch returns no update, and the
set still has 100. -/
theorem mirror_broken : ∃ o o',
    Run.Reaches (fun (tx : Tx sampleToken registryAddress) o => watch id tx o) (fun _ _ => True)
      sampleWatch o ∧
    watch id (.registry (epochMsg 31 (by decide)) .processEpoch) o = .ok o' ∧
    o'.set (List.replicate 32 4) = some 100 ∧
    (o'.staking.registry.validator 4).active = true ∧
    (o'.staking.registry.validator 4).votingPower = 70 ∧ ¬ o'.Mirrors := by
  obtain ⟨⟨o, o'⟩, hrun, ht⟩ := Exec.exists_of_test
    (x := watchedRun (fun _ _ => True) [
        callBy 1 1 (.initializeRegistry 50 500 10 5 10),
        callBy 1 1 (.addGenesisValidators [4] [List.replicate 32 4] [100] ["four"]),
        callBy 1 2 (.slash 4 30)] >>= fun o =>
      watch id (.registry (epochMsg 31 (by decide)) .processEpoch) o >>= fun o' => pure (o, o'))
    (p := fun (_, o') => o'.set (List.replicate 32 4) = some 100 ∧
      (o'.staking.registry.validator 4).active = true ∧
      (o'.staking.registry.validator 4).votingPower = 70 ∧
      (o'.staking.registry.validator 4).pubKey = List.replicate 32 4) (by decide +kernel)
  obtain ⟨o₁, ho, hrun⟩ := Exec.bind_eq_ok.mp hrun
  obtain ⟨o₂, hepoch, hrun⟩ := Exec.bind_eq_ok.mp hrun
  obtain ⟨rfl, rfl⟩ := Prod.mk.inj (Exec.pure_eq_ok.mp hrun)
  obtain ⟨hset, hactive, hpower, hkey⟩ := of_decide_eq_true ht
  refine ⟨o₁, o₂, .of_checked inferInstance ho, hepoch, hset, hactive, hpower, fun hmirrors => ?_⟩
  have hstated := (hmirrors.1 4 hactive).2
  rw [hkey, hset, hpower] at hstated
  cases hstated

end Watched

end Hypercore.Contracts
