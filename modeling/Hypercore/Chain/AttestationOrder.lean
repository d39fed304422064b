import Hypercore.Chain.Attestation
/-!
# Hypercore.Chain.AttestationOrder

The verdict of a collector on a height, and the order in which its messages come.

Every check counts the attestations that are there and compares with our own hash if it is
there; recording our hash makes no check. With all attestations in, the order matters for
one thing only, whether our hash came before the last of them (`replay_eq`). So the verdict
is the same in every order exactly when the votes do not put us in the minority.
-/

namespace Hypercore

open Exec Int128

/-- What a collector concludes for a height. -/
structure Verdict where
  quorum : Bool
  divergence : Bool
  minority : Bool
  deriving DecidableEq

/-- Before any check. -/
def Verdict.none : Verdict := ⟨false, false, false⟩

def Check.verdict : Check → Verdict
  | .noQuorum => .none
  | .allAgree => ⟨true, false, false⟩
  | .divergence alert => ⟨true, true, alert.weAreMinority⟩

namespace AttestationCollector

/-! ### A check -/

/-- The votes of the known validators. -/
def ballots (validators : FinMap Bytes32 Nat) (atts : List StateAttestation) :
    List (Bytes32 × Nat) :=
  atts.filterMap fun a => (validators[a.validatorPubkey]?).map (a.appHash, ·)

/-- The verdict that the votes give, with our own hash if it is known. -/
def verdictOf (config : AttestationConfig) (validators : FinMap Bytes32 Nat)
    (votes : List (Bytes32 × Nat)) (our : Option Bytes32) : Verdict :=
  let quorum : Bool := decide (power validators ≠ 0 ∧
    config.quorumThreshold ≤ (Tally.weight votes : ℚ) / power validators)
  let divergence : Bool := quorum && decide (1 < (Tally.tally votes).size)
  ⟨quorum, divergence, divergence && match our, Tally.top (Tally.tally votes) with
    | some our, some majority => decide (our ≠ majority)
    | _, _ => false⟩

section Count

variable {validators : FinMap Bytes32 Nat} {atts : List StateAttestation}

theorem u64_eq_panic {n : Nat} (h : ¬ n < 2 ^ 64) : u64 n = .error .panic := if_neg h

/-- Counting halts when the votes together are out of range; no single count is before. -/
theorem foldlM_countVotes (validators : FinMap Bytes32 Nat) (atts : List StateAttestation)
    (m : FinMap Bytes32 Nat) (t : Nat)
    (hm : ∀ k : Bytes32, (m[k]?).getD 0 ≤ t) (ht : t < 2 ^ 64) :
    atts.foldlM (fun (x : FinMap Bytes32 Nat × Nat) att =>
      match validators[att.validatorPubkey]? with
      | none => (return (x.1, x.2) : Exec (FinMap Bytes32 Nat × Nat))
      | some power => do
        let votes ← u64 ((x.1[att.appHash]?).getD 0 + power)
        let totalVoted ← u64 (x.2 + power)
        return (x.1.insert att.appHash votes, totalVoted)) (m, t) =
      if t + Tally.weight (ballots validators atts) < 2 ^ 64 then
        .ok ((ballots validators atts).foldl Tally.count m,
          t + Tally.weight (ballots validators atts))
      else .error .panic := by
  induction atts generalizing m t with
  | nil =>
    have hnil : Tally.weight (ballots validators []) = 0 := rfl
    rw [hnil, Nat.add_zero, if_pos ht]
    rfl
  | cons a atts ih =>
    rw [List.foldlM_cons]
    cases hv : validators[a.validatorPubkey]? with
    | none =>
      have hb : ballots validators (a :: atts) = ballots validators atts := by simp [ballots, hv]
      rw [hb]
      exact ih m t hm ht
    | some p =>
      have hb : ballots validators (a :: atts) = (a.appHash, p) :: ballots validators atts := by
        simp [ballots, hv]
      have hw : Tally.weight (ballots validators (a :: atts)) =
          p + Tally.weight (ballots validators atts) := by
        rw [hb]
        rfl
      have hle := hm a.appHash
      dsimp only
      by_cases hfit : t + p < 2 ^ 64
      · rw [u64_eq_ok.mpr ⟨by omega, rfl⟩, ok_bind, u64_eq_ok.mpr ⟨hfit, rfl⟩, ok_bind, hw,
          ← Nat.add_assoc, hb, List.foldl_cons]
        refine ih _ _ (fun k => ?_) hfit
        rw [FinMap.get_insert]
        split
        · rw [Option.getD_some]
          omega
        · exact (hm k).trans (Nat.le_add_right _ _)
      · rw [if_neg (by omega), u64_eq_panic hfit]
        by_cases hone : (m[a.appHash]?).getD 0 + p < 2 ^ 64
        · rw [u64_eq_ok.mpr ⟨hone, rfl⟩]
          rfl
        · rw [u64_eq_panic hone]
          rfl

theorem countVotes_eq : countVotes validators atts =
    if Tally.weight (ballots validators atts) < 2 ^ 64 then
      .ok (Tally.tally (ballots validators atts), Tally.weight (ballots validators atts))
    else .error .panic := by
  have h := foldlM_countVotes validators atts ∅ 0
    (fun k => by rw [FinMap.get_empty]; exact Nat.le_refl _) (by decide)
  rw [Nat.zero_add] at h
  exact h

/-- **A check** reads the votes and our own hash. -/
theorem checkDivergence_verdict {c : AttestationCollector} {h : Nat}
    (hl : c.attestations[h]? = some atts) : (c.checkDivergence h).map Check.verdict =
      if Tally.weight (ballots c.validators atts) < 2 ^ 64 ∧ power c.validators < 2 ^ 64 then
        .ok (verdictOf c.config c.validators (ballots c.validators atts) c.ourHashes[h]?)
      else .error .panic := by
  unfold checkDivergence
  rw [hl]
  dsimp only
  rw [countVotes_eq]
  by_cases hw : Tally.weight (ballots c.validators atts) < 2 ^ 64
  · rw [if_pos hw, ok_bind, totalVotingPower]
    by_cases hp : power c.validators < 2 ^ 64
    · have hfits : Tally.weight (ballots c.validators atts) < 2 ^ 64 ∧
        power c.validators < 2 ^ 64 := ⟨hw, hp⟩
      rw [u64_eq_ok.mpr ⟨hp, rfl⟩, ok_bind, if_pos hfits]
      unfold verdictOf
      by_cases hzero : power c.validators = 0
      · rw [if_pos hzero]
        simp only [hzero, ne_eq, not_true_eq_false, false_and, decide_false, Bool.false_and]
        rfl
      rw [if_neg hzero]
      by_cases hlt : (Tally.weight (ballots c.validators atts) : ℚ) / power c.validators <
          c.config.quorumThreshold
      · rw [if_pos hlt]
        simp only [not_le.mpr hlt, and_false, decide_false, Bool.false_and]
        rfl
      rw [if_neg hlt]
      by_cases hsize : (Tally.tally (ballots c.validators atts)).size ≤ 1
      · rw [if_pos hsize]
        simp only [hzero, ne_eq, not_false_eq_true, not_lt.mp hlt, and_self, decide_true,
          not_lt.mpr hsize, decide_false, Bool.and_false, Bool.false_and]
        rfl
      · rw [if_neg hsize]
        simp only [hzero, ne_eq, not_false_eq_true, not_lt.mp hlt, and_self, decide_true,
          not_le.mp hsize, Bool.and_true, Bool.true_and]
        rfl
    · have hfits : ¬ (Tally.weight (ballots c.validators atts) < 2 ^ 64 ∧
        power c.validators < 2 ^ 64) := fun h => hp h.2
      rw [u64_eq_panic hp, if_neg hfits]
      rfl
  · rw [if_neg hw, if_neg (fun h => hw h.1)]
    rfl

end Count

/-! ### Arrivals -/

/-- A message about a height: our own hash for it, or an attestation. -/
inductive Arrival
  | ourHash
  | attestation (a : StateAttestation)

/-- A message about height `h` arrives; the verdict is the one of the last check. -/
def arrive (ed : Ed25519) (h : Nat) (our : Bytes32) (x : AttestationCollector × Verdict) :
    Arrival → Exec (AttestationCollector × Verdict)
  | .ourHash => return (x.1.recordOurHash h our, x.2)
  | .attestation a => do
    let (r, c) ← x.1.processAttestation ed a
    match r with
    | .ok (some check) => return (c, check.verdict)
    | _ => return (c, x.2)

/-- The verdict after all messages. -/
def finalVerdict (ed : Ed25519) (h : Nat) (our : Bytes32) (c : AttestationCollector)
    (es : List Arrival) : Exec Verdict :=
  (es.foldlM (arrive ed h our) (c, .none)).map (·.2)

/-- Our own hash, and attestations. -/
def arrivals (atts : List StateAttestation) : List Arrival := .ourHash :: atts.map .attestation

/-- **Order.** The verdict is the same in every order of arrival, and a minority verdict means
that another hash has more voting power than ours. -/
structure OrderFree (ed : Ed25519) (c : AttestationCollector) (h : Nat) (our : Bytes32)
    (atts : List StateAttestation) : Prop where
  same : ∀ es es', es.Perm (arrivals atts) → es'.Perm (arrivals atts) →
    finalVerdict ed h our c es = finalVerdict ed h our c es'
  strict : ∀ es v, es.Perm (arrivals atts) → finalVerdict ed h our c es = .ok v →
    v.minority = true → ∃ g, g ≠ our ∧ Tally.weightOf (ballots c.validators atts) our <
      Tally.weightOf (ballots c.validators atts) g

/-- The collector checks the height, and the votes reach the quorum, are for different hashes,
and beat ours: another hash has more voting power, or as much and is the later one. -/
structure Outvoted (c : AttestationCollector) (h : Nat) (our : Bytes32)
    (atts : List StateAttestation) : Prop where
  enabled : c.config.enabled = true
  recent : c.ourLatestHeight ≤ h + c.config.retentionBlocks
  inRange : h + c.config.retentionBlocks < 2 ^ 64 ∧
    Tally.weight (ballots c.validators atts) < 2 ^ 64 ∧ power c.validators < 2 ^ 64
  quorum : power c.validators ≠ 0 ∧ c.config.quorumThreshold ≤
    (Tally.weight (ballots c.validators atts) : ℚ) / power c.validators
  split : ∃ b ∈ ballots c.validators atts, ∃ b' ∈ ballots c.validators atts, b.1 ≠ b'.1
  beaten : Tally.Beaten (Tally.tally (ballots c.validators atts)) our

/-- The attestations among the messages. -/
def attested (es : List Arrival) : List StateAttestation :=
  es.filterMap fun
    | .attestation a => some a
    | .ourHash => none

theorem attested_arrivals (atts : List StateAttestation) : attested (arrivals atts) = atts := by
  unfold attested arrivals
  rw [List.filterMap_cons_none rfl, List.filterMap_map]
  exact List.filterMap_some

theorem attested_perm {es : List Arrival} {atts : List StateAttestation}
    (h : es.Perm (arrivals atts)) : (attested es).Perm atts := by
  have hperm := h.filterMap fun
    | .attestation a => some a
    | .ourHash => none
  rw [← attested_arrivals atts]
  exact hperm

/-- The verdict after all messages, when every attestation is judged with those before it and
with whether our own hash is known by then. -/
def replay (judge : List StateAttestation → Bool → Exec Verdict) :
    List StateAttestation → Bool → Verdict → List Arrival → Exec Verdict
  | _, _, v, [] => .ok v
  | l, known, _, .attestation a :: es => do
    let v ← judge (l ++ [a]) known
    replay judge (l ++ [a]) known v es
  | l, _, v, .ourHash :: es => replay judge l true v es

section Replay

variable {judge : List StateAttestation → Bool → Exec Verdict} {es : List Arrival}
  (l : List StateAttestation) (known : Bool) (v : Verdict)

/-- Our own hash makes no check. -/
theorem replay_concat_ourHash :
    replay judge l known v (es ++ [.ourHash]) = replay judge l known v es := by
  induction es generalizing l known v with
  | nil => rfl
  | cons e es ih =>
    cases e with
    | attestation a =>
      rw [List.cons_append, replay, replay]
      exact congrArg _ (funext fun v' => ih (l ++ [a]) known v')
    | ourHash => exact ih l true v

theorem replay_of_attested_nil (h : attested es = []) : replay judge l known v es = .ok v := by
  induction es generalizing known with
  | nil => rfl
  | cons e es ih =>
    cases e with
    | attestation a => simp [attested] at h
    | ourHash => exact ih true h

/-- **Replay.** In the end all attestations are judged together. Our own hash was known before
them, or came on the way. -/
theorem replay_eq (es : List Arrival) (l : List StateAttestation) (known : Bool) (v : Verdict)
    (hmono : ∀ l l' k k' x, judge l k = .error x → judge (l ++ l') k' = .error x)
    (hne : attested es ≠ []) :
    ∃ k, (k = known ∨ (k = true ∧ .ourHash ∈ es)) ∧
      replay judge l known v es = judge (l ++ attested es) k := by
  induction es generalizing l known v with
  | nil => exact absurd rfl hne
  | cons e es ih =>
    cases e with
    | attestation a =>
      have hatt : attested (.attestation a :: es) = a :: attested es := rfl
      rw [hatt, replay]
      cases hj : judge (l ++ [a]) known with
      | error x =>
        refine ⟨known, .inl rfl, ?_⟩
        have hall := hmono _ (attested es) known known x hj
        rw [List.append_assoc, List.singleton_append] at hall
        exact hall.symm
      | ok v' =>
        rw [ok_bind]
        by_cases hlast : attested es = []
        · rw [hlast, replay_of_attested_nil _ _ _ hlast]
          exact ⟨known, .inl rfl, hj.symm⟩
        · obtain ⟨k, hk, hreplay⟩ := ih (l ++ [a]) known v' hlast
          rw [List.append_assoc, List.singleton_append] at hreplay
          exact ⟨k, hk.imp id fun h => ⟨h.1, .tail _ h.2⟩, hreplay⟩
    | ourHash =>
      obtain ⟨k, hk, hreplay⟩ := ih l true v hne
      exact ⟨k, .inr ⟨hk.elim id (·.1), .head _⟩, hreplay⟩

end Replay

/-! ### A collector replays its messages -/

/-- How the attestations of a height are judged. -/
def judge (c : AttestationCollector) (h : Nat) (our : Bytes32) (l : List StateAttestation)
    (known : Bool) : Exec Verdict :=
  if h + c.config.retentionBlocks < 2 ^ 64 ∧ Tally.weight (ballots c.validators l) < 2 ^ 64 ∧
      power c.validators < 2 ^ 64 then
    .ok (verdictOf c.config c.validators (ballots c.validators l)
      (if known then some our else none))
  else .error .panic

theorem judge_mono (c : AttestationCollector) (h : Nat) (our : Bytes32)
    (l l' : List StateAttestation) (k k' : Bool) (x : Halt)
    (hx : judge c h our l k = .error x) : judge c h our (l ++ l') k' = .error x := by
  have hweight : Tally.weight (ballots c.validators l) ≤
      Tally.weight (ballots c.validators (l ++ l')) := by
    unfold ballots Tally.weight
    rw [List.filterMap_append, List.map_append, List.sum_append]
    exact Nat.le_add_right _ _
  unfold judge at hx ⊢
  split at hx
  · cases hx
  · rename_i hnot
    rw [if_neg fun hfits => hnot ⟨hfits.1, by omega, hfits.2.2⟩]
    exact hx

theorem judge_perm {c : AttestationCollector} {h : Nat} {our : Bytes32}
    {l l' : List StateAttestation} {k : Bool} (hperm : l.Perm l') :
    judge c h our l k = judge c h our l' k := by
  have hb : (ballots c.validators l).Perm (ballots c.validators l') := hperm.filterMap _
  unfold judge verdictOf
  rw [Tally.weight_perm hb, Tally.tally_perm hb]

/-- A collector that has received some messages about a height. -/
structure Received (c₀ : AttestationCollector) (h : Nat) (our : Bytes32)
    (l : List StateAttestation) (known : Bool) (c : AttestationCollector) : Prop where
  config : c.config = c₀.config
  validators : c.validators = c₀.validators
  stored : c.getAttestations h = l
  ours : c.ourHashes[h]? = if known then some our else none
  recent : h + c₀.config.retentionBlocks < 2 ^ 64 →
    c.ourLatestHeight ≤ h + c₀.config.retentionBlocks

/-- An attestation for the height, signed by a known validator. -/
def Valid (ed : Ed25519) (c : AttestationCollector) (h : Nat) (a : StateAttestation) : Prop :=
  a.height = h ∧ a.verify ed = true ∧ (c.validators[a.validatorPubkey]?).isSome = true

section Steps

variable {ed : Ed25519} {c₀ c : AttestationCollector} {h : Nat} {our : Bytes32}
  {l : List StateAttestation} {known : Bool} {v : Verdict} {a : StateAttestation}

theorem Received.recordOurHash (hc : Received c₀ h our l known c) :
    Received c₀ h our l true (c.recordOurHash h our) where
  config := hc.config
  validators := hc.validators
  stored := hc.stored
  ours := by rw [get_recordOurHash, if_pos (Nat.sub_le _ _), if_pos rfl, if_pos rfl]
  recent hfits := ourLatestHeight_recordOurHash_le_iff.mpr ⟨Nat.le_add_right _ _, hc.recent hfits⟩

/-- An attestation of another validator is stored, and all are judged. -/
theorem Received.attestation (hc : Received c₀ h our l known c) (hon : c₀.config.enabled = true)
    (ha : Valid ed c₀ h a) (hnew : ∀ b ∈ l, b.validatorPubkey ≠ a.validatorPubkey) :
    Received c₀ h our (l ++ [a]) known (c.store a) ∧
      arrive ed h our (c, v) (.attestation a) =
        (judge c₀ h our (l ++ [a]) known).map (c.store a, ·) := by
  obtain ⟨rfl, hsig, hsome⟩ := ha
  have hstored : (c.store a).attestations[a.height]? = some (l ++ [a]) := by
    unfold store
    rw [Std.ExtTreeMap.getElem?_filter', FinMap.get_insert_self, hc.stored]
    simp
  have hreceived : Received c₀ a.height our (l ++ [a]) known (c.store a) :=
    ⟨hc.config, hc.validators, by rw [getAttestations, hstored]; rfl, hc.ours, hc.recent⟩
  refine ⟨hreceived, ?_⟩
  have hdup : c.isDuplicate a = false := by
    unfold isDuplicate
    rw [hc.stored, List.any_eq_false]
    intro b hb
    simpa using hnew b hb
  have hon' : c.config.enabled = true := by rw [hc.config, hon]
  have hsome' : (c.validators[a.validatorPubkey]?).isSome = true := by rw [hc.validators, hsome]
  rw [arrive, judge]
  by_cases hfits : a.height + c₀.config.retentionBlocks < 2 ^ 64
  · have hrecent : c.ourLatestHeight ≤ a.height + c.config.retentionBlocks := by
      rw [hc.config]
      exact hc.recent hfits
    have hcheck := checkDivergence_verdict hstored
    rw [store_config, store_validators, store_ourHashes, hc.config, hc.validators,
      hc.ours] at hcheck
    rw [processAttestation_of_accepts ⟨hon', hsig, hsome', hrecent, hdup⟩
        (by rw [hc.config]; exact hfits),
      if_congr (and_iff_right hfits) rfl rfl, ← hcheck]
    cases (c.store a).checkDivergence a.height <;> rfl
  · rw [processAttestation_overflow hon' hsig hsome' (by rw [hc.config]; exact hfits),
      if_neg fun h => hfits h.1]
    rfl

/-- What is not checked leaves the verdict. -/
theorem finalVerdict_ignored {es : List Arrival}
    (hvalid : ∀ a ∈ attested es, Valid ed c h a)
    (hignored : c.config.enabled = false ∨ (h + c.config.retentionBlocks < 2 ^ 64 ∧
      h + c.config.retentionBlocks < c.ourLatestHeight)) :
    (es.foldlM (arrive ed h our) (c, v)).map (·.2) = .ok v := by
  induction es generalizing c with
  | nil => rfl
  | cons e es ih =>
    cases e with
    | ourHash =>
      refine ih (c := c.recordOurHash h our) hvalid (hignored.imp id fun hi => ⟨hi.1, ?_⟩)
      by_contra hle
      exact absurd hi.2
        (not_lt.mpr (ourLatestHeight_recordOurHash_le_iff.mp (not_lt.mp hle)).2)
    | attestation a =>
      obtain ⟨hh, hsig, hsome⟩ := hvalid a (.head _)
      obtain ⟨r, hr, hnone⟩ := processAttestation_ignored hsig hsome (hh ▸ hignored)
      have harrive : arrive ed h our (c, v) (.attestation a) = .ok (c, v) := by
        rw [arrive, hr, ok_bind]
        cases r with
        | error x => rfl
        | ok o =>
          cases o with
          | none => rfl
          | some check => exact absurd rfl (hnone check)
      rw [List.foldlM_cons, harrive, ok_bind]
      exact ih (fun b hb => hvalid b (.tail _ hb)) hignored

/-- **Simulation.** The collector replays its messages. -/
theorem foldlM_arrive {es : List Arrival} (hc : Received c₀ h our l known c)
    (hon : c₀.config.enabled = true) (hvalid : ∀ a ∈ attested es, Valid ed c₀ h a)
    (hnodup : ((l ++ attested es).map (·.validatorPubkey)).Nodup) :
    (es.foldlM (arrive ed h our) (c, v)).map (·.2) = replay (judge c₀ h our) l known v es := by
  induction es generalizing c l known v with
  | nil => rfl
  | cons e es ih =>
    cases e with
    | ourHash => exact ih hc.recordOurHash hvalid hnodup
    | attestation a =>
      have hatt : attested (.attestation a :: es) = a :: attested es := rfl
      rw [hatt] at hvalid hnodup
      have hnew : ∀ b ∈ l, b.validatorPubkey ≠ a.validatorPubkey := by
        intro b hb he
        rw [List.map_append, List.nodup_append] at hnodup
        exact hnodup.2.2 _ (List.mem_map_of_mem hb) _ (List.mem_map_of_mem List.mem_cons_self) he
      obtain ⟨hreceived, harrive⟩ := hc.attestation hon (hvalid a (.head _)) hnew (v := v)
      rw [List.foldlM_cons, harrive, replay]
      cases hj : judge c₀ h our (l ++ [a]) known with
      | error x => rfl
      | ok v' =>
        exact ih hreceived (fun b hb => hvalid b (.tail _ hb)) (by
          rwa [List.append_assoc, List.singleton_append])

end Steps

section Order

variable {ed : Ed25519} {c : AttestationCollector} {h : Nat} {our : Bytes32}
  {atts : List StateAttestation}
variable {votes : List (Bytes32 × Nat)}

theorem verdictOf_none_minority {config : AttestationConfig} {validators : FinMap Bytes32 Nat} :
    (verdictOf config validators votes none).minority = false := by
  unfold verdictOf
  exact Bool.and_false _

theorem one_lt_size_iff :
    1 < (Tally.tally votes).size ↔ ∃ b ∈ votes, ∃ b' ∈ votes, b.1 ≠ b'.1 := by
  rw [← not_le, Tally.size_tally_le_one_iff]
  push Not
  exact Iff.rfl

/-- We are in the minority when the votes reach the quorum, differ and beat our hash. -/
theorem verdictOf_minority_iff {config : AttestationConfig} {validators : FinMap Bytes32 Nat} :
    (verdictOf config validators votes (some our)).minority = true ↔
      (power validators ≠ 0 ∧
        config.quorumThreshold ≤ (Tally.weight votes : ℚ) / power validators) ∧
      (∃ b ∈ votes, ∃ b' ∈ votes, b.1 ≠ b'.1) ∧ Tally.Beaten (Tally.tally votes) our := by
  unfold verdictOf
  rw [Bool.and_eq_true, Bool.and_eq_true, decide_eq_true_eq, decide_eq_true_eq, one_lt_size_iff,
    and_assoc, ← Tally.top_ne_iff]
  refine and_congr_right fun _ => and_congr_right fun _ => ?_
  cases Tally.top (Tally.tally votes) with
  | none => simp
  | some g =>
    constructor
    · intro hne
      exact ⟨g, rfl, Ne.symm (of_decide_eq_true hne)⟩
    · rintro ⟨g', hg, hne⟩
      obtain rfl := Option.some.inj hg
      exact decide_eq_true (Ne.symm hne)

/-- Our hash matters exactly when the votes beat it. -/
theorem judge_known_eq_iff (hon : c.config.enabled = true)
    (hrecent : h + c.config.retentionBlocks < 2 ^ 64 →
      c.ourLatestHeight ≤ h + c.config.retentionBlocks) :
    judge c h our atts true = judge c h our atts false ↔ ¬ Outvoted c h our atts := by
  unfold judge
  by_cases hfits : h + c.config.retentionBlocks < 2 ^ 64 ∧
      Tally.weight (ballots c.validators atts) < 2 ^ 64 ∧ power c.validators < 2 ^ 64
  · have houtvoted : Outvoted c h our atts ↔ (verdictOf c.config c.validators
        (ballots c.validators atts) (some our)).minority = true := by
      rw [verdictOf_minority_iff]
      constructor
      · intro ho
        exact ⟨ho.quorum, ho.split, ho.beaten⟩
      · rintro ⟨h1, h2, h3⟩
        exact ⟨hon, hrecent hfits.1, hfits, h1, h2, h3⟩
    rw [if_pos hfits, if_pos hfits, houtvoted]
    constructor
    · intro heq hmin
      rw [if_pos rfl, if_neg Bool.false_ne_true] at heq
      rw [Except.ok.inj heq, verdictOf_none_minority] at hmin
      cases hmin
    · intro hmin
      -- the verdicts agree on the rest
      have hrest : verdictOf c.config c.validators (ballots c.validators atts) (some our) =
          ⟨(verdictOf c.config c.validators (ballots c.validators atts) none).quorum,
            (verdictOf c.config c.validators (ballots c.validators atts) none).divergence,
            (verdictOf c.config c.validators (ballots c.validators atts) (some our)).minority⟩ :=
        rfl
      rw [if_pos rfl, if_neg Bool.false_ne_true, hrest, Bool.eq_false_of_not_eq_true hmin,
        ← verdictOf_none_minority]
  · rw [if_neg hfits, if_neg hfits]
    exact iff_of_true rfl fun ho => hfits ho.inRange

/-- **Arrival order.** For attestations of a height by different validators, and a collector
that has received nothing about the height, the verdict is the same in every order, and a
minority verdict justified, exactly when the votes do not put us in the minority. -/
theorem orderFree_iff (hstored : c.getAttestations h = []) (hours : c.ourHashes[h]? = none)
    (hvalid : ∀ a ∈ atts, Valid ed c h a) (hnodup : (atts.map (·.validatorPubkey)).Nodup) :
    OrderFree ed c h our atts ↔ ¬ Outvoted c h our atts := by
  have hmem : ∀ es : List Arrival, es.Perm (arrivals atts) → ∀ a ∈ attested es, Valid ed c h a :=
    fun es hes a ha => hvalid a ((attested_perm hes).mem_iff.mp ha)
  -- one verdict for all orders, without a minority, is enough
  have hconst : ∀ x : Exec Verdict, (∀ v, x = .ok v → v.minority = false) →
      (∀ es : List Arrival, es.Perm (arrivals atts) → finalVerdict ed h our c es = x) →
      OrderFree ed c h our atts := by
    intro x hx hall
    refine ⟨fun es es' hes hes' => (hall es hes).trans (hall es' hes').symm, ?_⟩
    intro es v hes hv hmin
    rw [hx v ((hall es hes).symm.trans hv)] at hmin
    cases hmin
  by_cases hchecked : c.config.enabled = true ∧ (h + c.config.retentionBlocks < 2 ^ 64 →
      c.ourLatestHeight ≤ h + c.config.retentionBlocks)
  · obtain ⟨hon, hrecent⟩ := hchecked
    have hreceived : Received c h our [] false c := ⟨rfl, rfl, hstored, hours, hrecent⟩
    have hreplay : ∀ es : List Arrival, es.Perm (arrivals atts) →
        finalVerdict ed h our c es = replay (judge c h our) [] false .none es := by
      intro es hes
      refine foldlM_arrive hreceived hon (hmem es hes) ?_
      rw [List.nil_append]
      exact ((attested_perm hes).map _).nodup_iff.mpr hnodup
    by_cases hatts : atts = []
    · refine iff_of_true (hconst (.ok .none) ?_ ?_) ?_
      · intro v hv
        obtain rfl := Except.ok.inj hv
        rfl
      · intro es hes
        rw [hreplay es hes]
        refine replay_of_attested_nil _ _ _ (List.Perm.eq_nil ?_)
        rw [← hatts]
        exact attested_perm hes
      · intro ho
        obtain ⟨b, hb, -⟩ := ho.split
        rw [hatts] at hb
        cases hb
    · -- the verdict depends on whether our own hash was known
      have hjudged : ∀ es : List Arrival, es.Perm (arrivals atts) → ∃ k : Bool,
          finalVerdict ed h our c es = judge c h our atts k := by
        intro es hes
        have hne : attested es ≠ [] := fun hnil => hatts (by
          have hperm := attested_perm hes
          rw [hnil] at hperm
          exact List.nil_perm.mp hperm)
        obtain ⟨k, -, hk⟩ := replay_eq es [] false .none (judge_mono c h our) hne
        exact ⟨k, by rw [hreplay es hes, hk, List.nil_append, judge_perm (attested_perm hes)]⟩
      rw [← judge_known_eq_iff hon hrecent]
      constructor
      · intro hfree
        have hne : attested (atts.map .attestation) = atts := attested_arrivals atts
        -- our hash first
        have hfirst : finalVerdict ed h our c (arrivals atts) = judge c h our atts true := by
          obtain ⟨k, hk, hlast⟩ := replay_eq (atts.map .attestation) [] true .none
            (judge_mono c h our) (by rw [hne]; exact hatts)
          rw [hne, List.nil_append, hk.elim id (·.1)] at hlast
          rw [hreplay _ (.refl _), ← hlast]
          rfl
        -- our hash last
        have hlate : finalVerdict ed h our c (atts.map .attestation ++ [.ourHash]) =
            judge c h our atts false := by
          obtain ⟨k, hk, hlast⟩ := replay_eq (atts.map .attestation) [] false .none
            (judge_mono c h our) (by rw [hne]; exact hatts)
          rw [hne, List.nil_append, hk.resolve_right (by simp)] at hlast
          rw [hreplay _ (List.perm_append_singleton _ _), replay_concat_ourHash, hlast]
        rw [← hfirst, ← hlate]
        exact hfree.same _ _ (.refl _) (List.perm_append_singleton _ _)
      · intro heq
        refine hconst (judge c h our atts false) ?_ ?_
        · intro v hv
          unfold judge at hv
          split at hv
          · obtain rfl := Except.ok.inj hv
            exact verdictOf_none_minority
          · cases hv
        · intro es hes
          obtain ⟨k, hk⟩ := hjudged es hes
          cases k with
          | true => rw [hk, heq]
          | false => exact hk
  · refine iff_of_true (hconst (.ok .none) ?_ ?_) ?_
    · intro v hv
      obtain rfl := Except.ok.inj hv
      rfl
    · intro es hes
      refine finalVerdict_ignored (hmem es hes) ?_
      by_cases hon : c.config.enabled = true
      · push Not at hchecked
        exact .inr (hchecked hon)
      · exact .inl (Bool.eq_false_of_not_eq_true hon)
    · intro ho
      exact hchecked ⟨ho.enabled, fun _ => ho.recent⟩

end Order

open CollectorLog (attest repeated)

/-- Three validators of one vote each. -/
def threeValidators : AttestationCollector :=
  (((new .default).addValidator (repeated 1) 1).addValidator (repeated 2) 1).addValidator
    (repeated 3) 1

/-- Votes for height 5: two for hash 8 and one for another. -/
def threeAttestations (appHash : UInt8) : List StateAttestation :=
  [attest 5 8 1, attest 5 8 2, attest 5 appHash 3]

/-- With the majority on our side the order does not matter. -/
theorem orderFree_majority :
    OrderFree (fun _ _ _ => true) threeValidators 5 (repeated 8) (threeAttestations 9) := by
  refine (orderFree_iff (by decide +kernel) (by decide +kernel) ?_ (by decide +kernel)).mpr ?_
  · intro a ha
    have hall : ∀ a ∈ threeAttestations 9, Valid (fun _ _ _ => true) threeValidators 5 a := by
      unfold Valid
      decide +kernel
    exact hall a ha
  · intro ho
    have hmin := verdictOf_minority_iff.mpr ⟨ho.quorum, ho.split, ho.beaten⟩
    revert hmin
    decide +kernel

/-- When our hash is the one of the single vote we are in the minority, unless our hash comes
last. -/
theorem late_hash_unnoticed :
    finalVerdict (fun _ _ _ => true) 5 (repeated 9) threeValidators
      (arrivals (threeAttestations 9)) = .ok ⟨true, true, true⟩ ∧
    finalVerdict (fun _ _ _ => true) 5 (repeated 9) threeValidators
      ((threeAttestations 9).map .attestation ++ [.ourHash]) = .ok ⟨true, true, false⟩ ∧
    ¬ OrderFree (fun _ _ _ => true) threeValidators 5 (repeated 9) (threeAttestations 9) := by
  have hfirst : finalVerdict (fun _ _ _ => true) 5 (repeated 9) threeValidators
      (arrivals (threeAttestations 9)) = .ok ⟨true, true, true⟩ := by decide +kernel
  have hlate : finalVerdict (fun _ _ _ => true) 5 (repeated 9) threeValidators
      ((threeAttestations 9).map .attestation ++ [.ourHash]) = .ok ⟨true, true, false⟩ := by
    decide +kernel
  refine ⟨hfirst, hlate, fun hfree => ?_⟩
  have hsame := hfree.same _ _ (.refl _) (List.perm_append_singleton _ _)
  rw [hfirst, hlate] at hsame
  cases hsame

end AttestationCollector

end Hypercore
