import Hypercore.Lib.Run
import Hypercore.Lib.Tally
import Hypercore.Primitives.Keccak
import Mathlib.Algebra.Order.Field.Rat
/-!
# Hypercore.Chain.Attestation

Attestations of the state after a block, and the collector that compares them.

An accepted attestation is stored under its height, and everything more than the retention
below that height is dropped; the height is the sender's choice. A validator is stored once
for a height in every run. The attestations in the window below our own latest height stay
stored along a run exactly when no accepted one is for a height too far above them.
-/

namespace Hypercore

open Exec Int128

/-- A string of 64 bytes. -/
abbrev Bytes64 := { bytes : List UInt8 // bytes.length = 64 }

/-- Whether a public key, read from its bytes, accepts a signature of a message. -/
abbrev Ed25519 := Bytes32 → List UInt8 → Bytes64 → Bool

/-- State attestation broadcast after each block commit. -/
structure StateAttestation where
  height : Nat
  /-- The app hash that this validator computed. -/
  appHash : Bytes32
  validatorPubkey : Bytes32
  signature : Bytes64
  timestamp : Nat
  deriving DecidableEq

namespace StateAttestation

/-- Height, app hash and timestamp. -/
def buildSigningMessage (height : Nat) (appHash : Bytes32) (timestamp : Nat) : List UInt8 :=
  leBytes 8 height ++ appHash.val ++ leBytes 8 timestamp

def verify (ed : Ed25519) (a : StateAttestation) : Bool :=
  ed a.validatorPubkey (buildSigningMessage a.height a.appHash a.timestamp) a.signature

end StateAttestation

structure AttestationConfig where
  /-- Number of blocks to keep attestations for. -/
  retentionBlocks : Nat
  /-- Quorum threshold as a fraction. -/
  quorumThreshold : ℚ
  enabled : Bool

/-- `AttestationConfig::default`. -/
def AttestationConfig.default : AttestationConfig := ⟨100, 67 / 100, true⟩

/-- Alert sent when state divergence is detected. -/
structure DivergenceAlert where
  height : Nat
  ourHash : Bytes32
  majorityHash : Option Bytes32
  attestations : List StateAttestation
  weAreMinority : Bool
  hashVotes : FinMap Bytes32 Nat

inductive AttestationError
  | invalidSignature
  | unknownValidator
  | heightTooOld
  | duplicateAttestation
  deriving DecidableEq

/-- What a check for divergence comes to. -/
inductive Check
  | noQuorum
  | allAgree
  | divergence (alert : DivergenceAlert)

structure AttestationCollector where
  attestations : FinMap Nat (List StateAttestation)
  /-- Known validators and their voting power. -/
  validators : FinMap Bytes32 Nat
  /-- Our computed app hash per height. -/
  ourHashes : FinMap Nat Bytes32
  config : AttestationConfig

namespace AttestationCollector

def new (config : AttestationConfig) : AttestationCollector := ⟨∅, ∅, ∅, config⟩

def addValidator (c : AttestationCollector) (pubkey : Bytes32) (votingPower : Nat) :
    AttestationCollector :=
  { c with validators := c.validators.insert pubkey votingPower }

def removeValidator (c : AttestationCollector) (pubkey : Bytes32) : AttestationCollector :=
  { c with validators := c.validators.erase pubkey }

def updateValidatorPower (c : AttestationCollector) (pubkey : Bytes32) (votingPower : Nat) :
    AttestationCollector :=
  if votingPower = 0 then c.removeValidator pubkey else c.addValidator pubkey votingPower

/-- The voting power of all validators. -/
def power (validators : FinMap Bytes32 Nat) : Nat := (validators.toList.map (·.2)).sum

def totalVotingPower (c : AttestationCollector) : Exec Nat := u64 (power c.validators)

/-- Record our own app hash for a height, and clean up old ones. -/
def recordOurHash (c : AttestationCollector) (height : Nat) (appHash : Bytes32) :
    AttestationCollector :=
  let minHeight := height - c.config.retentionBlocks
  { c with ourHashes := (c.ourHashes.insert height appHash).filter (fun h _ => minHeight ≤ h) }

/-- Our latest height, zero when we have none. -/
def ourLatestHeight (c : AttestationCollector) : Nat := (c.ourHashes.toList.map (·.1)).max?.getD 0

/-- The attestations of a height, in the order they came. -/
def getAttestations (c : AttestationCollector) (height : Nat) : List StateAttestation :=
  (c.attestations[height]?).getD []

/-- Voting power by hash, and together. Unknown validators do not count. -/
def countVotes (validators : FinMap Bytes32 Nat) (attestations : List StateAttestation) :
    Exec (FinMap Bytes32 Nat × Nat) :=
  attestations.foldlM (fun (hashVotes, totalVoted) att =>
    match validators[att.validatorPubkey]? with
    | none => return (hashVotes, totalVoted)
    | some power => do
      let votes ← u64 ((hashVotes[att.appHash]?).getD 0 + power)
      let totalVoted ← u64 (totalVoted + power)
      return (hashVotes.insert att.appHash votes, totalVoted)) (∅, 0)

/-- Check for divergence at a height. -/
def checkDivergence (c : AttestationCollector) (height : Nat) : Exec Check :=
  match c.attestations[height]? with
  | none => return .noQuorum
  | some heightAttestations => do
    let (hashVotes, totalVoted) ← countVotes c.validators heightAttestations
    let totalPower ← c.totalVotingPower
    if totalPower = 0 then return .noQuorum
    else if (totalVoted : ℚ) / totalPower < c.config.quorumThreshold then return .noQuorum
    else
      let majorityHash := Tally.top hashVotes
      if hashVotes.size ≤ 1 then return .allAgree
      else
        let ourHash := c.ourHashes[height]?
        return .divergence {
          height := height
          ourHash := ourHash.getD (.ofPrefix [])
          majorityHash := majorityHash
          attestations := heightAttestations
          weAreMinority := match ourHash, majorityHash with
            | some our, some majority => our ≠ majority
            | _, _ => false
          hashVotes := hashVotes }

/-- An attestation of the same validator for the same height is there. -/
def isDuplicate (c : AttestationCollector) (a : StateAttestation) : Bool :=
  (c.getAttestations a.height).any (·.validatorPubkey = a.validatorPubkey)

/-- Store an attestation, and clean up those of old heights. -/
def store (c : AttestationCollector) (a : StateAttestation) : AttestationCollector :=
  let heightAttestations := c.getAttestations a.height ++ [a]
  let minHeight := a.height - c.config.retentionBlocks
  { c with attestations :=
      (c.attestations.insert a.height heightAttestations).filter (fun h _ => minHeight ≤ h) }

/-- Validate and store an attestation, and check for divergence. No check is made when the
collector is disabled or the attestation is refused. -/
def processAttestation (ed : Ed25519) (a : StateAttestation) (c : AttestationCollector) :
    Exec (Except AttestationError (Option Check) × AttestationCollector) :=
  if !c.config.enabled then return (.ok none, c)
  else if !a.verify ed then return (.error .invalidSignature, c)
  else if (c.validators[a.validatorPubkey]?).isNone then return (.error .unknownValidator, c)
  else do
    let lastHeight ← u64 (a.height + c.config.retentionBlocks)
    if lastHeight < c.ourLatestHeight then return (.error .heightTooOld, c)
    else if c.isDuplicate a then return (.error .duplicateAttestation, c)
    else
      let c := c.store a
      let check ← c.checkDivergence a.height
      return (.ok (some check), c)

/-- An enabled collector takes the attestation in: it is signed by a known validator, not too
old, and the first of its validator for its height. -/
def Accepts (ed : Ed25519) (c : AttestationCollector) (a : StateAttestation) : Prop :=
  c.config.enabled = true ∧ a.verify ed = true ∧ (c.validators[a.validatorPubkey]?).isSome = true ∧
    c.ourLatestHeight ≤ a.height + c.config.retentionBlocks ∧ c.isDuplicate a = false

instance (ed : Ed25519) (c : AttestationCollector) (a : StateAttestation) :
    Decidable (Accepts ed c a) := inferInstanceAs (Decidable (_ ∧ _))

/-! ### Windows -/

section Window

variable {c : AttestationCollector} {a : StateAttestation} {h n : Nat} {x : Bytes32}

@[simp] theorem store_config : (c.store a).config = c.config := rfl

@[simp] theorem store_validators : (c.store a).validators = c.validators := rfl

@[simp] theorem store_ourHashes : (c.store a).ourHashes = c.ourHashes := rfl

theorem filter_decide {α : Type} (o : Option α) (p : Prop) [Decidable p] :
    (o.filter fun _ => decide p) = if p then o else none := by
  cases o <;> by_cases hp : p <;> simp [hp, Option.filter]

theorem get_recordOurHash : (c.recordOurHash h x).ourHashes[n]? =
    if h - c.config.retentionBlocks ≤ n then (if h = n then some x else c.ourHashes[n]?)
    else none := by
  unfold recordOurHash
  rw [Std.ExtTreeMap.getElem?_filter', FinMap.get_insert, filter_decide]

/-- Storing keeps the heights up to the retention below, and drops the others. -/
theorem getAttestations_store : (c.store a).getAttestations n =
    if a.height ≤ n + c.config.retentionBlocks then
      (if a.height = n then c.getAttestations n ++ [a] else c.getAttestations n)
    else [] := by
  have hmin : a.height - c.config.retentionBlocks ≤ n ↔
      a.height ≤ n + c.config.retentionBlocks := by omega
  have hget : (c.store a).attestations[n]? =
      if a.height - c.config.retentionBlocks ≤ n then (if a.height = n then
        some (c.getAttestations a.height ++ [a]) else c.attestations[n]?) else none := by
    unfold store
    rw [Std.ExtTreeMap.getElem?_filter', FinMap.get_insert, filter_decide]
  rw [getAttestations, hget, if_congr hmin rfl rfl]
  by_cases hn : a.height ≤ n + c.config.retentionBlocks
  · rw [if_pos hn, if_pos hn]
    by_cases he : a.height = n
    · rw [if_pos he, if_pos he, he, Option.getD_some]
    · rw [if_neg he, if_neg he, getAttestations]
  · rw [if_neg hn, if_neg hn]
    rfl

theorem ourLatestHeight_le_iff :
    c.ourLatestHeight ≤ n ↔ ∀ (k : Nat) (y : Bytes32), c.ourHashes[k]? = some y → k ≤ n := by
  have hkeys : (∀ k ∈ c.ourHashes.toList.map (·.1), k ≤ n) ↔
      ∀ (k : Nat) (y : Bytes32), c.ourHashes[k]? = some y → k ≤ n := by
    constructor
    · intro hall k y hk
      exact hall k (List.mem_map.mpr ⟨(k, y), FinMap.mem_toList.mpr hk, rfl⟩)
    · intro hall k hk
      obtain ⟨p, hp, rfl⟩ := List.mem_map.mp hk
      exact hall p.1 p.2 (FinMap.mem_toList.mp hp)
  rw [← hkeys, ourLatestHeight]
  cases hmax : (c.ourHashes.toList.map (·.1)).max? with
  | none =>
    rw [List.max?_eq_none_iff.mp hmax]
    simp
  | some m => exact List.max?_le_iff hmax

/-- Our latest height moves up with every hash that is recorded. -/
theorem ourLatestHeight_recordOurHash_le_iff :
    (c.recordOurHash h x).ourLatestHeight ≤ n ↔ h ≤ n ∧ c.ourLatestHeight ≤ n := by
  rw [ourLatestHeight_le_iff, ourLatestHeight_le_iff]
  constructor
  · intro hall
    have hh : h ≤ n := hall h x (by rw [get_recordOurHash, if_pos (Nat.sub_le _ _), if_pos rfl])
    refine ⟨hh, fun k y hk => ?_⟩
    by_cases hmin : h - c.config.retentionBlocks ≤ k
    · by_cases he : h = k
      · exact he ▸ hh
      · exact hall k y (by rw [get_recordOurHash, if_pos hmin, if_neg he, hk])
    · -- what is cleaned up is below
      omega
  · rintro ⟨hh, hall⟩ k y hk
    rw [get_recordOurHash] at hk
    split at hk
    · split at hk
      · rename_i he
        exact he ▸ hh
      · exact hall k y hk
    · cases hk

end Window

/-! ### Processing -/

section Process

variable {ed : Ed25519} {a : StateAttestation} {c c' : AttestationCollector} {h : Nat}

/-- **Inversion.** An accepted attestation is stored and checked; any other leaves the
collector, and nothing is checked. -/
theorem processAttestation_cases {r : Except AttestationError (Option Check)}
    (h : processAttestation ed a c = .ok (r, c')) :
    (Accepts ed c a ∧ a.height + c.config.retentionBlocks < 2 ^ 64 ∧ c' = c.store a ∧
      ∃ check, (c.store a).checkDivergence a.height = .ok check ∧ r = .ok (some check)) ∨
    (¬ Accepts ed c a ∧ c' = c ∧ ∀ check, r ≠ .ok (some check)) := by
  unfold processAttestation at h
  split at h
  · rename_i hoff
    obtain ⟨rfl, rfl⟩ := pair_inv h
    exact .inr ⟨fun hacc => by simp [hacc.1] at hoff, rfl, by simp⟩
  rename_i hon
  split at h
  · rename_i hsig
    obtain ⟨rfl, rfl⟩ := pair_inv h
    exact .inr ⟨fun hacc => by simp [hacc.2.1] at hsig, rfl, by simp⟩
  rename_i hsig
  split at h
  · rename_i hknown
    obtain ⟨rfl, rfl⟩ := pair_inv h
    refine .inr ⟨fun hacc => ?_, rfl, by simp⟩
    have hsome := hacc.2.2.1
    rw [Option.isNone_iff_eq_none.mp hknown] at hsome
    cases hsome
  rename_i hknown
  obtain ⟨last, hlast, h⟩ := bind_inv h
  obtain ⟨hfits, rfl⟩ := u64_eq_ok.mp hlast
  split at h
  · rename_i hold
    obtain ⟨rfl, rfl⟩ := pair_inv h
    exact .inr ⟨fun hacc => absurd hacc.2.2.2.1 (by omega), rfl, by simp⟩
  rename_i hold
  split at h
  · rename_i hdup
    obtain ⟨rfl, rfl⟩ := pair_inv h
    exact .inr ⟨fun hacc => by simp [hacc.2.2.2.2] at hdup, rfl, by simp⟩
  rename_i hdup
  obtain ⟨check, hcheck, h⟩ := bind_inv h
  obtain ⟨rfl, rfl⟩ := pair_inv h
  refine .inl ⟨⟨by simpa using hon, by simpa using hsig, ?_, by omega, by simpa using hdup⟩, hfits,
    rfl, check, hcheck, rfl⟩
  simpa [Option.isNone_iff_eq_none, Option.isSome_iff_ne_none] using hknown

/-- An accepted attestation is stored and checked. -/
theorem processAttestation_of_accepts (hacc : Accepts ed c a)
    (hfits : a.height + c.config.retentionBlocks < 2 ^ 64) :
    processAttestation ed a c = (c.store a).checkDivergence a.height >>= fun check =>
      .ok (.ok (some check), c.store a) := by
  obtain ⟨hon, hsig, hsome, hrecent, hdup⟩ := hacc
  unfold processAttestation
  rw [if_neg (by simp [hon]), if_neg (by simp [hsig]), if_neg (by simpa using hsome),
    u64_eq_ok.mpr ⟨hfits, rfl⟩, ok_bind, if_neg (not_lt.mpr hrecent), if_neg (by simp [hdup])]
  rfl

/-- A height at the end of the range of `u64` halts. -/
theorem processAttestation_overflow (hon : c.config.enabled = true) (hsig : a.verify ed = true)
    (hsome : (c.validators[a.validatorPubkey]?).isSome = true)
    (hfits : ¬ a.height + c.config.retentionBlocks < 2 ^ 64) :
    processAttestation ed a c = .error .panic := by
  unfold processAttestation
  rw [if_neg (by simp [hon]), if_neg (by simp [hsig]), if_neg (by simpa using hsome),
    u64, if_neg hfits]
  rfl

/-- What is not checked: everything when the collector is disabled, and old heights. -/
theorem processAttestation_ignored (hsig : a.verify ed = true)
    (hsome : (c.validators[a.validatorPubkey]?).isSome = true)
    (h : c.config.enabled = false ∨ (a.height + c.config.retentionBlocks < 2 ^ 64 ∧
      a.height + c.config.retentionBlocks < c.ourLatestHeight)) :
    ∃ r, processAttestation ed a c = .ok (r, c) ∧ ∀ check, r ≠ .ok (some check) := by
  unfold processAttestation
  by_cases hon : c.config.enabled = true
  · obtain ⟨hfits, hold⟩ := h.resolve_left (by simp [hon])
    rw [if_neg (by simp [hon]), if_neg (by simp [hsig]), if_neg (by simpa using hsome),
      u64_eq_ok.mpr ⟨hfits, rfl⟩, ok_bind, if_pos hold]
    exact ⟨_, rfl, by simp⟩
  · rw [if_pos (by simpa using hon)]
    exact ⟨_, rfl, by simp⟩

end Process

end AttestationCollector

/-! ### Runs of a collector -/

/-- What happens to a collector. -/
inductive CollectorEvent
  | addValidator (pubkey : Bytes32) (votingPower : Nat)
  | removeValidator (pubkey : Bytes32)
  | updateValidatorPower (pubkey : Bytes32) (votingPower : Nat)
  | recordOurHash (height : Nat) (appHash : Bytes32)
  | processAttestation (attestation : StateAttestation)

/-- A collector, with the attestations it has accepted. -/
structure CollectorLog where
  collector : AttestationCollector
  accepted : List StateAttestation

namespace CollectorLog

def new (config : AttestationConfig) : CollectorLog := ⟨.new config, []⟩

def step (ed : Ed25519) (s : CollectorLog) : CollectorEvent → Exec CollectorLog
  | .addValidator pubkey votingPower =>
    return { s with collector := s.collector.addValidator pubkey votingPower }
  | .removeValidator pubkey => return { s with collector := s.collector.removeValidator pubkey }
  | .updateValidatorPower pubkey votingPower =>
    return { s with collector := s.collector.updateValidatorPower pubkey votingPower }
  | .recordOurHash height appHash =>
    return { s with collector := s.collector.recordOurHash height appHash }
  | .processAttestation a => do
    let (r, collector) ← s.collector.processAttestation ed a
    match r with
    | .ok (some _) => return ⟨collector, a :: s.accepted⟩
    | _ => return ⟨collector, s.accepted⟩

/-- **Retention.** What was accepted stays stored until our own height is more than the
retention above it, and no height has two attestations of a validator. -/
structure Retained (s : CollectorLog) : Prop where
  kept : ∀ a ∈ s.accepted,
    s.collector.ourLatestHeight ≤ a.height + s.collector.config.retentionBlocks →
      a ∈ s.collector.getAttestations a.height
  once : ∀ h, ((s.collector.getAttestations h).map (·.validatorPubkey)).Nodup

/-- An attestation that the collector accepts is not for a height more than the retention
above one in our window that it accepted before. -/
def KeepsWindow (ed : Ed25519) (s : CollectorLog) : CollectorEvent → Prop
  | .processAttestation a => s.collector.Accepts ed a → ∀ b ∈ s.accepted,
      s.collector.ourLatestHeight ≤ b.height + s.collector.config.retentionBlocks →
        a.height ≤ b.height + s.collector.config.retentionBlocks
  | _ => True

instance (ed : Ed25519) (s : CollectorLog) (e : CollectorEvent) :
    Decidable (KeepsWindow ed s e) := by
  cases e <;> unfold KeepsWindow <;> infer_instance

section Retention

variable {ed : Ed25519} {s s' : CollectorLog} {e : CollectorEvent} {a : StateAttestation}

/-- What a step does to what is retained: an attestation is stored, our height moves up, or
nothing of either changes. -/
theorem step_cases (h : step ed s e = .ok s') :
    (∃ a, e = .processAttestation a ∧ s.collector.Accepts ed a ∧
      s' = ⟨s.collector.store a, a :: s.accepted⟩) ∨
    ((∀ a, e = .processAttestation a → ¬ s.collector.Accepts ed a) ∧ s'.accepted = s.accepted ∧
      s'.collector.config = s.collector.config ∧
      s'.collector.attestations = s.collector.attestations ∧
      ∀ n, s'.collector.ourLatestHeight ≤ n → s.collector.ourLatestHeight ≤ n) := by
  cases e with
  | addValidator pubkey votingPower =>
    obtain rfl := pure_inv h
    exact .inr ⟨nofun, rfl, rfl, rfl, fun _ hn => hn⟩
  | removeValidator pubkey =>
    obtain rfl := pure_inv h
    exact .inr ⟨nofun, rfl, rfl, rfl, fun _ hn => hn⟩
  | updateValidatorPower pubkey votingPower =>
    obtain rfl := pure_inv h
    refine .inr ⟨nofun, rfl, ?_⟩
    unfold AttestationCollector.updateValidatorPower
    split <;> exact ⟨rfl, rfl, fun _ hn => hn⟩
  | recordOurHash height appHash =>
    obtain rfl := pure_inv h
    exact .inr ⟨nofun, rfl, rfl, rfl, fun n hn =>
      (AttestationCollector.ourLatestHeight_recordOurHash_le_iff.mp hn).2⟩
  | processAttestation a =>
    obtain ⟨⟨r, c'⟩, hprocess, h⟩ := bind_inv h
    rcases AttestationCollector.processAttestation_cases hprocess with
      ⟨hacc, -, rfl, check, -, rfl⟩ | ⟨hnot, rfl, hr⟩
    · obtain rfl := pure_inv h
      exact .inl ⟨a, rfl, hacc, rfl⟩
    · have hs : s' = s := by
        cases r with
        | error x => exact (pure_inv h).symm
        | ok o =>
          cases o with
          | none => exact (pure_inv h).symm
          | some check => exact absurd rfl (hr check)
      subst hs
      refine .inr ⟨fun a' ha' => ?_, rfl, rfl, rfl, fun _ hn => hn⟩
      obtain rfl := CollectorEvent.processAttestation.inj ha'
      exact hnot

/-- **Step lemma.** From a state that retains, exactly the steps that keep the window lead to
one that does. -/
theorem retained_iff (hs : Retained s) (h : step ed s e = .ok s') :
    Retained s' ↔ KeepsWindow ed s e := by
  rcases step_cases h with ⟨a, rfl, hacc, rfl⟩ | ⟨hnot, haccepted, hconfig, hstored, hlatest⟩
  · constructor
    · intro hs' _ b hb hwindow
      -- a dropped height is empty
      have hkept := hs'.kept b (.tail _ hb) hwindow
      dsimp only at hkept
      rw [AttestationCollector.getAttestations_store] at hkept
      split at hkept
      · assumption
      · cases hkept
    · intro hkeeps
      constructor
      · intro b hb hwindow
        dsimp only
        rw [AttestationCollector.getAttestations_store]
        rcases List.mem_cons.mp hb with rfl | hb
        · rw [if_pos (Nat.le_add_right _ _), if_pos rfl]
          exact List.mem_append_right _ List.mem_cons_self
        · have hstored := hs.kept b hb hwindow
          rw [if_pos (hkeeps hacc b hb hwindow)]
          split
          · exact List.mem_append_left _ hstored
          · exact hstored
      · intro n
        dsimp only
        rw [AttestationCollector.getAttestations_store]
        split
        · split
          · rename_i hn
            -- no other attestation of this validator is stored for the height
            rw [List.map_append, List.nodup_append]
            refine ⟨hs.once n, List.nodup_singleton _, ?_⟩
            intro v hv w hw
            obtain rfl := List.mem_singleton.mp hw
            rintro rfl
            obtain ⟨b, hb, hbv⟩ := List.mem_map.mp hv
            have hdup : s.collector.isDuplicate a = true :=
              List.any_eq_true.mpr ⟨b, hn ▸ hb, decide_eq_true hbv⟩
            rw [hacc.2.2.2.2] at hdup
            cases hdup
          · exact hs.once n
        · exact List.nodup_nil
  · have hget : ∀ n, s'.collector.getAttestations n = s.collector.getAttestations n := by
      intro n
      unfold AttestationCollector.getAttestations
      rw [hstored]
    refine iff_of_true ⟨fun b hb hwindow => ?_, fun n => ?_⟩ ?_
    · rw [haccepted] at hb
      rw [hconfig] at hwindow
      rw [hget]
      exact hs.kept b hb (hlatest _ hwindow)
    · rw [hget]
      exact hs.once n
    · cases e with
      | processAttestation a => exact fun hacc => absurd hacc (hnot a rfl)
      | _ => trivial

theorem new_retained (config : AttestationConfig) : Retained (new config) where
  kept a ha := absurd ha List.not_mem_nil
  once h := by
    have hnil : (new config).collector.getAttestations h = [] := by
      unfold AttestationCollector.getAttestations new AttestationCollector.new
      rw [FinMap.get_empty]
      rfl
    rw [hnil]
    exact List.nodup_nil

/-- **Runs.** A run retains in all of its states exactly when all of its steps keep the
window. -/
theorem retention_iff {config : AttestationConfig} {es : List CollectorEvent}
    (h : es.foldlM (step ed) (new config) = .ok s) :
    FoldMeets (step ed) (fun s e => After (step ed s e) Retained) es (new config) ↔
      FoldMeets (step ed) (KeepsWindow ed) es (new config) :=
  foldMeets_iff h (new_retained config) fun _ _ _ hs hstep => retained_iff hs hstep

end Retention

/-- One byte, 32 times. -/
def repeated (b : UInt8) : Bytes32 := .filled b

/-- An attestation of a hash for a height, with some signature. -/
def attest (height : Nat) (appHash validatorPubkey : UInt8) : StateAttestation where
  height := height
  appHash := repeated appHash
  validatorPubkey := repeated validatorPubkey
  signature := ⟨List.replicate 64 0, List.length_replicate⟩
  timestamp := 1000

/-- Two validators attest, one for height 100 and then the other for a height. -/
def twoAttestations (height : Nat) : List CollectorEvent :=
  [.addValidator (repeated 1) 1, .addValidator (repeated 2) 1, .recordOurHash 100 (repeated 9),
    .processAttestation (attest 100 9 1), .processAttestation (attest height 9 2)]

/-- The second attestation is for the next height. -/
theorem retention_next : ∃ s, (twoAttestations 101).foldlM (step fun _ _ _ => true)
      (new .default) = .ok s ∧ s.accepted.length = 2 ∧
    FoldMeets (step fun _ _ _ => true) (fun s e => After (step (fun _ _ _ => true) s e) Retained)
      (twoAttestations 101) (new .default) := by
  obtain ⟨s, hs, ht⟩ := exists_of_test
    (x := (twoAttestations 101).foldlM (step fun _ _ _ => true) (new .default))
    (p := fun s => decide (s.accepted.length = 2)) (by decide +kernel)
  exact ⟨s, hs, of_decide_eq_true ht, (retention_iff hs).mpr (by decide +kernel)⟩

/-- The second attestation is for a height far above: the first is dropped, while our own
height is still the one it was for. -/
theorem far_attestation_drops : ∃ s, (twoAttestations 201).foldlM (step fun _ _ _ => true)
      (new .default) = .ok s ∧ s.collector.ourLatestHeight = 100 ∧
    attest 100 9 1 ∈ s.accepted ∧ s.collector.getAttestations 100 = [] ∧ ¬ Retained s := by
  obtain ⟨s, hs, ht⟩ := exists_of_test
    (x := (twoAttestations 201).foldlM (step fun _ _ _ => true) (new .default))
    (p := fun s => decide (s.collector.ourLatestHeight = 100 ∧ attest 100 9 1 ∈ s.accepted ∧
      s.collector.getAttestations 100 = [])) (by decide +kernel)
  obtain ⟨hlatest, hmem, hnil⟩ := of_decide_eq_true ht
  refine ⟨s, hs, hlatest, hmem, hnil, fun hretained => ?_⟩
  have hkept := hretained.kept _ hmem (by rw [hlatest]; exact Nat.le_add_right _ _)
  have hempty : s.collector.getAttestations (attest 100 9 1).height = [] := hnil
  rw [hempty] at hkept
  cases hkept

end CollectorLog

end Hypercore
