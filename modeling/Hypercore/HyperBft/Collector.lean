import Hypercore.HyperBft.Agreement
/-!
# Hypercore.HyperBft.Collector

The vote collector on its own, under any votes and any pruning.

A collector counts whoever votes: it never looks at the number of validators. When all
votes come from members, the votes it keeps for a block are of different members
(`VoteCollector.Ok`), so a certificate has a quorum of them, and quorum intersection lets
it certify one block a height as long as few members vote for two. Pruning forgets who has
voted, but a member that uses this to vote again for another block has equivocated.
-/

namespace Hypercore

namespace HyperBft

open Exec

/-- Calls on a vote collector. -/
inductive CollectorCall
  | vote (vote : Vote)
  | prune (minHeight : Nat)

/-- A collector with all votes it was handed, and all certificates it returned. -/
structure Collection where
  collector : VoteCollector
  seen : List Vote
  certified : List CommitCertificate

/-- The members of the validator set that a certificate has a vote of, for its own height and
block. -/
def CommitCertificate.members (config : HyperBftConfig) (c : CommitCertificate) : Finset Nat :=
  (Finset.range config.numValidators).filter fun i =>
    ∃ v ∈ c.votes, v.voter = i ∧ v.height = c.height ∧ v.blockHash = c.blockHash

namespace Collection

/-- A new collector. -/
def start : Collection := ⟨.new, [], []⟩

/-- One call. -/
def step (config : HyperBftConfig) : CollectorCall → Collection → Exec Collection
  | .vote vote, s =>
    let (cert, collector) := s.collector.addVote config.quorumSize vote
    return ⟨collector, vote :: s.seen, cert.toList ++ s.certified⟩
  | .prune minHeight, s => return { s with collector := s.collector.prune minHeight }

/-- The members that voted for two blocks of one height. -/
def equivocators (config : HyperBftConfig) (s : Collection) (height : Nat) : Finset Nat :=
  (Finset.range config.numValidators).filter fun i =>
    ∃ v ∈ s.seen, ∃ v' ∈ s.seen, v.voter = i ∧ v'.voter = i ∧ v.height = height ∧
      v'.height = height ∧ v.blockHash ≠ v'.blockHash

/-- At most one block is certified at a height where fewer than a third of the validators
equivocate, and every certificate has the votes of a quorum of members. -/
structure Sound (config : HyperBftConfig) (s : Collection) : Prop where
  unique : ∀ height, 3 * (s.equivocators config height).card < config.numValidators →
    ∀ c ∈ s.certified, ∀ c' ∈ s.certified, c.height = height → c'.height = height →
      c.blockHash = c'.blockHash
  backed : ∀ c ∈ s.certified, config.quorumSize ≤ (c.members config).card

/-- The vote is of a member of the validator set. -/
def OfMember (config : HyperBftConfig) : CollectorCall → Prop
  | .vote vote => vote.voter < config.numValidators
  | .prune _ => True

instance (config : HyperBftConfig) (call : CollectorCall) : Decidable (OfMember config call) := by
  cases call <;> unfold OfMember <;> infer_instance

/-- A vote that was handed in, of a member. -/
def Counts (config : HyperBftConfig) (s : Collection) (v : Vote) : Prop :=
  v ∈ s.seen ∧ v.voter < config.numValidators

/-- The invariant of runs in which members vote. -/
structure Inv (config : HyperBftConfig) (s : Collection) : Prop where
  collector : s.collector.Ok (s.Counts config)
  certified : ∀ c ∈ s.certified, c.Certifies (s.Counts config) config.quorumSize

variable {config : HyperBftConfig} {s s' : Collection}

theorem Inv.start : start.Inv config where
  collector := .new
  certified _ hc := absurd hc List.not_mem_nil

/-- **Step lemma.** A vote of a member, and any pruning, preserve the invariant. -/
theorem Inv.step {call : CollectorCall} (h : s.Inv config) (hmember : OfMember config call)
    (hs : step config call s = .ok s') : s'.Inv config := by
  cases call with
  | vote vote =>
    cases hadd : s.collector.addVote config.quorumSize vote with
    | mk cert collector =>
      unfold Collection.step at hs
      dsimp only at hs
      rw [hadd] at hs
      obtain rfl := pure_inv hs
      have hmono : ∀ v, s.Counts config v →
          Counts config ⟨collector, vote :: s.seen, cert.toList ++ s.certified⟩ v :=
        fun v hv => ⟨.tail _ hv.1, hv.2⟩
      obtain ⟨hcollector, hcert⟩ :=
        (h.collector.mono hmono).addVote ⟨.head _, hmember⟩ hadd
      refine ⟨hcollector, fun c hc => ?_⟩
      rcases List.mem_append.mp hc with hnew | hold
      · exact hcert c (Option.mem_toList.mp hnew)
      · obtain ⟨henough, hnodup, hvotes⟩ := h.certified c hold
        refine ⟨henough, hnodup, fun v hv => ?_⟩
        obtain ⟨h1, h2, h3⟩ := hvotes v hv
        exact ⟨h1, h2, hmono v h3⟩
  | prune minHeight =>
    obtain rfl := pure_inv hs
    exact ⟨h.collector.prune minHeight, h.certified⟩

theorem mem_members {c : CommitCertificate} {i : Nat} : i ∈ c.members config ↔
    i < config.numValidators ∧
      ∃ v ∈ c.votes, v.voter = i ∧ v.height = c.height ∧ v.blockHash = c.blockHash := by
  unfold CommitCertificate.members
  rw [Finset.mem_filter, Finset.mem_range]

/-- The voters of a certificate are members, as many as it has votes. -/
theorem card_members {c : CommitCertificate}
    (hc : c.Certifies (s.Counts config) config.quorumSize) :
    config.quorumSize ≤ (c.members config).card := by
  have hmembers : c.members config = (c.votes.map (·.voter)).toFinset := by
    ext i
    rw [mem_members, List.mem_toFinset, List.mem_map]
    constructor
    · rintro ⟨-, v, hv, rfl, -⟩
      exact ⟨v, hv, rfl⟩
    · rintro ⟨v, hv, rfl⟩
      obtain ⟨h1, h2, h3⟩ := hc.votes v hv
      exact ⟨h3.2, v, hv, rfl, h1, h2⟩
  rw [hmembers, List.toFinset_card_of_nodup hc.nodup, List.length_map]
  exact hc.enough

/-- Certified blocks of a height at which few members equivocate are equal. -/
theorem Inv.unique (h : s.Inv config) (hsize : config.numValidators ≤ config.minValidators)
    {c c' : CommitCertificate} (hc : c ∈ s.certified) (hc' : c' ∈ s.certified)
    (hheight : c'.height = c.height)
    (hfew : 3 * (s.equivocators config c.height).card < config.numValidators) :
    c.blockHash = c'.blockHash := by
  let voted (i : Nat) (b : BlockHash) : Prop :=
    ∃ v ∈ s.seen, v.voter = i ∧ v.height = c.height ∧ v.blockHash = b
  have hcert : ∀ x ∈ s.certified, x.height = c.height →
      Quorum.Certified (Finset.range config.numValidators) (s.equivocators config c.height)
        config.faultTolerance voted x.blockHash := by
    intro x hx heq
    have hcertifies := h.certified x hx
    refine ⟨x.members config, Finset.filter_subset _ _, card_members hcertifies, ?_⟩
    intro i hi _
    obtain ⟨-, v, hv, hvoter, hvheight, hblock⟩ := mem_members.mp hi
    exact ⟨v, (hcertifies.votes v hv).2.2.1, hvoter, hvheight.trans heq, hblock⟩
  unfold HyperBftConfig.minValidators at hsize
  refine Quorum.certified_unique (by rw [Finset.card_range]; exact hsize) (by omega) ?_
    (hcert c hc rfl) (hcert c' hc' hheight)
  -- a member that votes for two blocks of the height is an equivocator
  intro i hi hcorrect b b' ⟨v, hv, hvoter, hvheight, hblock⟩ ⟨v', hv', hvoter', hvheight', hblock'⟩
  by_contra hne
  refine hcorrect (Finset.mem_filter.mpr ⟨hi, v, hv, v', hv', hvoter, hvoter', hvheight,
    hvheight', ?_⟩)
  rw [hblock, hblock']
  exact hne

/-- **Certificates.** When every vote is of a member and there are at most `3f + 1` validators,
any order of votes and pruning leaves at most one certified block a height where fewer than a
third equivocate, and every certificate is backed by a quorum of members. -/
theorem certificates_sound (hsize : config.numValidators ≤ config.minValidators)
    (h : Run.Reaches (step config) (fun _ call => OfMember config call) start s) :
    s.Sound config := by
  have hinv : s.Inv config := h.invariant .start fun _ _ _ hi hok hs => hi.step hok hs
  refine ⟨fun height hfew c hc c' hc' hheight hheight' => ?_, fun c hc =>
    card_members (hinv.certified c hc)⟩
  subst hheight
  exact hinv.unique hsize hc hc' hheight' hfew

/-- Four validators, one of which may be faulty. -/
def fourConfig : HyperBftConfig := ⟨5, 4, 1, 0⟩

/-- Votes for a block at the first height. -/
def votesOfAll (voters : List Nat) (block : BlockHash) : List CollectorCall :=
  voters.map fun i => .vote ⟨1, i, block, []⟩

/-- Validator 3 votes for two blocks of a height, of which one is certified; then it is pruned. -/
theorem certificates_sound_pruned : ∃ s,
    Run.Reaches (step fourConfig) (fun _ call => OfMember fourConfig call) start s ∧
      s.certified.length = 1 ∧ s.equivocators fourConfig 1 = {3} ∧ s.Sound fourConfig := by
  obtain ⟨s, hs, htest⟩ := exists_of_test
    (x := (votesOfAll [3, 0, 3, 1] 7 ++ votesOfAll [3, 2] 8 ++ [CollectorCall.prune 2]).foldlM
      (fun s call => if OfMember fourConfig call then step fourConfig call s else .error .panic)
      start)
    (p := fun s => s.certified.length = 1 ∧ s.equivocators fourConfig 1 = {3}) (by decide +kernel)
  have hreach : Run.Reaches (step fourConfig) (fun _ call => OfMember fourConfig call) start s :=
    .of_checked (fun _ _ => inferInstance) hs
  obtain ⟨hlength, hequivocators⟩ := of_decide_eq_true htest
  exact ⟨s, hreach, hlength, hequivocators, certificates_sound (by decide) hreach⟩

/-- Six voters that are not in the validator set certify two blocks of one height. -/
theorem strangers_certify : ∃ s,
    Run.Reaches (step fourConfig) (fun _ _ => True) start s ∧
      s.equivocators fourConfig 1 = ∅ ∧ (∀ c ∈ s.certified, c.members fourConfig = ∅) ∧
      ¬ s.Sound fourConfig := by
  obtain ⟨s, hs, htest⟩ := exists_of_test
    (x := (votesOfAll [100, 101, 102] 7 ++ votesOfAll [103, 104, 105] 8).foldlM
      (fun s call => step fourConfig call s) start)
    (p := fun s => s.equivocators fourConfig 1 = ∅ ∧
      (∀ c ∈ s.certified, c.members fourConfig = ∅) ∧
      ∃ c ∈ s.certified, ∃ c' ∈ s.certified, c.height = 1 ∧ c'.height = 1 ∧
        c.blockHash ≠ c'.blockHash) (by decide +kernel)
  obtain ⟨hnone, hmembers, c, hc, c', hc', h1, h1', hne⟩ := of_decide_eq_true htest
  refine ⟨s, .of_foldlM (fun _ _ _ => trivial) hs, hnone, hmembers, fun hsound => hne ?_⟩
  exact hsound.unique 1 (by rw [hnone]; decide) c hc c' hc' h1 h1'

end Collection

end HyperBft

end Hypercore
