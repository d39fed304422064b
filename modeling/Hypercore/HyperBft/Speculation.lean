import Hypercore.Chain.BlockProducer
import Hypercore.HyperBft.Runner
/-!
# Hypercore.HyperBft.Speculation

The node of one validator: its consensus runner over its block producer.

The leader of a height executes a block before it proposes it, and the producer commits
what it executes to the application at once. Nobody else executes the block; a proposal
does not even list its transactions. A round that ends without a commit clears a flag of
the runner, and as the runner never takes a snapshot there is nothing to restore. So the
application follows the commits only as long as what is committed is what the node has
just executed.

A step is a round that is entered, a message, a timeout, a submission, or a proposal of
another validator. Messages are arbitrary. What is left out: `propose_block` and
`finalize_block` of the consensus trait, which nothing calls, and the shutdown.
-/

namespace Hypercore

namespace HyperBft

open Exec

/-! ### The node -/

/-- What a node is built with: the parts of its producer, the hasher of proposals, and the
bytes of an app hash. -/
structure SpeculationParts (α : Type) extends ProducerParts α where
  hasher : HashFeed → Fin (2 ^ 64)
  appHashBytes : AppHash → BlockHash

/-- A proposal with the block it stands for: the transactions and the timestamp that its
proposer executed. -/
structure ProposedBlock (α : Type) where
  proposal : BlockProposal
  txs : List (SignedTx α)
  timestamp : Timestamp

/-- A validator's node, with what was proposed so far by any validator and the certificates
that the node committed with. -/
structure Node (α : Type) where
  runner : Runner
  producer : BlockProducer α
  /-- A round is open. It ends with a commit or a timeout. -/
  inRound : Bool
  proposals : List (ProposedBlock α)
  committed : List CommitCertificate

/-- What happens to a node. A round that is entered has the readings of the clocks and the
orders in which hash maps are visited, for the block that the leader executes. -/
inductive NodeStep (α : Type)
  | submit (tx : SignedTx α)
  | peerProposes (proposed : ProposedBlock α)
  | enterRound (clock : Nat → Instant) (ord : HashOrder) (timestamp : Timestamp)
      (endOrd : HashOrder) (now : Nat)
  | receive (message : BftMessage)
  | timeout

/-- The proposals among some messages, for a block. -/
def proposalsFor {α : Type} (block : ProducedBlock α) (sent : List BftMessage) :
    List (ProposedBlock α) :=
  sent.filterMap fun m => match m with
    | .propose proposal => some ⟨proposal, block.txs, block.result.timestamp⟩
    | _ => none

namespace Node

variable {α : Type} (P : SpeculationParts α)

/-- A node over the genesis application, its loop running and no round entered. -/
def new (config : HyperBftConfig) (genesis : AppState) (pool : MempoolConfig) : Node α where
  runner := { Runner.new config with running := true }
  producer := .new genesis pool
  inRound := false
  proposals := []
  committed := []

/-- Enter a round: the leader executes a block and proposes it. -/
def enterRound (clock : Nat → Instant) (ord : HashOrder) (timestamp : Timestamp)
    (endOrd : HashOrder) (now : Nat) (s : Node α) : Exec (Node α) := do
  let height ← s.runner.height
  if s.runner.config.leaderForHeight height = s.runner.config.validatorIndex then
    let producer ← s.producer.produceBlock P.toProducerParts clock ord timestamp endOrd
    let (sent, runner) ← s.runner.enterRound ⟨.ok (P.appHashBytes producer.app.appHash), now⟩
    let produced := producer.blocks.drop s.producer.blocks.length
    return { s with
      runner
      producer
      inRound := true
      proposals := s.proposals ++ produced.flatMap fun block => proposalsFor block sent }
  else return { s with inRound := true }

/-- One step. Outside a round no message is handled, and in a round none is entered. -/
def step : NodeStep α → Node α → Exec (Node α)
  | .submit tx, s => do
    return { s with producer := ← s.producer.step P.toProducerParts (.submit tx) }
  | .peerProposes proposed, s => return { s with proposals := s.proposals ++ [proposed] }
  | .enterRound clock ord timestamp endOrd now, s =>
    if s.inRound then return s else s.enterRound P clock ord timestamp endOrd now
  | .receive message, s =>
    if s.inRound then do
      let height ← s.runner.height
      let handled := s.runner.handleMessage P.hasher height message
      match handled.result with
      | .ok (some certificate) =>
        return { s with
          runner := handled.runner
          inRound := false
          committed := s.committed ++ [certificate] }
      | _ => return { s with runner := handled.runner }
    else return s
  | .timeout, s =>
    if s.inRound then return { s with runner := s.runner.timeout, inRound := false } else return s

/-! ### The committed blocks -/

/-- A certificate is for a block: that of a proposal with its height and its hash. -/
def Commits (s : Node α) (certificate : CommitCertificate) (block : ProducedBlock α) : Prop :=
  ∃ p ∈ s.proposals, p.proposal.height = certificate.height ∧
    computeProposalHash P.hasher p.proposal = certificate.blockHash ∧
    p.txs = block.txs ∧ p.timestamp = block.result.timestamp

/-- The certificates are those of the heights 1, 2, … in this order, and the application is
what executing their blocks one after the other makes of the genesis. -/
def InStep (genesis : AppState) (s : Node α) : Prop :=
  s.committed.map (·.height) = List.range' 1 s.committed.length ∧
  ∃ blocks, List.Forall₂ (s.Commits P) s.committed blocks ∧
    BlocksExecuted P.toProducerParts genesis blocks s.producer.app

/-- The blocks that the node executed and has not committed. -/
def pending (s : Node α) : List (ProducedBlock α) := s.producer.blocks.drop s.committed.length

end Node

/-- The certificate that a message completes: that of a vote that makes a quorum, be it the
node's own on a proposal, or one that comes whole. -/
def Runner.certificateFor (hasher : HashFeed → Fin (2 ^ 64)) (r : Runner) (height : Nat) :
    BftMessage → Option CommitCertificate
  | .propose proposal =>
    if proposal.height = height then
      (r.voteCollector.addVote r.config.quorumSize (r.voteFor hasher proposal)).1
    else none
  | .vote vote =>
    if vote.height = height then (r.voteCollector.addVote r.config.quorumSize vote).1 else none
  | .commit certificate =>
    if certificate.height = height ∧ certificate.hasQuorum r.config.quorumSize then
      some certificate
    else none
  | .syncRequest _ | .syncResponse .. => none

/-- The condition on a step: a certificate that is completed is for a block that the node has
executed and not committed, and no round times out with such a block. -/
def Node.Settles {α : Type} (P : SpeculationParts α) (s : Node α) : NodeStep α → Prop
  | .receive message => s.inRound → ∀ certificate,
    s.runner.certificateFor P.hasher (s.runner.currentHeight + 1) message = some certificate →
      ∃ block ∈ s.pending, s.Commits P certificate block
  | .timeout => s.inRound → s.pending = []
  | _ => True

/-! ### What a message does to the runner -/

namespace Runner

variable {hasher : HashFeed → Fin (2 ^ 64)} {r r' : Runner} {height : Nat}

/-- Collecting a vote commits if the vote completes a certificate, and leaves the height if
not. -/
theorem collect_cases (r : Runner) (height : Nat) (vote : Vote) :
    ((r.collect height vote).result =
        .ok (r.voteCollector.addVote r.config.quorumSize vote).1) ∧
      (r.collect height vote).runner.currentHeight =
        if (r.voteCollector.addVote r.config.quorumSize vote).1 = none then r.currentHeight
        else height := by
  unfold collect
  cases hadd : r.voteCollector.addVote r.config.quorumSize vote with
  | mk certificate collector =>
    cases certificate with
    | none => exact ⟨rfl, rfl⟩
    | some certificate => exact ⟨rfl, rfl⟩

variable {certificate : CommitCertificate}

/-- A certificate that a vote completes is for the vote's height. -/
theorem addVote_height {c : VoteCollector} {quorumSize : Nat} {vote : Vote}
    (h : (c.addVote quorumSize vote).1 = some certificate) :
    certificate.height = vote.height := by
  unfold VoteCollector.addVote at h
  split at h
  · cases h
  · dsimp only at h
    split at h
    · obtain rfl := Option.some.inj h
      rfl
    · cases h

theorem certificateFor_height {message : BftMessage}
    (h : r.certificateFor hasher height message = some certificate) :
    certificate.height = height := by
  unfold certificateFor at h
  cases message with
  | propose proposal =>
    dsimp only at h
    split at h
    · rename_i hheight
      exact (addVote_height h).trans hheight
    · cases h
  | vote vote =>
    dsimp only at h
    split at h
    · rename_i hheight
      exact (addVote_height h).trans hheight
    · cases h
  | commit c =>
    dsimp only at h
    split at h
    · rename_i hc
      obtain rfl := Option.some.inj h
      exact hc.1
    · cases h
  | syncRequest _ => cases h
  | syncResponse _ _ _ => cases h

/-- **Messages.** A message commits with the certificate that it completes, which takes the
runner to its height; one that completes none leaves the height. -/
theorem handleMessage_cases (r : Runner) (height : Nat) (message : BftMessage) :
    (∃ certificate, r.certificateFor hasher height message = some certificate ∧
      (r.handleMessage hasher height message).result = .ok (some certificate) ∧
      (r.handleMessage hasher height message).runner.currentHeight = height) ∨
    ((∀ certificate, (r.handleMessage hasher height message).result ≠ .ok (some certificate)) ∧
      (r.handleMessage hasher height message).runner.currentHeight = r.currentHeight) := by
  have hcollect : ∀ (r' : Runner) (vote : Vote) (certificate : Option CommitCertificate),
      (r'.voteCollector.addVote r'.config.quorumSize vote).1 = certificate →
      (∃ c, certificate = some c ∧ (r'.collect height vote).result = .ok (some c) ∧
        (r'.collect height vote).runner.currentHeight = height) ∨
      ((∀ c, (r'.collect height vote).result ≠ .ok (some c)) ∧
        (r'.collect height vote).runner.currentHeight = r'.currentHeight) := by
    intro r' vote certificate hadd
    obtain ⟨hresult, hheight⟩ := collect_cases r' height vote
    rw [hadd] at hresult hheight
    cases certificate with
    | none =>
      rw [hresult]
      exact .inr ⟨fun _ hc => (by cases hc), hheight⟩
    | some c => exact .inl ⟨c, rfl, hresult, hheight⟩
  have hdrop : ∀ c : CommitCertificate,
      (.ok none : Except ConsensusError (Option CommitCertificate)) ≠ .ok (some c) := by
    intro c hc
    cases hc
  cases message with
  | propose proposal =>
    by_cases hheight : proposal.height = height
    · rw [handleMessage, if_neg (not_not.mpr hheight), certificateFor, if_pos hheight]
      exact hcollect { r with optimistic := .beginSpeculative height, phase := .vote } _ _ rfl
    · rw [handleMessage, if_pos hheight]
      exact .inr ⟨hdrop, rfl⟩
  | vote vote =>
    by_cases hheight : vote.height = height
    · rw [handleMessage, if_neg (not_not.mpr hheight), certificateFor, if_pos hheight]
      exact hcollect r vote _ rfl
    · rw [handleMessage, if_pos hheight]
      exact .inr ⟨hdrop, rfl⟩
  | commit c =>
    by_cases hheight : c.height = height
    · by_cases hquorum : c.hasQuorum r.config.quorumSize
      · rw [certificateFor, if_pos ⟨hheight, hquorum⟩, handleMessage,
          if_neg (not_not.mpr hheight), if_neg (by simp [hquorum])]
        exact .inl ⟨c, rfl, rfl, rfl⟩
      · rw [handleMessage, if_neg (not_not.mpr hheight), if_pos (by simp [hquorum])]
        exact .inr ⟨fun _ hc => (by cases hc), rfl⟩
    · rw [handleMessage, if_pos hheight]
      exact .inr ⟨hdrop, rfl⟩
  | syncRequest _ => exact .inr ⟨hdrop, rfl⟩
  | syncResponse _ _ _ => exact .inr ⟨hdrop, rfl⟩

theorem timeout_currentHeight : r.timeout.currentHeight = r.currentHeight := by
  unfold timeout
  split <;> rfl

theorem enterRound_currentHeight {p : Production} {sent : List BftMessage}
    (h : r.enterRound p = .ok (sent, r')) : r'.currentHeight = r.currentHeight := by
  obtain ⟨height, -, h⟩ := bind_inv h
  split at h
  · split at h <;> obtain ⟨rfl, rfl⟩ := pair_inv h <;> rfl
  · obtain ⟨rfl, rfl⟩ := pair_inv h
    rfl

end Runner

namespace Node

variable {α : Type} {P : SpeculationParts α} {genesis : AppState} {s s' : Node α}

theorem height_eq {r : Runner} {height : Nat} (h : r.height = .ok height) :
    height = r.currentHeight + 1 :=
  (Int128.u64_eq_ok.mp h).2.symm

variable {certificate : CommitCertificate} {block : ProducedBlock α} {call : NodeStep α}

theorem Commits.mono (h : s.Commits P certificate block) (hsub : s.proposals ⊆ s'.proposals) :
    s'.Commits P certificate block := by
  obtain ⟨p, hp, hsame⟩ := h
  exact ⟨p, hsub hp, hsame⟩

variable {clock : Nat → Instant} {ord endOrd : HashOrder} {timestamp : Timestamp}

/-- The producer executes one more block and leaves the application after it. -/
theorem produceBlock_cases {b b' : BlockProducer α}
    (h : b.produceBlock P.toProducerParts clock ord timestamp endOrd = .ok b') :
    ∃ block txs, P.executeBatch timestamp endOrd txs b.app = .ok block ∧
      b'.blocks = b.blocks ++ [block] ∧ b'.app = block.app := by
  obtain ⟨mempool, -, h⟩ := bind_inv h
  obtain ⟨block, hblock, h⟩ := bind_inv h
  obtain rfl := pure_inv h
  exact ⟨block, _, hblock, rfl, rfl⟩

/-- **A round.** Entering one leaves the node's blocks as they are, or adds the block that it
executed for its proposal. -/
theorem enterRound_cases {now : Nat} (h : s.enterRound P clock ord timestamp endOrd now = .ok s') :
    s'.committed = s.committed ∧ s'.inRound = true ∧ s.proposals ⊆ s'.proposals ∧
      s'.runner.currentHeight = s.runner.currentHeight ∧
      (s'.producer = s.producer ∨
        ∃ block txs, P.executeBatch timestamp endOrd txs s.producer.app = .ok block ∧
          s'.producer.blocks = s.producer.blocks ++ [block] ∧ s'.producer.app = block.app) := by
  obtain ⟨height, -, h⟩ := bind_inv h
  split at h
  · obtain ⟨producer, hproducer, h⟩ := bind_inv h
    obtain ⟨⟨sent, runner⟩, hrunner, h⟩ := bind_inv h
    obtain rfl := pure_inv h
    exact ⟨rfl, rfl, List.subset_append_left _ _, Runner.enterRound_currentHeight hrunner,
      .inr (produceBlock_cases hproducer)⟩
  · obtain rfl := pure_inv h
    exact ⟨rfl, rfl, fun _ hp => hp, rfl, .inl rfl⟩

/-! ### All runs: the blocks are executed one after the other -/

/-- Whatever happens, the application is that after the blocks that the node executed. -/
theorem executed_step
    (h : BlocksExecuted P.toProducerParts genesis s.producer.blocks s.producer.app)
    (hs : step P call s = .ok s') :
    BlocksExecuted P.toProducerParts genesis s'.producer.blocks s'.producer.app := by
  cases call with
  | submit tx =>
    obtain rfl := pure_inv hs
    exact h
  | peerProposes proposed =>
    obtain rfl := pure_inv hs
    exact h
  | enterRound clock ord timestamp endOrd now =>
    rw [step] at hs
    split at hs
    · obtain rfl := pure_inv hs
      exact h
    · obtain ⟨-, -, -, -, hsame | ⟨block, txs, hblock, hblocks, happ⟩⟩ := enterRound_cases hs
      · rw [hsame]
        exact h
      · rw [hblocks, happ]
        exact h.snoc timestamp endOrd hblock
  | receive message =>
    rw [step] at hs
    split at hs
    · obtain ⟨height, -, hs⟩ := bind_inv hs
      dsimp only at hs
      split at hs <;> obtain rfl := pure_inv hs <;> exact h
    · obtain rfl := pure_inv hs
      exact h
  | timeout =>
    rw [step] at hs
    split at hs <;> obtain rfl := pure_inv hs <;> exact h

/-- A node that is in step with its commits has executed no other block. -/
theorem InStep.executed_length {config : HyperBftConfig} {pool : MempoolConfig}
    {ok : Node α → NodeStep α → Prop} (h : s.InStep P genesis)
    (hrun : Run.Reaches (step P) ok (new config genesis pool) s) :
    s.producer.blocks.length = s.committed.length := by
  obtain ⟨-, blocks, hcommits, hblocks⟩ := h
  have hexec : BlocksExecuted P.toProducerParts genesis s.producer.blocks s.producer.app :=
    hrun.invariant .nil fun _ _ _ h _ hs => executed_step h hs
  have hcount := hexec.height.symm.trans hblocks.height
  rw [hcommits.length_eq]
  exact Nat.add_left_cancel hcount

/-! ### Runs whose rounds settle -/

/-- What the run lemma carries: the first blocks that were executed are the committed ones, and
at most one more is pending, in an open round only. -/
structure Tracks (P : SpeculationParts α) (genesis : AppState) (s : Node α) : Prop where
  executed : BlocksExecuted P.toProducerParts genesis s.producer.blocks s.producer.app
  heights : s.committed.map (·.height) = List.range' 1 s.committed.length
  current : s.runner.currentHeight = s.committed.length
  settled : List.Forall₂ (s.Commits P) s.committed (s.producer.blocks.take s.committed.length)
  pending_length : s.pending.length ≤ 1
  idle : s.inRound = false → s.pending = []

/-- What is committed was executed before what is pending. -/
theorem Tracks.length_le (h : Tracks P genesis s) :
    s.committed.length ≤ s.producer.blocks.length := by
  have hlength := h.settled.length_eq
  rw [List.length_take] at hlength
  omega

theorem Tracks.new (config : HyperBftConfig) (pool : MempoolConfig) :
    Tracks P genesis (new config genesis pool) :=
  ⟨.nil, rfl, rfl, .nil, Nat.zero_le _, fun _ => rfl⟩

/-- A step that leaves the producer's blocks and the commits as they are. -/
theorem Tracks.same (h : Tracks P genesis s) (happ : s'.producer.app = s.producer.app)
    (hblocks : s'.producer.blocks = s.producer.blocks) (hcommitted : s'.committed = s.committed)
    (hproposals : s.proposals ⊆ s'.proposals)
    (hcurrent : s'.runner.currentHeight = s.runner.currentHeight)
    (hidle : s'.inRound = false → s.pending = []) : Tracks P genesis s' := by
  have hpending : s'.pending = s.pending := by
    unfold pending
    rw [hblocks, hcommitted]
  refine ⟨?_, ?_, ?_, ?_, ?_, fun hr => ?_⟩
  · rw [hblocks, happ]
    exact h.executed
  · rw [hcommitted]
    exact h.heights
  · rw [hcurrent, hcommitted]
    exact h.current
  · rw [hcommitted, hblocks]
    exact h.settled.imp fun _ _ hc => hc.mono hproposals
  · rw [hpending]
    exact h.pending_length
  · rw [hpending]
    exact hidle hr

/-- A round that is entered: the block that the leader executes is the one that is pending. -/
theorem Tracks.enterRound (h : Tracks P genesis s) (hround : s.inRound = false) {now : Nat}
    (hs : s.enterRound P clock ord timestamp endOrd now = .ok s') :
    Tracks P genesis s' := by
  obtain ⟨hcommitted, hin, hproposals, hcurrent, hsame | ⟨block, txs, hblock, hblocks, happ⟩⟩ :=
    enterRound_cases hs
  · refine h.same ?_ ?_ hcommitted hproposals hcurrent fun hr => ?_
    · rw [hsame]
    · rw [hsame]
    · rw [hin] at hr
      cases hr
  · have hlength : s.producer.blocks.length = s.committed.length :=
      le_antisymm (List.drop_eq_nil_iff.mp (h.idle hround)) h.length_le
    refine ⟨?_, ?_, ?_, ?_, ?_, fun hr => ?_⟩
    · rw [hblocks, happ]
      exact h.executed.snoc timestamp endOrd hblock
    · rw [hcommitted]
      exact h.heights
    · rw [hcurrent, hcommitted]
      exact h.current
    · rw [hcommitted, hblocks, List.take_append_of_le_length hlength.ge]
      exact h.settled.imp fun _ _ hc => hc.mono hproposals
    · unfold pending
      rw [hblocks, hcommitted, List.length_drop, List.length_append, List.length_singleton]
      omega
    · rw [hin] at hr
      cases hr

/-- A commit of the block that is pending. -/
theorem Tracks.commit (h : Tracks P genesis s) {runner : Runner} (hpending : block ∈ s.pending)
    (hcommits : s.Commits P certificate block)
    (hheight : certificate.height = s.runner.currentHeight + 1)
    (hcurrent : runner.currentHeight = s.runner.currentHeight + 1) :
    Tracks P genesis
      { s with runner, inRound := false, committed := s.committed ++ [certificate] } := by
  have hone : s.pending = [block] := by
    obtain ⟨b, hb⟩ := List.length_eq_one_iff.mp
      (le_antisymm h.pending_length (List.length_pos_of_mem hpending))
    rw [hb] at hpending ⊢
    rw [List.mem_singleton.mp hpending]
  have hblocks : s.producer.blocks = s.producer.blocks.take s.committed.length ++ [block] := by
    rw [← hone]
    exact (List.take_append_drop _ _).symm
  have hlength : s.producer.blocks.length = s.committed.length + 1 := by
    have hdrop := congrArg List.length hone
    unfold pending at hdrop
    rw [List.length_drop, List.length_singleton] at hdrop
    omega
  have hnone : s.producer.blocks.drop (s.committed ++ [certificate]).length = [] := by
    rw [List.drop_eq_nil_iff, List.length_append, hlength]
    rfl
  refine ⟨h.executed, ?_, ?_, ?_, ?_, fun _ => hnone⟩
  · have hnext : certificate.height = 1 + s.committed.length := by
      rw [hheight, h.current, Nat.add_comm]
    rw [List.map_append, h.heights, List.map_singleton, List.length_append, List.length_singleton,
      List.range'_1_concat, hnext]
  · rw [hcurrent, h.current, List.length_append]
    rfl
  · show List.Forall₂ _ _ (s.producer.blocks.take (s.committed ++ [certificate]).length)
    rw [List.take_of_length_le (by rw [List.length_append, hlength]; rfl), hblocks]
    exact List.rel_append h.settled (.cons hcommits .nil)
  · show (s.producer.blocks.drop (s.committed ++ [certificate]).length).length ≤ 1
    rw [hnone]
    exact Nat.zero_le _

/-- **Step lemma.** A step that settles keeps the application behind the commits. -/
theorem Tracks.step (h : Tracks P genesis s) (hok : Settles P s call)
    (hs : step P call s = .ok s') :
    Tracks P genesis s' := by
  cases call with
  | submit tx =>
    obtain rfl := pure_inv hs
    exact h.same rfl rfl rfl (fun _ hp => hp) rfl h.idle
  | peerProposes proposed =>
    obtain rfl := pure_inv hs
    exact h.same rfl rfl rfl (List.subset_append_left _ _) rfl h.idle
  | enterRound clock ord timestamp endOrd now =>
    rw [Node.step] at hs
    split at hs
    · obtain rfl := pure_inv hs
      exact h
    · rename_i hround
      exact h.enterRound (Bool.eq_false_of_not_eq_true hround) hs
  | receive message =>
    rw [Node.step] at hs
    split at hs
    · rename_i hround
      obtain ⟨height, hheight, hs⟩ := bind_inv hs
      obtain rfl := height_eq hheight
      dsimp only at hs
      rcases @Runner.handleMessage_cases P.hasher s.runner (s.runner.currentHeight + 1) message
        with ⟨certificate, hcert, hresult, hcurrent⟩ | ⟨hresult, hcurrent⟩
      · rw [hresult] at hs
        obtain rfl := pure_inv hs
        obtain ⟨block, hblock, hcommits⟩ := hok hround certificate hcert
        exact h.commit hblock hcommits (Runner.certificateFor_height hcert) hcurrent
      · split at hs
        · rename_i certificate hcommitted
          exact absurd hcommitted (hresult certificate)
        · obtain rfl := pure_inv hs
          exact h.same rfl rfl rfl (fun _ hp => hp) hcurrent h.idle
    · obtain rfl := pure_inv hs
      exact h
  | timeout =>
    rw [Node.step] at hs
    split at hs
    · rename_i hround
      obtain rfl := pure_inv hs
      exact h.same rfl rfl rfl (fun _ hp => hp) Runner.timeout_currentHeight fun _ => hok hround
    · obtain rfl := pure_inv hs
      exact h

/-- **The application follows the commits.** When every certificate that is completed is for a
block that the node has just executed, and no round times out after it executed one, the
application is, after each commit and each timeout, what the committed blocks make of the
genesis in the order of their heights. -/
theorem commits_applied {config : HyperBftConfig} {pool : MempoolConfig}
    (h : Run.Reaches (step P) (Settles P) (new config genesis pool) s)
    (hround : s.inRound = false) : s.InStep P genesis := by
  have ht : Tracks P genesis s :=
    h.invariant (.new config pool) fun _ _ _ ht hok hs => ht.step hok hs
  have hall : s.producer.blocks.take s.committed.length = s.producer.blocks :=
    List.take_of_length_le (List.drop_eq_nil_iff.mp (ht.idle hround))
  exact ⟨ht.heights, _, hall ▸ ht.settled, ht.executed⟩

/-! #### Rounds that commit, and one that times out -/

/-- The parts of a pipeline's sample run, with the proposal's timestamp for its hash. -/
def sampleParts : SpeculationParts TransactionType :=
  { Pipeline.sampleParts with
    hasher := fun (_, _, _, timestamp, _) => Fin.ofNat _ timestamp
    appHashBytes := fun _ => 0 }

/-- Validator 1 of four, which leads the first height. -/
def sampleNode : Node TransactionType := new ⟨100, 4, 1, 1⟩ .new {}

/-- A round in which the block is executed at the given time. -/
def roundAt (time : Nat) : NodeStep TransactionType :=
  .enterRound (fun k => k) .sorted time .sorted time

/-- What validator 1 proposes in it. -/
def proposalAt (time : Nat) : BlockProposal := ⟨1, 1, [], 0, time, []⟩

/-- The vote of a validator for it. -/
def voteAt (time voter : Nat) : BftMessage :=
  .vote ⟨1, voter, computeProposalHash sampleParts.hasher (proposalAt time), []⟩

/-- The node proposes, votes, and commits with the votes of two others. -/
def committedRound (time : Nat) : List (NodeStep TransactionType) :=
  [roundAt time, .receive (.propose (proposalAt time)), .receive (voteAt time 0),
    .receive (voteAt time 2)]

/-- A certificate for the block that is pending. -/
def settlesWith (s : Node TransactionType) (certificate : CommitCertificate) : Bool :=
  s.pending.any fun block => s.proposals.any fun p =>
    p.proposal.height = certificate.height ∧
      computeProposalHash sampleParts.hasher p.proposal = certificate.blockHash ∧
      p.txs = block.txs ∧ p.timestamp = block.result.timestamp

theorem Settles.of_settlesWith {s : Node TransactionType} {message : BftMessage}
    (h : ((s.runner.certificateFor sampleParts.hasher (s.runner.currentHeight + 1) message).all
      s.settlesWith) = true) : Settles sampleParts s (.receive message) := by
  intro _ certificate hcert
  rw [hcert] at h
  obtain ⟨block, hblock, h⟩ := List.any_eq_true.mp h
  obtain ⟨p, hp, h⟩ := List.any_eq_true.mp h
  exact ⟨block, hblock, p, hp, of_decide_eq_true h⟩

/-- The steps of a run, each message checked for what it commits with. -/
def settledStep (s : Node TransactionType) (call : NodeStep TransactionType) :
    Exec (Node TransactionType) :=
  match call with
  | .receive message =>
    if (s.runner.certificateFor sampleParts.hasher (s.runner.currentHeight + 1) message).all
      s.settlesWith then step sampleParts call s else .error .panic
  | .timeout => .error .panic
  | _ => step sampleParts call s

theorem settledStep_reaches {calls : List (NodeStep TransactionType)}
    {s₀ s : Node TransactionType} (h : calls.foldlM settledStep s₀ = .ok s) :
    Run.Reaches (step sampleParts) (Settles sampleParts) s₀ s := by
  refine foldlM_induction (P := Run.Reaches (step sampleParts) (Settles sampleParts) s₀)
    h .refl fun call _ s s' hr hs => ?_
  cases call with
  | receive message =>
    rw [settledStep] at hs
    split at hs
    · rename_i hcert
      exact hr.tail _ (.of_settlesWith hcert) hs
    · cases hs
  | timeout => cases hs
  | submit tx => exact hr.tail (.submit tx) trivial hs
  | peerProposes proposed => exact hr.tail (.peerProposes proposed) trivial hs
  | enterRound clock ord timestamp endOrd now =>
    exact hr.tail (.enterRound clock ord timestamp endOrd now) trivial hs

/-- A lone validator executes, proposes and commits a block with what was submitted. -/
def loneRound (height time : Nat) (tx : SignedTx TransactionType) :
    List (NodeStep TransactionType) :=
  [.submit tx, roundAt time, .receive (.propose ⟨height, 0, [], 0, time, []⟩)]

theorem commits_applied_rounds : ∃ s : Node TransactionType,
    s.committed.map (·.height) = [1, 2] ∧
      s.producer.blocks.map (·.txs) =
        [[Pipeline.sampleTx], [{ Pipeline.sampleTx with nonce := 1 }]] ∧
      s.InStep sampleParts .new := by
  obtain ⟨s, hs, ht⟩ := exists_of_test
    (x := (loneRound 1 10 Pipeline.sampleTx ++
      loneRound 2 20 { Pipeline.sampleTx with nonce := 1 }).foldlM settledStep
        (new ⟨100, 1, 0, 0⟩ .new {}))
    (p := fun s => s.inRound = false ∧ s.committed.map (·.height) = [1, 2] ∧
      s.producer.blocks.map (·.txs) =
        [[Pipeline.sampleTx], [{ Pipeline.sampleTx with nonce := 1 }]])
    (by decide +kernel)
  obtain ⟨hround, hheights, hblocks⟩ := of_decide_eq_true ht
  exact ⟨s, hheights, hblocks, commits_applied (settledStep_reaches hs) hround⟩

/-- The leader executes a block, times out, executes another one and commits it: both are in
the application, after the timeout and after the commit. -/
theorem timed_out_block_stays : ∃ s₁ s₂ : Node TransactionType,
    Run.Reaches (step sampleParts) (fun _ _ => True) sampleNode s₁ ∧ s₁.inRound = false ∧
      s₁.committed = [] ∧ ¬ s₁.InStep sampleParts .new ∧
    Run.Reaches (step sampleParts) (fun _ _ => True) s₁ s₂ ∧ s₂.inRound = false ∧
      s₂.committed.map (·.height) = [1] ∧ ¬ s₂.InStep sampleParts .new := by
  obtain ⟨⟨_, _⟩, hs, ht⟩ := exists_of_test
    (x := do
      let s₁ ← [roundAt 10, .timeout].foldlM (fun s call => step sampleParts call s) sampleNode
      let s₂ ← (committedRound 20).foldlM (fun s call => step sampleParts call s) s₁
      return (s₁, s₂))
    (p := fun (s₁, s₂) =>
      (s₁.inRound = false ∧ s₁.committed = [] ∧ s₁.producer.blocks.length = 1) ∧
      s₂.inRound = false ∧ s₂.committed.map (·.height) = [1] ∧ s₂.producer.blocks.length = 2)
    (by decide +kernel)
  obtain ⟨⟨hround₁, hcommitted₁, hblocks₁⟩, hround₂, hcommitted₂, hblocks₂⟩ := of_decide_eq_true ht
  obtain ⟨s₁, hs₁, hs⟩ := bind_inv hs
  obtain ⟨s₂, hs₂, hs⟩ := bind_inv hs
  obtain ⟨rfl, rfl⟩ := pair_inv hs
  have hrun₁ : Run.Reaches (step sampleParts) (fun _ _ => True) sampleNode s₁ :=
    .of_foldlM (fun _ _ _ => trivial) hs₁
  have hrun₂ : Run.Reaches (step sampleParts) (fun _ _ => True) s₁ s₂ :=
    .of_foldlM (fun _ _ _ => trivial) hs₂
  refine ⟨s₁, s₂, hrun₁, hround₁, hcommitted₁, fun hstep => ?_, hrun₂, hround₂, hcommitted₂,
    fun hstep => ?_⟩
  · have hcount := hstep.executed_length hrun₁
    rw [hblocks₁, hcommitted₁] at hcount
    cases hcount
  · have hcount := hstep.executed_length (hrun₁.trans hrun₂)
    have hone := congrArg List.length hcommitted₂
    rw [List.length_map] at hone
    rw [hblocks₂, hone] at hcount
    cases hcount

end Node

end HyperBft

end Hypercore
