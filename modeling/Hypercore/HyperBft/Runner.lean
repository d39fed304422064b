import Hypercore.Lib.FinMap
import Hypercore.Lib.Int128
/-!
# Hypercore.HyperBft.Runner

The consensus runner of one validator: the messages, the vote collector, and what
the runner does with each message.

A runner works on one height at a time, the one above the last it committed. It
votes for every proposal of that height, collects votes, and commits when its
collector has a quorum for one block or when a commit certificate arrives.
Neither votes nor certificates are authenticated: signatures are sent empty and
never read. Where the source returns whether it committed, the model returns the
certificate it committed with.

The hash of a proposal is the standard library's default hasher, whose algorithm
is not specified; it is a parameter. The block producer is the caller's
(`Production`).
-/

namespace Hypercore

namespace HyperBft

open Exec Int128

/-! ### Configuration and messages -/

/-- HyperBFT configuration. -/
structure HyperBftConfig where
  /-- Maximum time to wait before the view times out (ms). -/
  maxWaitMs : Nat
  numValidators : Nat
  /-- `f` in `3f + 1`. -/
  faultTolerance : Nat
  /-- This validator's index. -/
  validatorIndex : Nat
  deriving DecidableEq, Repr

namespace HyperBftConfig

/-- Quorum size: `2f + 1`. -/
def quorumSize (c : HyperBftConfig) : Nat := 2 * c.faultTolerance + 1

/-- Total validators needed: `3f + 1`. -/
def minValidators (c : HyperBftConfig) : Nat := 3 * c.faultTolerance + 1

/-- The leader of a height, round-robin. -/
def leaderForHeight (c : HyperBftConfig) (height : Nat) : Nat := height % c.numValidators

end HyperBftConfig

/-- Thirty-two bytes, read as a little-endian number. -/
abbrev BlockHash := Fin (2 ^ 256)

/-- Phase of the runner. -/
inductive BftPhase
  | idle
  | propose
  | vote
  | committed
  deriving DecidableEq, Repr

/-- Block proposal message. -/
structure BlockProposal where
  height : Nat
  /-- Proposer index. -/
  proposer : Nat
  txHashes : List BlockHash
  parentHash : BlockHash
  timestamp : Nat
  signature : List UInt8
  deriving DecidableEq, Repr

/-- Vote message. -/
structure Vote where
  height : Nat
  /-- Voter index. -/
  voter : Nat
  /-- Hash of the proposal voted on. -/
  blockHash : BlockHash
  signature : List UInt8
  deriving DecidableEq, Repr

/-- Commit certificate. -/
structure CommitCertificate where
  height : Nat
  blockHash : BlockHash
  votes : List Vote
  deriving DecidableEq, Repr

/-- Check if the certificate has enough votes. Only their number is looked at. -/
def CommitCertificate.hasQuorum (c : CommitCertificate) (quorumSize : Nat) : Bool :=
  quorumSize ≤ c.votes.length

/-- Messages exchanged between validators. -/
inductive BftMessage
  | propose (proposal : BlockProposal)
  | vote (vote : Vote)
  | commit (certificate : CommitCertificate)
  | syncRequest (height : Nat)
  | syncResponse (height : Nat) (proposal : BlockProposal) (certificate : CommitCertificate)
  deriving DecidableEq, Repr

/-- Consensus errors that the runner gives. -/
inductive ConsensusError
  | productionFailed (message : String)
  | internal (message : String)
  deriving DecidableEq, Repr

/-- The fields of a proposal that are hashed, in the order they are fed in. -/
abbrev HashFeed := Nat × Nat × BlockHash × Nat × List BlockHash

/-- `compute_proposal_hash`: the eight bytes of the hasher, four times over. The
signature is not hashed. -/
def computeProposalHash (hasher : HashFeed → Fin (2 ^ 64)) (p : BlockProposal) : BlockHash :=
  let h := (hasher (p.height, p.proposer, p.parentHash, p.timestamp, p.txHashes)).val
  Fin.ofNat _ (h * (1 + 2 ^ 64 + 2 ^ 128 + 2 ^ 192))

/-! ### The vote collector -/

/-- Tracks votes for block proposals and determines quorum. -/
structure VoteCollector where
  /-- Votes by height and block hash. -/
  votes : FinMap (PairKey Nat BlockHash) (List Vote)
  /-- Who has voted, per height. -/
  voted : FinMap Nat (List Nat)

namespace VoteCollector

def new : VoteCollector := ⟨∅, ∅⟩

/-- The votes collected for a block. -/
def votesFor (c : VoteCollector) (height : Nat) (blockHash : BlockHash) : List Vote :=
  (c.votes[(⟨height, blockHash⟩ : PairKey _ _)]?).getD []

/-- Who has voted at a height. -/
def votersAt (c : VoteCollector) (height : Nat) : List Nat := (c.voted[height]?).getD []

/-- Add a vote, with the certificate if a quorum is reached. A second vote of a voter at a
height is ignored. -/
def addVote (c : VoteCollector) (quorumSize : Nat) (vote : Vote) :
    Option CommitCertificate × VoteCollector :=
  if vote.voter ∈ c.votersAt vote.height then (none, c)
  else
    let votes := c.votesFor vote.height vote.blockHash ++ [vote]
    let c : VoteCollector := {
      votes := c.votes.insert ⟨vote.height, vote.blockHash⟩ votes
      voted := c.voted.insert vote.height (vote.voter :: c.votersAt vote.height) }
    (if quorumSize ≤ votes.length then some ⟨vote.height, vote.blockHash, votes⟩ else none, c)

/-- Clean up old heights. -/
def prune (c : VoteCollector) (minHeight : Nat) : VoteCollector where
  votes := c.votes.filter fun k _ => minHeight ≤ k.fst
  voted := c.voted.filter fun h _ => minHeight ≤ h

end VoteCollector

/-- Speculative execution while votes are in flight. The runner never takes a snapshot of
the engine, so there is nothing to restore on a rollback. -/
structure OptimisticExecutor where
  snapshotHeight : Option Nat
  isSpeculative : Bool
  deriving DecidableEq, Repr

namespace OptimisticExecutor

def new : OptimisticExecutor := ⟨none, false⟩

def beginSpeculative (height : Nat) : OptimisticExecutor := ⟨some height, true⟩

/-- Consensus succeeded, or what was speculated is dropped. -/
def clear : OptimisticExecutor := ⟨none, false⟩

end OptimisticExecutor

/-! ### The runner -/

/-- HyperBFT consensus state of one validator. -/
structure Runner where
  config : HyperBftConfig
  voteCollector : VoteCollector
  phase : BftPhase
  /-- The last committed height. -/
  currentHeight : Nat
  optimistic : OptimisticExecutor
  running : Bool

/-- What the block producer returns when asked for a block, and the clock. -/
structure Production where
  result : Except String BlockHash
  now : Nat

namespace Runner

/-- Create a new runner. -/
def new (config : HyperBftConfig) : Runner where
  config := config
  voteCollector := .new
  phase := .idle
  currentHeight := 0
  optimistic := .new
  running := false

/-- The height the runner works on. -/
def height (r : Runner) : Exec Nat := u64 (r.currentHeight + 1)

/-- What handling a message gives: the certificate the runner committed with, the
messages it sends, and the runner. -/
structure Handled where
  result : Except ConsensusError (Option CommitCertificate)
  sent : List BftMessage
  runner : Runner

/-- Advance to a committed height. -/
def advance (r : Runner) (height : Nat) : Runner :=
  { r with optimistic := .clear, currentHeight := height, phase := .committed }

/-- Commit a block once quorum is reached. -/
def commitBlock (r : Runner) (height : Nat) (certificate : CommitCertificate) : Handled :=
  let r := r.advance height
  ⟨.ok (some certificate), [.commit certificate],
    { r with voteCollector := r.voteCollector.prune (height - 10) }⟩

/-- Add a vote to the collector and commit on a quorum. -/
def collect (r : Runner) (height : Nat) (vote : Vote) : Handled :=
  let (certificate, voteCollector) := r.voteCollector.addVote r.config.quorumSize vote
  let r := { r with voteCollector }
  match certificate with
  | some certificate => r.commitBlock height certificate
  | none => ⟨.ok none, [], r⟩

/-- The vote of a runner for a proposal. -/
def voteFor (r : Runner) (hasher : HashFeed → Fin (2 ^ 64)) (proposal : BlockProposal) : Vote where
  height := proposal.height
  voter := r.config.validatorIndex
  blockHash := computeProposalHash hasher proposal
  signature := []

/-- Handle an incoming message at a height. Messages of other heights are dropped. -/
def handleMessage (hasher : HashFeed → Fin (2 ^ 64)) (r : Runner) (height : Nat) :
    BftMessage → Handled
  | .propose proposal =>
    if proposal.height ≠ height then ⟨.ok none, [], r⟩
    else
      let vote := r.voteFor hasher proposal
      let r := { r with optimistic := .beginSpeculative height, phase := .vote }
      let handled := r.collect height vote
      { handled with sent := .vote vote :: handled.sent }
  | .vote vote =>
    if vote.height ≠ height then ⟨.ok none, [], r⟩
    else r.collect height vote
  | .commit certificate =>
    if certificate.height ≠ height then ⟨.ok none, [], r⟩
    else if !certificate.hasQuorum r.config.quorumSize then
      ⟨.error (.internal "Commit certificate has insufficient votes"), [], r⟩
    else ⟨.ok (some certificate), [], r.advance height⟩
  | .syncRequest _ | .syncResponse .. => ⟨.ok none, [], r⟩

/-- Begin a round: the leader of the height proposes a block, if its producer gives one. -/
def enterRound (r : Runner) (p : Production) : Exec (List BftMessage × Runner) := do
  let height ← r.height
  if r.config.leaderForHeight height = r.config.validatorIndex then
    match p.result with
    | .error _ => return ([], r)
    | .ok parentHash =>
      let proposal : BlockProposal := {
        height
        proposer := r.config.validatorIndex
        txHashes := []
        parentHash
        timestamp := p.now
        signature := [] }
      return ([.propose proposal], { r with phase := .propose })
  else return ([], r)

/-- A view that ends without a commit. -/
def timeout (r : Runner) : Runner :=
  if r.optimistic.isSpeculative then { r with optimistic := .clear } else r

end Runner

end HyperBft

end Hypercore
