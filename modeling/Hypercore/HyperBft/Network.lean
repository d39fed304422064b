import Hypercore.HyperBft.Runner
import Hypercore.Lib.Quorum
import Hypercore.Lib.Run
import Mathlib.Data.Finset.Range
import Mathlib.Data.Finset.Image
/-!
# Hypercore.HyperBft.Network

Runners on a network: honest validators, faulty ones that send anything, and a
network that delivers any message to anyone, in any order and any number of
times.

`Meets` is the condition under which the runners agree. A runner checks of a
certificate only that it is long enough, of a vote only that its voter is new at
its height, and votes for every proposal of its height; the condition asks for
what these checks leave out.
-/

namespace Hypercore

namespace HyperBft

open Exec Int128

/-- The validators: `3f + 1` of them, of which at most `f` are faulty. -/
structure Committee where
  f : Nat
  faulty : Finset Nat
  faulty_lt : ∀ i ∈ faulty, i < 3 * f + 1
  faulty_card : faulty.card ≤ f
  /-- The view timeout they are configured with. -/
  maxWaitMs : Nat

namespace Committee

variable (C : Committee)

/-- Number of validators. -/
def n : Nat := 3 * C.f + 1

/-- A validator that runs the code. -/
def Honest (i : Nat) : Prop := i < C.n ∧ i ∉ C.faulty

instance (i : Nat) : Decidable (C.Honest i) := inferInstanceAs (Decidable (_ ∧ _))

/-- The configuration of a validator. -/
def config (i : Nat) : HyperBftConfig := ⟨C.maxWaitMs, C.n, C.f, i⟩

/-- Votes that make a quorum. -/
def quorum : Nat := 2 * C.f + 1

end Committee

/-- The state of the network. Only the entries of honest validators mean anything. -/
structure Net where
  runner : Nat → Runner
  /-- Everything a validator has sent. -/
  sent : Nat → List BftMessage
  /-- The certificates a validator has committed with. -/
  commits : Nat → List CommitCertificate

/-- What happens to a validator. A round that ends is followed by the next one, for
which its producer may be asked for a block. -/
inductive Event
  | start (i : Nat) (p : Production)
  | deliver (i : Nat) (m : BftMessage) (p : Production)
  | timeout (i : Nat) (p : Production)

namespace Net

/-- No runner has been started. -/
def init (C : Committee) : Net where
  runner i := .new (C.config i)
  sent _ := []
  commits _ := []

/-- Put a runner back with what it sent and committed. -/
def update (s : Net) (i : Nat) (r : Runner) (sent : List BftMessage)
    (commits : List CommitCertificate) : Net where
  runner := Function.update s.runner i r
  sent := Function.update s.sent i (s.sent i ++ sent)
  commits := Function.update s.commits i (s.commits i ++ commits)

/-- One event. -/
def step (hasher : HashFeed → Fin (2 ^ 64)) : Event → Net → Exec Net
  | .start i p, s => do
    let (sent, r) ← { s.runner i with running := true }.enterRound p
    return s.update i r sent []
  | .deliver i m p, s => do
    let height ← (s.runner i).height
    let handled := (s.runner i).handleMessage hasher height m
    match handled.result with
    | .ok (some certificate) =>
      let (sent, r) ← handled.runner.enterRound p
      return s.update i r (handled.sent ++ sent) [certificate]
    | _ => return s.update i handled.runner handled.sent []
  | .timeout i p, s => do
    let (sent, r) ← (s.runner i).timeout.enterRound p
    return s.update i r sent []

/-- A message that can be delivered: one an honest validator has sent, or any at all if
there is a faulty one to make it up. -/
def Available (C : Committee) (s : Net) (m : BftMessage) : Prop :=
  (∃ j, j < C.n ∧ j ∉ C.faulty ∧ m ∈ s.sent j) ∨ C.faulty ≠ ∅

instance (C : Committee) (s : Net) (m : BftMessage) : Decidable (s.Available C m) :=
  inferInstanceAs (Decidable (_ ∨ _))

/-- Events that can happen: to honest validators, on messages that can be delivered. -/
def Legal (C : Committee) (s : Net) : Event → Prop
  | .start i _ => C.Honest i ∧ (s.runner i).running = false
  | .deliver i m _ => C.Honest i ∧ (s.runner i).running = true ∧ s.Available C m
  | .timeout i _ => C.Honest i ∧ (s.runner i).running = true

instance (C : Committee) (s : Net) : (e : Event) → Decidable (s.Legal C e)
  | .start .. => inferInstanceAs (Decidable (_ ∧ _))
  | .deliver .. => inferInstanceAs (Decidable (_ ∧ _ ∧ _))
  | .timeout .. => inferInstanceAs (Decidable (_ ∧ _))

/-- The votes among some messages. -/
def votesOf (ms : List BftMessage) : List Vote :=
  ms.filterMap fun m => match m with
    | .vote v => some v
    | _ => none

/-- A vote of a validator of the set, which has cast it if it is honest. -/
def Genuine (C : Committee) (s : Net) (v : Vote) : Prop :=
  v.voter < C.n ∧ (v.voter ∉ C.faulty → v ∈ votesOf (s.sent v.voter))

instance (C : Committee) (s : Net) (v : Vote) : Decidable (s.Genuine C v) :=
  inferInstanceAs (Decidable (_ ∧ _))

/-- Who genuinely votes, in a certificate, for its height and its block. -/
def backers (C : Committee) (s : Net) (c : CommitCertificate) : Finset Nat :=
  ((c.votes.filter fun v =>
    v.height = c.height ∧ v.blockHash = c.blockHash ∧ s.Genuine C v).map (·.voter)).toFinset

/-- No two honest validators have committed different blocks at one height. -/
def Agreement (C : Committee) (s : Net) : Prop :=
  ∀ i j, C.Honest i → C.Honest j → ∀ c ∈ s.commits i, ∀ c' ∈ s.commits j,
    c.height = c'.height → c.blockHash = c'.blockHash

/-- Every commit of an honest validator is backed by a quorum of genuine votes. -/
def Backed (C : Committee) (s : Net) : Prop :=
  ∀ i, C.Honest i → ∀ c ∈ s.commits i, C.quorum ≤ (s.backers C c).card

/-! ### The condition -/

/-- What a delivery must satisfy: a proposal for the runner's height is for the block it
has voted for there, if any; a vote that is counted is genuine; a certificate that is
accepted is backed by a quorum of genuine votes. -/
def DeliveryMeets (C : Committee) (hasher : HashFeed → Fin (2 ^ 64)) (s : Net) (i : Nat) :
    BftMessage → Prop
  | .propose p => p.height = (s.runner i).currentHeight + 1 →
      ∀ v ∈ votesOf (s.sent i), v.height = p.height →
        v.blockHash = computeProposalHash hasher p
  | .vote v => v.height = (s.runner i).currentHeight + 1 → s.Genuine C v
  | .commit c => c.height = (s.runner i).currentHeight + 1 → c.hasQuorum C.quorum →
      C.quorum ≤ (s.backers C c).card
  | _ => True

instance (C : Committee) (hasher : HashFeed → Fin (2 ^ 64)) (s : Net) (i : Nat) :
    (m : BftMessage) → Decidable (s.DeliveryMeets C hasher i m)
  | .propose _ => inferInstanceAs (Decidable (_ → ∀ v ∈ _, _ → _))
  | .vote _ => inferInstanceAs (Decidable (_ → _))
  | .commit _ => inferInstanceAs (Decidable (_ → _ → _))
  | .syncRequest _ | .syncResponse .. => inferInstanceAs (Decidable True)

/-- The condition on an event. -/
def Meets (C : Committee) (hasher : HashFeed → Fin (2 ^ 64)) (s : Net) : Event → Prop
  | .deliver i m _ => s.DeliveryMeets C hasher i m
  | _ => True

instance (C : Committee) (hasher : HashFeed → Fin (2 ^ 64)) (s : Net) :
    (e : Event) → Decidable (s.Meets C hasher e)
  | .deliver .. => inferInstanceAs (Decidable (DeliveryMeets ..))
  | .start .. | .timeout .. => inferInstanceAs (Decidable True)

end Net

end HyperBft

end Hypercore
