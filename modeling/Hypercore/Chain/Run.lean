import Hypercore.Chain.Effects
import Hypercore.Engine.Run
/-!
# Hypercore.Chain.Run

The application as a system: the node at genesis, transactions and blocks, and
the runs they form.
-/

namespace Hypercore

open Exec Int128

/-- Operations on the application. -/
inductive AppOp
  | tx (tx : Transaction) (timestamp : Timestamp)
  | beginBlock (height : BlockHeight) (timestamp : Timestamp)
  | endBlock (ord : HashOrder)

/-- A genesis balance, in the core view or the EVM view. -/
structure GenesisBalance where
  address : AccountAddress
  token : TokenIndex
  amount : Decimal
  evm : Bool

/-- Genesis tokens and balances. -/
structure GenesisState where
  tokens : List SpotTokenDeployParams
  balances : List GenesisBalance

/-- No amount of the genesis is negative. -/
structure GenesisState.Nonneg (g : GenesisState) : Prop where
  supply : ∀ p ∈ g.tokens, 0 ≤ p.maxSupply.value
  allocations : ∀ p ∈ g.tokens, ∀ a ∈ p.genesisAllocations, 0 ≤ a.2.value
  balances : ∀ b ∈ g.balances, 0 ≤ b.amount.value

/-- Credit a genesis balance; a zero amount is skipped. -/
def UnifiedState.creditGenesis (u : UnifiedState) (b : GenesisBalance) : Exec UnifiedState :=
  if b.amount.value = 0 then return u
  else if b.evm then u.creditEvm b.address b.token b.amount
  else u.credit b.address b.token b.amount

namespace AppState

/-- The system deployer of the genesis tokens. -/
def systemDeployer : AccountAddress := 0

/-- The spot engine at genesis. A token that cannot be deployed is skipped. -/
def genesisSpot (g : GenesisState) : Exec SpotEngineState :=
  g.tokens.foldlM (fun s params => return (← s.deployToken params systemDeployer).2)
    (.withUnifiedState .new)

/-- The perp engine at genesis: the BTC and ETH markets. -/
def genesisPerp (u : UnifiedState) : Exec Engine := do
  let e ← (Engine.withUnifiedState .default u).addMarket .btcPerp ⟨6500000000000, 8⟩ 0
  e.addMarket .ethPerp ⟨350000000000, 8⟩ 0

/-- The node before its first block: both engines on one balance sheet. -/
def genesis (g : GenesisState) : Exec AppState := do
  let spot ← genesisSpot g
  let unifiedState ← g.balances.foldlM UnifiedState.creditGenesis spot.unifiedState
  let perp ← genesisPerp unifiedState
  return { new with unifiedState, perpEngine := some perp, spotEngine := some spot }

/-- One operation. Results, errors included, are dropped; the state is kept. -/
def step : AppOp → AppState → Exec AppState
  | .tx tx t, s => do return (← s.executeTx tx t).2
  | .beginBlock h t, s => return s.beginBlock h t
  | .endBlock ord, s => finishBlock ord s

/-- Runs from the genesis of a node whose steps all satisfy `ok`. -/
def ReachableWith (ok : AppState → AppOp → Prop) (s : AppState) : Prop :=
  ∃ g s₀, g.Nonneg ∧ genesis g = .ok s₀ ∧ Run.Reaches step ok s₀ s

/-- Reachable from the genesis of a node. -/
def Reachable (s : AppState) : Prop := ReachableWith (fun _ _ => True) s

variable {ok : AppState → AppOp → Prop} {g : GenesisState} {ops : List AppOp}

/-- Induction over the runs from genesis. -/
theorem ReachableWith.induction {P : AppState → Prop} {s : AppState} (h : ReachableWith ok s)
    (h0 : ∀ g s, g.Nonneg → genesis g = .ok s → P s)
    (hstep : ∀ s op s', P s → ok s op → step op s = .ok s' → P s') : P s := by
  obtain ⟨g, s₀, hg, h₀, hr⟩ := h
  exact hr.invariant (h0 g s₀ hg h₀) hstep

/-- A run from the genesis of a node. -/
def nodeRun (g : GenesisState) (ops : List AppOp) : Exec AppState := do
  let s ← genesis g
  ops.foldlM (fun s op => step op s) s

theorem nodeRun_reachableWith {s : AppState} (hg : g.Nonneg) (hok : ∀ op ∈ ops, ∀ s, ok s op)
    (h : nodeRun g ops = .ok s) : ReachableWith ok s := by
  obtain ⟨s₀, h0, h⟩ := bind_inv h
  exact ⟨g, s₀, hg, h0, .of_foldlM hok h⟩

theorem nodeRun_reachable {s : AppState} (hg : g.Nonneg) (h : nodeRun g ops = .ok s) :
    Reachable s :=
  nodeRun_reachableWith hg (fun _ _ _ => trivial) h

/-- A node with USDC in the core view of some accounts, no tokens deployed. -/
def usdcGenesis (balances : List (AccountAddress × Nat)) : GenesisState where
  tokens := []
  balances := balances.map fun p => ⟨p.1, 0, ⟨p.2, 6⟩, false⟩

theorem usdcGenesis_nonneg (balances : List (AccountAddress × Nat)) :
    (usdcGenesis balances).Nonneg where
  supply := by simp [usdcGenesis]
  allocations := by simp [usdcGenesis]
  balances := by
    intro b hb
    obtain ⟨p, -, rfl⟩ := List.mem_map.mp hb
    exact Int.natCast_nonneg _

/-! ### Executing a transaction -/

section Execute

variable {s s' : AppState} {tx : Transaction} {t : Timestamp}

/-- **Inversion of `execute_tx`.** Either validation fails and nothing changes, or the
nonce is valid and the action is executed; on success the nonces advance. -/
theorem executeTx_cases {r : Except AppError TxResult} (h : s.executeTx tx t = .ok (r, s')) :
    (s' = s ∧ ∃ e, r = .error (.stateError e)) ∨
    ∃ a ra s₁, tx.signer = some a ∧ s.validateNonce a tx.nonce t = true ∧
      s.executeAction a t tx.action = .ok (ra, s₁) ∧
      ((∃ e, ra = .error e ∧ r = .error e ∧ s' = s₁) ∨
        ∃ events s₂, ra = .ok events ∧ r = .ok ⟨true, events, 1⟩ ∧
          s₁.incrementNonce a = .ok s₂ ∧ s' = s₂.updateTimestampNonce a tx.nonce) := by
  unfold executeTx validateTx Transaction.sender at h
  cases ha : tx.signer with
  | none =>
    rw [ha] at h
    cases pure_inv h
    exact .inl ⟨rfl, _, rfl⟩
  | some a =>
    rw [ha] at h
    dsimp only at h
    cases hv : s.validateNonce a tx.nonce t with
    | false =>
      rw [hv] at h
      cases pure_inv h
      exact .inl ⟨rfl, _, rfl⟩
    | true =>
      rw [hv] at h
      obtain ⟨⟨ra, s₁⟩, hact, h⟩ := bind_inv h
      refine .inr ⟨a, ra, s₁, rfl, hv, hact, ?_⟩
      cases ra with
      | error e =>
        cases pure_inv h
        exact .inl ⟨e, rfl, rfl, rfl⟩
      | ok events =>
        obtain ⟨s₂, hi, h⟩ := bind_inv h
        cases pure_inv h
        exact .inr ⟨events, s₂, rfl, rfl, hi, rfl⟩

end Execute

end AppState

end Hypercore
