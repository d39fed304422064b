import Hypercore.Chain.Nonce
import Hypercore.Engine.Snapshot
import Hypercore.Engine.StoresRun
import Hypercore.Spot.Snapshot
/-!
# Hypercore.Chain.Snapshot

Snapshots of the application, taken for re-orgs.

A snapshot has the balance sheet, the legacy perp state, the spot engine and the fields of
the application, but neither the full perp engine, nor the reverse map of client order
ids, nor the EVM executor, nor the blocks noted in the legacy perp state; `restore` leaves
these as the abandoned branch left them, and clears the pending block events and the trees
that balance proofs are made from. Whether anything is lost therefore depends on what the
branch did: a resting order, for one, outlives it.
-/

namespace Hypercore

open Exec Int128

/-- Coordinated snapshot of all application state. -/
structure AppStateSnapshot where
  unifiedState : FinMap (PairKey AccountAddress TokenIndex) UnifiedBalance
  engine : EngineStateSnapshot
  spotEngine : Option SpotEngineStateSnapshot
  height : BlockHeight
  timestamp : Timestamp
  appHash : AppHash
  nonces : FinMap AccountAddress Nat
  blockEvents : FinMap BlockHeight (List BlockEvent)
  cloidToOid : FinMap (PairKey AccountAddress ClientOrderId) (MarketId × OrderId)
  lastTimestampNonces : FinMap AccountAddress Nat
  nextTradeId : Nat
  blockHashes : FinMap BlockHeight AppHash
  blockMetadata : FinMap BlockHeight BlockMeta

namespace AppState

/-- Create a coordinated snapshot of all state for re-org handling. -/
def snapshot (ord : HashOrder) (s : AppState) : AppStateSnapshot where
  unifiedState := s.unifiedState.snapshot
  engine := s.engine.snapshot ord
  spotEngine := s.spotEngine.map SpotEngineState.snapshot
  height := s.height
  timestamp := s.timestamp
  appHash := s.appHash
  nonces := s.nonces
  blockEvents := s.blockEvents
  cloidToOid := s.cloidToOid
  lastTimestampNonces := s.lastTimestampNonces
  nextTradeId := s.nextTradeId
  blockHashes := s.blockHashes
  blockMetadata := s.blockMetadata

/-- Restore the spot engine, if both the state and the snapshot have one. -/
def restoreSpot (ord : HashOrder) (spot : Option SpotEngineState)
    (snapshot : Option SpotEngineStateSnapshot) : Exec (Option SpotEngineState) :=
  match spot, snapshot with
  | some spot, some snapshot => do return some (← spot.restore ord snapshot)
  | spot, _ => return spot

/-- Restore state from a snapshot during re-org. -/
def restore (ord : HashOrder) (s : AppState) (snapshot : AppStateSnapshot) : Exec AppState := do
  let engine ← s.engine.restore snapshot.engine
  let spotEngine ← restoreSpot ord s.spotEngine snapshot.spotEngine
  return { s with
    unifiedState := s.unifiedState.restore snapshot.unifiedState
    engine, spotEngine
    height := snapshot.height
    timestamp := snapshot.timestamp
    appHash := snapshot.appHash
    nonces := snapshot.nonces
    blockEvents := snapshot.blockEvents
    cloidToOid := snapshot.cloidToOid
    lastTimestampNonces := snapshot.lastTimestampNonces
    nextTradeId := snapshot.nextTradeId
    blockHashes := snapshot.blockHashes
    blockMetadata := snapshot.blockMetadata
    pendingBlockEvents := []
    unifiedStateTree := none
    nonceTree := none }

/-- The states of a node's application: from genesis, by transactions and blocks, by the EVM
executor moving on behind it, and by restores of snapshots. -/
inductive Visited : AppState → Prop
  | genesis {g : GenesisState} {s : AppState} (nonneg : g.Nonneg)
      (start : AppState.genesis g = .ok s) : Visited s
  | step {s s' : AppState} (op : AppOp) (before : Visited s) (run : step op s = .ok s') :
      Visited s'
  | evm {s : AppState} (root : Option Nat) (before : Visited s) :
      Visited { s with evmRoot := root }
  | restore {s t r : AppState} (ord ord' : HashOrder) (taken : Visited s) (before : Visited t)
      (run : t.restore ord' (s.snapshot ord) = .ok r) : Visited r

/-! ### What every visited state has -/

/-- Both engines are there, the spot engine in order, and the legacy perp state is unused. -/
structure Served (s : AppState) : Prop where
  perp : s.perpEngine.isSome
  legacy : s.engine = .new
  spot : ∃ e, s.spotEngine = some e ∧ e.Housed

namespace Served

variable {s s' : AppState}

theorem setPerp (hs : s.Served) (e : Engine) : (s.setPerp e).Served :=
  ⟨rfl, hs.legacy, hs.spot⟩

theorem setSpot (hs : s.Served) {e : SpotEngineState} (he : e.Housed) : (s.setSpot e).Served :=
  ⟨hs.perp, hs.legacy, e, rfl, he⟩

theorem onPerp (hs : s.Served) {f : Engine → Exec Engine} (h : s.onPerp f = .ok s') :
    s'.Served := by
  unfold AppState.onPerp at h
  split at h
  · obtain rfl := pure_inv h
    exact hs
  · obtain ⟨e, -, h⟩ := bind_inv h
    obtain rfl := pure_inv h
    exact hs.setPerp e

theorem onSpot (hs : s.Served) {f : SpotEngineState → Exec SpotEngineState}
    (hf : ∀ e e', f e = .ok e' → e.Kept e') (h : s.onSpot f = .ok s') : s'.Served := by
  unfold AppState.onSpot AppState.spot at h
  obtain ⟨e, he, hhoused⟩ := hs.spot
  rw [he, Option.map_some] at h
  obtain ⟨e', he', h⟩ := bind_inv h
  obtain rfl := pure_inv h
  exact hs.setSpot ((hf _ _ he').housed ⟨hhoused.filed, hhoused.listed⟩)

/-- **Step lemma.** An effect leaves the engines served. -/
theorem applyEffect (hs : s.Served) {a : AccountAddress} {i : Effect}
    (h : AppState.applyEffect a i s = .ok s') : s'.Served := by
  cases i with
  | spotOrder m q t =>
    refine hs.onSpot (fun e e' he => ?_) h
    obtain ⟨⟨r, e₁⟩, hp, he⟩ := bind_inv he
    obtain rfl := pure_inv he
    exact SpotEngineState.placeOrder_kept hp
  | spotCancel m id =>
    refine hs.onSpot (fun e e' he => ?_) h
    obtain ⟨⟨r, e₁⟩, hp, he⟩ := bind_inv he
    obtain rfl := pure_inv he
    exact SpotEngineState.cancelOrder_kept hp
  | spotCancelAll m =>
    refine hs.onSpot (fun e e' he => ?_) h
    obtain ⟨⟨r, e₁⟩, hp, he⟩ := bind_inv he
    obtain rfl := pure_inv he
    exact SpotEngineState.cancelOrders_kept hp
  | viewTransfer k x toEvm =>
    refine hs.onSpot (fun e e' he => ?_) h
    obtain ⟨⟨r, e₁⟩, hp, he⟩ := bind_inv he
    obtain rfl := pure_inv he
    exact (SpotEngineState.viewTransfer_only hp).kept
  | updateLeverage m l =>
    unfold AppState.applyEffect at h
    cases hp : s.perp with
    | none =>
      -- the legacy state is written only without a perp engine
      have hnone : s.perpEngine = none := Option.map_eq_none_iff.mp hp
      have hperp := hs.perp
      rw [hnone] at hperp
      cases hperp
    | some e =>
      simp only [hp] at h
      exact hs.onPerp h
  | perpOrder q t => exact hs.onPerp h
  | perpCancel m id => exact hs.onPerp h
  | perpCancelAll m => exact hs.onPerp h
  | setMarginMode mode => exact hs.onPerp h
  | cancelTrigger id => exact hs.onPerp h
  | usdTransfer d x =>
    obtain ⟨u, -, h⟩ := bind_inv h
    obtain rfl := pure_inv h
    exact ⟨hs.perp, hs.legacy, hs.spot⟩
  | withdraw x =>
    obtain ⟨u, -, h⟩ := bind_inv h
    obtain rfl := pure_inv h
    exact ⟨hs.perp, hs.legacy, hs.spot⟩
  | evmMove k x toEvm =>
    obtain ⟨u, -, h⟩ := bind_inv h
    obtain rfl := pure_inv h
    exact ⟨hs.perp, hs.legacy, hs.spot⟩
  | bookkeeping c o p n =>
    obtain rfl := pure_inv h
    exact ⟨hs.perp, hs.legacy, hs.spot⟩

theorem executeTx (hs : s.Served) {tx : Transaction} {t : Timestamp}
    {r : Except AppError TxResult} (h : s.executeTx tx t = .ok (r, s')) : s'.Served := by
  rcases executeTx_cases h with ⟨rfl, -⟩ | ⟨a, ra, s₁, -, -, hact, hend⟩
  · exact hs
  · have hs₁ : s₁.Served :=
      (executeAction_run hact).invariant hs fun _ _ _ hs _ h => hs.applyEffect h
    rcases hend with ⟨e, -, -, rfl⟩ | ⟨events, s₂, -, -, hinc, rfl⟩
    · exact hs₁
    · obtain ⟨next, -, hinc⟩ := bind_inv hinc
      obtain rfl := pure_inv hinc
      unfold updateTimestampNonce
      split <;> exact ⟨hs₁.perp, hs₁.legacy, hs₁.spot⟩

theorem finishBlock (hs : s.Served) {ord : HashOrder} (h : finishBlock ord s = .ok s') :
    s'.Served := by
  obtain ⟨⟨events, s₁⟩, hup, h⟩ := bind_inv h
  obtain rfl := pure_inv h
  have hs₁ : s₁.Served := by
    unfold upkeep at hup
    split at hup
    · obtain ⟨-, rfl⟩ := pair_inv hup
      exact hs
    · obtain ⟨⟨rates, e₁⟩, -, hup⟩ := bind_inv hup
      obtain ⟨⟨done, e₂⟩, -, hup⟩ := bind_inv hup
      obtain ⟨-, rfl⟩ := pair_inv hup
      exact hs.setPerp e₂
  exact ⟨hs₁.perp, hs₁.legacy, hs₁.spot⟩

theorem genesis {g : GenesisState} (h : AppState.genesis g = .ok s) : s.Served := by
  obtain ⟨spot, hspot, h⟩ := bind_inv h
  obtain ⟨u, -, h⟩ := bind_inv h
  obtain ⟨perp, -, h⟩ := bind_inv h
  obtain rfl := pure_inv h
  refine ⟨rfl, rfl, spot, rfl, ?_⟩
  refine foldlM_induction (P := SpotEngineState.Housed) hspot (.withUnifiedState _)
    fun params _ e e' he hstep => ?_
  obtain ⟨⟨r, e₁⟩, hdeploy, hstep⟩ := bind_inv hstep
  obtain rfl := pure_inv hstep
  exact he.deployToken hdeploy

end Served

/-! ### Restoring -/

/-- The unused legacy state comes back unused. -/
theorem restore_new (ord : HashOrder) :
    EngineState.new.restore (EngineState.new.snapshot ord) = .ok .new := by
  have hnil : ∀ {κ ν : Type} [Ord κ] [Std.TransOrd κ],
      ord.visit (∅ : FinMap κ ν).toList = [] := by
    intro κ ν _ _
    rw [Std.ExtTreeMap.toList_eq_nil_iff.mpr rfl]
    exact (ord.perm []).eq_nil
  have hsnap : EngineState.new.snapshot ord = ⟨[], [], [], [], [], 0, 1, [], []⟩ := by
    unfold EngineState.snapshot EngineState.listTriggers HashOrder.entries
    simp [EngineState.new, EngineState.triggers, hnil]
  rw [hsnap]
  rfl

/-- **What a restore brings back.** Everything of `s` but the perp engine, the reverse map of
client order ids, the EVM executor, the blocks in the legacy state, the pending events and the
proof trees; the books of the spot engine hold the recorded orders. -/
theorem restore_snapshot {s t : AppState} {e : SpotEngineState} (hs : s.Served) (ht : t.Served)
    (he : s.spotEngine = some e) (ord ord' : HashOrder) : ∃ orderbooks unifiedState,
      t.restore ord' (s.snapshot ord) = .ok { s with
        perpEngine := t.perpEngine
        spotEngine := some { e with orderbooks, unifiedState }
        evmRoot := t.evmRoot
        oidToCloid := t.oidToCloid
        engineHeight := t.engineHeight
        engineBlocks := t.engineBlocks
        pendingBlockEvents := []
        unifiedStateTree := none
        nonceTree := none } ∧
      (∀ m : SpotMarketId, (orderbooks[m]?).isSome = (e.orderbooks[m]?).isSome) ∧
      ∀ (m : SpotMarketId) (b : OrderBook), orderbooks[m]? = some b →
        b.Holds (e.recorded m) ∧ b.CachesRight := by
  obtain ⟨e', he', hhoused⟩ := hs.spot
  obtain rfl := Option.some.inj (he.symm.trans he')
  obtain ⟨d, hd, -⟩ := ht.spot
  obtain ⟨orderbooks, hrestore, hdomain, hbooks⟩ :=
    SpotEngineState.restore_snapshot hhoused ord' d
  refine ⟨orderbooks, d.unifiedState, ?_, hdomain, hbooks⟩
  have hspot : restoreSpot ord' t.spotEngine (s.snapshot ord).spotEngine =
      .ok (some { e with orderbooks, unifiedState := d.unifiedState }) := by
    unfold AppState.snapshot restoreSpot
    rw [hd, he]
    exact bind_eq_ok.mpr ⟨_, hrestore, rfl⟩
  unfold restore
  rw [hspot, ht.legacy]
  have hlegacy : (s.snapshot ord).engine = EngineState.new.snapshot ord := by
    unfold AppState.snapshot
    rw [hs.legacy]
  rw [hlegacy, restore_new]
  have hsame : s = { s with engine := .new } := by rw [← hs.legacy]
  rw [hsame]
  rfl

theorem Visited.served {s : AppState} (h : Visited s) : s.Served := by
  induction h with
  | genesis _ start => exact .genesis start
  | step op _ run ih =>
    cases op with
    | tx tx t =>
      obtain ⟨⟨r, s₁⟩, h1, run⟩ := bind_inv run
      obtain rfl := pure_inv run
      exact ih.executeTx h1
    | beginBlock k t =>
      obtain rfl := pure_inv run
      exact ⟨ih.perp, ih.legacy, ih.spot⟩
    | endBlock ord => exact ih.finishBlock run
  | evm root _ ih => exact ⟨ih.perp, ih.legacy, ih.spot⟩
  | @restore s t r ord ord' _ _ run ihs iht =>
    obtain ⟨e, he, hhoused⟩ := ihs.spot
    obtain ⟨orderbooks, u, hrestore, hdomain, hbooks⟩ := restore_snapshot ihs iht he ord ord'
    obtain rfl := ok_unique hrestore run
    refine ⟨iht.perp, ihs.legacy, _, rfl, ⟨fun m => ?_, hhoused.filed.record, fun m b hb => ?_⟩,
      fun m => (hdomain m).trans (hhoused.listed m)⟩
    · exact (hhoused.filed.both m).trans (hdomain m).symm
    · exact (hbooks m b hb).2

/-! ### Fidelity -/

/-- Everything that execution and the app hash read is the same. -/
structure SameState (s r : AppState) : Prop where
  perp : r.perp = s.perp
  spot : r.spot.map SpotEngineState.unstated = s.spot.map SpotEngineState.unstated
  legacy : r.engine = s.engine
  unifiedState : r.unifiedState = s.unifiedState
  evmRoot : r.evmRoot = s.evmRoot
  height : r.height = s.height
  timestamp : r.timestamp = s.timestamp
  appHash : r.appHash = s.appHash
  nonces : r.nonces = s.nonces
  blockEvents : r.blockEvents = s.blockEvents
  cloidToOid : r.cloidToOid = s.cloidToOid
  oidToCloid : r.oidToCloid = s.oidToCloid
  lastTimestampNonces : r.lastTimestampNonces = s.lastTimestampNonces
  pendingBlockEvents : r.pendingBlockEvents = s.pendingBlockEvents
  nextTradeId : r.nextTradeId = s.nextTradeId

/-- Everything else that queries read is the same: the blocks, and the trees of balance and
nonce proofs. -/
structure SameRecords (s r : AppState) : Prop where
  blockHashes : r.blockHashes = s.blockHashes
  blockMetadata : r.blockMetadata = s.blockMetadata
  unifiedStateTree : r.unifiedStateTree = s.unifiedStateTree
  nonceTree : r.nonceTree = s.nonceTree
  engineHeight : r.engineHeight = s.engineHeight
  engineBlocks : r.engineBlocks = s.engineBlocks

/-- The snapshot of `s`, restored into what a branch has made of it, brings back a state in
which `P` holds of `s`. -/
def RestoresTo (P : AppState → AppState → Prop) (ord ord' : HashOrder) (s t : AppState) : Prop :=
  ∃ r, t.restore ord' (s.snapshot ord) = .ok r ∧ P s r

/-- The branch has changed nothing that a restore leaves alone, no events were pending, and
the books of the spot engine are those of its orders map. -/
structure Recoverable (s t : AppState) : Prop where
  perp : (t.setUnified s.unifiedState).perp = s.perp
  oidToCloid : t.oidToCloid = s.oidToCloid
  evmRoot : t.evmRoot = s.evmRoot
  pendingBlockEvents : s.pendingBlockEvents = []
  spot : ∀ e, s.spotEngine = some e → e.BooksRecorded

/-- No proof trees had been cached, and the branch has ended no block. -/
structure RecordsRecoverable (s t : AppState) : Prop where
  unifiedStateTree : s.unifiedStateTree = none
  nonceTree : s.nonceTree = none
  engineHeight : t.engineHeight = s.engineHeight
  engineBlocks : t.engineBlocks = s.engineBlocks

/-- **Snapshot and restore.** For every state `s` and every state `t` that the application was
brought to afterwards, a restore brings back all that execution reads if and only if
`Recoverable` holds of the two, and all that queries read besides if and only if
`RecordsRecoverable` does. -/
theorem reorg_faithful_iff {s t : AppState} (hs : Visited s) (ht : Visited t)
    (ord ord' : HashOrder) :
    (RestoresTo SameState ord ord' s t ↔ Recoverable s t) ∧
      (RestoresTo SameRecords ord ord' s t ↔ RecordsRecoverable s t) := by
  obtain ⟨e, he, hhoused⟩ := hs.served.spot
  obtain ⟨orderbooks, u, hrestore, hdomain, hbooks⟩ :=
    restore_snapshot hs.served ht.served he ord ord'
  have hiff := SpotEngineState.unstated_eq_iff (s := { e with unifiedState := s.unifiedState })
    ⟨hhoused.filed, hhoused.listed⟩ hdomain hbooks
  have hspot : s.spot = some { e with unifiedState := s.unifiedState } := by
    unfold AppState.spot
    rw [he, Option.map_some]
  refine ⟨⟨?_, fun h => ⟨_, hrestore, ?_⟩⟩, ⟨?_, fun h => ⟨_, hrestore, ?_⟩⟩⟩
  · rintro ⟨r, hr, h⟩
    obtain rfl := ok_unique hrestore hr
    refine ⟨h.perp, h.oidToCloid, h.evmRoot, h.pendingBlockEvents.symm, fun e' he' => ?_⟩
    obtain rfl := Option.some.inj (he.symm.trans he')
    have hsame := h.spot
    rw [hspot] at hsame
    exact hiff.mp (Option.some.inj hsame)
  · refine ⟨h.perp, ?_, rfl, rfl, h.evmRoot, rfl, rfl, rfl, rfl, rfl, rfl, h.oidToCloid, rfl,
      h.pendingBlockEvents.symm, rfl⟩
    rw [hspot]
    exact congrArg some (hiff.mpr (h.spot e he))
  · rintro ⟨r, hr, h⟩
    obtain rfl := ok_unique hrestore hr
    exact ⟨h.unifiedStateTree.symm, h.nonceTree.symm, h.engineHeight, h.engineBlocks⟩
  · exact ⟨rfl, rfl, h.unifiedStateTree.symm, h.nonceTree.symm, h.engineHeight, h.engineBlocks⟩

/-- Runs of transactions and blocks visit their states. -/
theorem Reachable.visited {s : AppState} (h : Reachable s) : Visited s :=
  h.induction (fun _ _ hg h0 => .genesis hg h0) fun _ op _ hs _ hstep => .step op hs hstep

/-- A transfer changes the balance sheet and the nonces. -/
theorem executeTx_transfer {s s' : AppState} {n : Nat} {t : Timestamp}
    {r : Except AppError TxResult} (h : s.executeTx (transferTx n) t = .ok (r, s')) :
    ∃ unifiedState nonces lastTimestampNonces,
      s' = { s with unifiedState, nonces, lastTimestampNonces } := by
  rcases executeTx_cases h with ⟨rfl, -⟩ | ⟨a, ra, s₁, -, -, hact, hend⟩
  · exact ⟨_, _, _, rfl⟩
  · obtain ⟨u, rfl⟩ : ∃ u, s₁ = s.setUnified u := by
      change s.executeUsdTransfer a 2 "100" = _ at hact
      unfold executeUsdTransfer at hact
      split at hact
      · obtain ⟨-, rfl⟩ := pair_inv hact
        exact ⟨s.unifiedState, rfl⟩
      · split at hact
        · obtain ⟨-, rfl⟩ := pair_inv hact
          exact ⟨s.unifiedState, rfl⟩
        · obtain ⟨⟨done, u⟩, -, hact⟩ := bind_inv hact
          refine ⟨u, ?_⟩
          dsimp only at hact
          split at hact <;> exact (pair_inv hact).2.symm
    rcases hend with ⟨e, -, -, rfl⟩ | ⟨events, s₂, -, -, hinc, rfl⟩
    · exact ⟨u, s.nonces, s.lastTimestampNonces, rfl⟩
    · obtain ⟨next, -, hinc⟩ := bind_inv hinc
      obtain rfl := pure_inv hinc
      unfold updateTimestampNonce
      split <;> exact ⟨_, _, _, rfl⟩

/-- A branch with a transfer, taken back. -/
theorem reorg_faithful_iff_transfer : ∃ s t : AppState, Visited s ∧ Visited t ∧
    s.unifiedState.getCoreView 2 0 = ⟨0, 6⟩ ∧ t.unifiedState.getCoreView 2 0 = ⟨100000000, 6⟩ ∧
    ((RestoresTo SameState .sorted .reversed s t ↔ Recoverable s t) ∧
      (RestoresTo SameRecords .sorted .reversed s t ↔ RecordsRecoverable s t)) ∧
    Recoverable s t ∧ RecordsRecoverable s t := by
  obtain ⟨s, h0, htest⟩ := exists_of_test (x := genesis (usdcGenesis [(1, 1000000000)]))
    (p := fun s => decide (s.unifiedState.getCoreView 2 0 = ⟨0, 6⟩) &&
      decide ((fun t => t.unifiedState.getCoreView 2 0) <$> step (.tx (transferTx 0) 0) s =
        (.ok ⟨100000000, 6⟩ : Exec Decimal))) (by decide +kernel)
  simp only [Bool.and_eq_true, decide_eq_true_eq] at htest
  obtain ⟨t, ht, hview⟩ := map_eq_ok.mp htest.2
  have hs : Visited s := .genesis (usdcGenesis_nonneg _) h0
  have hvisited : Visited t := hs.step _ ht
  refine ⟨s, t, hs, hvisited, htest.1, hview, reorg_faithful_iff hs hvisited _ _, ?_⟩
  obtain ⟨⟨r, t'⟩, hrun, ht⟩ := bind_inv ht
  obtain rfl := pure_inv ht
  obtain ⟨u, nonces, stamps, rfl⟩ := executeTx_transfer hrun
  obtain ⟨spot, hspot, h0⟩ := bind_inv h0
  obtain ⟨u₀, -, h0⟩ := bind_inv h0
  obtain ⟨perp, -, h0⟩ := bind_inv h0
  obtain rfl := pure_inv h0
  obtain rfl := pure_inv hspot
  refine ⟨⟨rfl, rfl, rfl, rfl, fun e he m b hb => ?_⟩, ⟨rfl, rfl, rfl, rfl⟩⟩
  obtain rfl := Option.some.inj he
  cases hb

/-- Account 1 bids for 0.001 BTC. -/
def restingTx : Transaction where
  action := .order [{
    a := 0, b := true, p := "50000", s := "0.001", r := false, t := .limit "Gtc", c := none }]
  nonce := 0
  signer := some 1

/-- How many BTC orders rest in the perp engine. -/
def restingOrders (s : AppState) : Option Nat := s.perp.map fun e => (e.state.mapOrders 0).length

/-- An order placed after the snapshot rests in the restored state. -/
theorem abandoned_order_survives : ∃ s t r : AppState, Reachable s ∧
    step (.tx restingTx 1000) s = .ok t ∧ t.restore .sorted (s.snapshot .sorted) = .ok r ∧
    s.restingOrders = some 0 ∧ r.restingOrders = some 1 ∧
    ¬ RestoresTo SameState .sorted .sorted s t := by
  obtain ⟨s, h0, htest⟩ := exists_of_test (x := nodeRun (usdcGenesis [(1, 1000000000)]) [])
    (p := fun s => decide (s.restingOrders = some 0) && decide ((do
      let t ← step (.tx restingTx 1000) s
      let r ← t.restore .sorted (s.snapshot .sorted)
      return r.restingOrders : Exec (Option Nat)) = .ok (some 1))) (by decide +kernel)
  simp only [Bool.and_eq_true, decide_eq_true_eq] at htest
  obtain ⟨t, ht, hrun⟩ := bind_inv htest.2
  obtain ⟨r, hr, hrun⟩ := bind_inv hrun
  have hresting := pure_inv hrun
  refine ⟨s, t, r, nodeRun_reachable (usdcGenesis_nonneg _) h0, ht, hr, htest.1, hresting, ?_⟩
  rintro ⟨r', hr', hsame⟩
  obtain rfl := ok_unique hr hr'
  have hcount : r.restingOrders = s.restingOrders := by
    unfold restingOrders
    rw [hsame.perp]
  rw [htest.1, hresting] at hcount
  cases hcount

end AppState

end Hypercore
