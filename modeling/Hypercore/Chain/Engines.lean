import Hypercore.Chain.Run
import Hypercore.Engine.Filing
import Hypercore.Engine.Holders
import Hypercore.Engine.OrderFate
import Hypercore.Engine.TriggerLife
import Hypercore.Spot.Alignment
/-!
# Hypercore.Chain.Engines

The engines inside a node.

The node calls its engines from many handlers, each time on the balance sheet of that moment.
For the engine a call is an operation of its own, and the new balance sheet is one too: so the
engines of a node are states that their own operations lead to (`Reachable.leads`), and what
holds of every such state holds of them.
-/

namespace Hypercore

open Exec Int128

namespace AppState

/-- A perp engine that its operations lead to from the markets of the genesis. -/
def PerpLeads (e : Engine) : Prop :=
  ∃ u e₀, genesisPerp u = .ok e₀ ∧ Run.Reaches Engine.step (fun _ _ => True) e₀ e

/-- The engines of a node are states that their operations lead to. -/
structure Leads (s : AppState) : Prop where
  perp : ∃ e, s.perpEngine = some e ∧ PerpLeads e
  spot : ∃ e u, s.spotEngine = some e ∧ SpotCall.Arrives u e

/-- Spot orders come from the wire. -/
def OnWire : EffectCond
  | _, .spotOrder m q _ => ∃ w : OrderWire, w.a = m ∧ w.toOrderRequest = .ok q
  | _, _ => True

section Perp

variable {e e' : Engine}

theorem PerpLeads.step (h : PerpLeads e) (op : Op) (hstep : Engine.step op e = .ok e') :
    PerpLeads e' := by
  obtain ⟨u, e₀, h0, hrun⟩ := h
  exact ⟨u, e₀, h0, hrun.tail op trivial hstep⟩

/-- The perp engine of a node is reachable. -/
theorem PerpLeads.reachable (h : PerpLeads e) : e.Reachable := by
  obtain ⟨u, e₀, h0, hrun⟩ := h
  refine ⟨e₀, ?_, hrun⟩
  obtain ⟨e₁, h1, h2⟩ := bind_inv h0
  exact .addMarket _ _ _ (.addMarket _ _ _ (.withUnifiedState _ _) h1) h2

/-- Its markets are those of the genesis. -/
theorem PerpLeads.config (h : PerpLeads e) {m : MarketId} {market : Market}
    (hm : e.state.getMarket m = some market) :
    market.config = .btcPerp ∨ market.config = .ethPerp := by
  obtain ⟨u, e₀, h0, hrun⟩ := h
  have hconfigs : Engine.ConfigsKept e₀.state e.state :=
    hrun.invariant (P := fun e => Engine.ConfigsKept e₀.state e.state) (.refl _)
      fun _ _ _ hk _ hstep => hk.trans ((Engine.step_acts hstep).rel
        (R := fun e e' => Engine.ConfigsKept e.state e'.state)
        (fun _ => .refl _) (fun _ _ _ => .trans) fun _ _ => Engine.Act.configs)
  have hmap := hconfigs m
  rw [hm] at hmap
  obtain ⟨market₀, hm₀, hconfig⟩ := Option.map_eq_some_iff.mp hmap.symm
  rw [show market.config = market₀.config from hconfig.symm]
  -- the two markets of the genesis
  obtain ⟨e₁, h1, h2⟩ := bind_inv h0
  obtain ⟨n, -, h1⟩ := bind_inv h1
  obtain ⟨n', -, h1⟩ := bind_inv h1
  obtain rfl := pure_inv h1
  obtain ⟨n, -, h2⟩ := bind_inv h2
  obtain ⟨n', -, h2⟩ := bind_inv h2
  obtain rfl := pure_inv h2
  unfold EngineState.getMarket EngineState.addMarket at hm₀
  dsimp only at hm₀
  rw [FinMap.get_insert, FinMap.get_insert] at hm₀
  split at hm₀
  · obtain rfl := Option.some.inj hm₀
    exact .inr rfl
  · split at hm₀
    · obtain rfl := Option.some.inj hm₀
      exact .inl rfl
    · simp [Engine.withUnifiedState, Engine.new, EngineState.new] at hm₀

/-- They take orders of a positive size only. -/
theorem PerpLeads.lot (h : PerpLeads e) {m : MarketId} {market : Market}
    (hm : e.state.getMarket m = some market) : 0 < market.config.minOrderSize.value := by
  rcases h.config hm with hc | hc
  · rw [hc]
    decide
  · rw [hc]
    decide

end Perp

namespace Leads

variable {s s' : AppState}

theorem perp_leads (hs : s.Leads) {e : Engine} (he : s.perp = some e) : PerpLeads e := by
  obtain ⟨e₀, h0, hleads⟩ := hs.perp
  unfold AppState.perp at he
  rw [h0] at he
  obtain rfl := Option.some.inj he
  exact hleads.step (.setUnified s.unifiedState) rfl

theorem spot_arrives (hs : s.Leads) {e : SpotEngineState} (he : s.spot = some e) :
    ∃ u, SpotCall.Arrives u e := by
  obtain ⟨e₀, u, h0, harrives⟩ := hs.spot
  unfold AppState.spot at he
  rw [h0] at he
  obtain rfl := Option.some.inj he
  exact ⟨u, harrives.tail (.share s.unifiedState) trivial rfl⟩

theorem setPerp (hs : s.Leads) {e : Engine} (he : PerpLeads e) : (s.setPerp e).Leads :=
  ⟨⟨e, rfl, he⟩, hs.spot⟩

theorem setSpot (hs : s.Leads) {e : SpotEngineState} {u : UnifiedState}
    (he : SpotCall.Arrives u e) : (s.setSpot e).Leads :=
  ⟨hs.perp, e, u, rfl, he⟩

/-- A call into the perp engine is an operation on it. -/
theorem onPerp (hs : s.Leads) {f : Engine → Exec Engine}
    (hf : ∀ e e', f e = .ok e' → ∃ op, Engine.step op e = .ok e') (h : s.onPerp f = .ok s') :
    s'.Leads := by
  unfold AppState.onPerp at h
  split at h
  · obtain rfl := pure_inv h
    exact hs
  · rename_i e he
    obtain ⟨e', he', h⟩ := bind_inv h
    obtain rfl := pure_inv h
    obtain ⟨op, hop⟩ := hf e e' he'
    exact hs.setPerp ((hs.perp_leads he).step _ hop)

/-- A call into the spot engine is an operation on it. -/
theorem onSpot (hs : s.Leads) {f : SpotEngineState → Exec SpotEngineState}
    (hf : ∀ e e', f e = .ok e' → ∃ call : SpotCall, call.FromWire ∧ call.step e = .ok e')
    (h : s.onSpot f = .ok s') : s'.Leads := by
  unfold AppState.onSpot at h
  split at h
  · obtain rfl := pure_inv h
    exact hs
  · rename_i e he
    obtain ⟨e', he', h⟩ := bind_inv h
    obtain rfl := pure_inv h
    obtain ⟨call, hwire, hstep⟩ := hf e e' he'
    obtain ⟨u, harrives⟩ := hs.spot_arrives he
    exact hs.setSpot (harrives.tail call hwire hstep)

/-- **Step lemma.** -/
theorem applyEffect (hs : s.Leads) {a : AccountAddress} {i : Effect} (hi : OnWire s i)
    (h : AppState.applyEffect a i s = .ok s') : s'.Leads := by
  cases i with
  | spotOrder m q t => exact hs.onSpot (fun e e' he => ⟨.placeOrder a m q t, hi, he⟩) h
  | spotCancel m id => exact hs.onSpot (fun e e' he => ⟨.cancelOrder a m id, trivial, he⟩) h
  | spotCancelAll m => exact hs.onSpot (fun e e' he => ⟨.cancelAllOrders a m, trivial, he⟩) h
  | viewTransfer k x toEvm =>
    -- only the balance sheet is written
    refine hs.onSpot (fun e e' he => ⟨.share e'.unifiedState, trivial, ?_⟩) h
    obtain ⟨⟨r, e₁⟩, hview, he⟩ := bind_inv he
    obtain rfl := pure_inv he
    exact congrArg Except.ok (SpotEngineState.viewTransfer_sheet hview).symm
  | updateLeverage m l =>
    simp only [AppState.applyEffect] at h
    split at h
    · obtain rfl := pure_inv h
      exact ⟨hs.perp, hs.spot⟩
    · exact hs.onPerp (fun e e' he => ⟨.updateLeverage a m l, he⟩) h
  | perpOrder q t => exact hs.onPerp (fun e e' he => ⟨.placeOrder a q t, he⟩) h
  | perpCancel m id => exact hs.onPerp (fun e e' he => ⟨.cancelOrder a m id, he⟩) h
  | perpCancelAll m => exact hs.onPerp (fun e e' he => ⟨.cancelAllOrders a m, he⟩) h
  | setMarginMode mode => exact hs.onPerp (fun e e' he => ⟨.setMarginMode a mode, he⟩) h
  | cancelTrigger id => exact hs.onPerp (fun e e' he => ⟨.cancelTrigger id, he⟩) h
  | usdTransfer | withdraw | evmMove =>
    obtain ⟨u, -, h⟩ := bind_inv h
    obtain rfl := pure_inv h
    exact ⟨hs.perp, hs.spot⟩
  | bookkeeping c o p n =>
    obtain rfl := pure_inv h
    exact ⟨hs.perp, hs.spot⟩

/-- A run of effects whose spot orders come from the wire. -/
theorem reaches (hs : s.Leads) {a : AccountAddress}
    (h : Run.Reaches (AppState.applyEffect a) OnWire s s') : s'.Leads :=
  h.invariant hs fun _ _ _ hs hi h => hs.applyEffect hi h

end Leads

/-! ### Transactions and blocks -/

theorem onWire_free (s : AppState) (i : Effect) (h : i.free = true) : OnWire s i := by
  cases i with
  | spotOrder => cases h
  | _ => trivial

/-- The orders of a batch come from the wire. -/
theorem onWire_orders (sender : AccountAddress) (t : Timestamp) (wires : List OrderWire)
    (b : OrderBatch) : BatchMeets OnWire sender t wires b := by
  induction wires generalizing b with
  | nil => trivial
  | cons wire wires ih =>
    refine ⟨fun request hrequest => ?_, fun b' _ => ih b'⟩
    unfold orderEffect
    split
    · exact ⟨wire, rfl, hrequest⟩
    · trivial

/-- So do those of every action. -/
theorem onWire_action (s : AppState) (sender : AccountAddress) (t : Timestamp)
    (action : TransactionType) : ActionMeets OnWire s sender t action := by
  cases action with
  | order orders | spotOrder orders => exact onWire_orders sender t orders _
  | evmAction actionType data =>
    intro effect h
    unfold evmEffect at h
    split at h
    · obtain ⟨amount, -, h⟩ := bind_inv h
      split at h
      · obtain rfl := Option.some.inj (pure_inv h)
        trivial
      · split at h
        · obtain rfl := Option.some.inj (pure_inv h)
          trivial
        · cases pure_inv h
    · cases pure_inv h
  | usdTransfer | withdraw => exact fun _ _ => trivial
  | viewTransfer => exact fun _ _ _ _ => trivial
  | _ => trivial

namespace Leads

variable {s s' : AppState}

theorem executeTx (hs : s.Leads) {tx : Transaction} {t : Timestamp}
    {r : Except AppError TxResult} (h : s.executeTx tx t = .ok (r, s')) : s'.Leads := by
  rcases executeTx_cases h with ⟨rfl, -⟩ | ⟨a, ra, s₁, -, -, hact, hend⟩
  · exact hs
  · have hs₁ : s₁.Leads :=
      hs.reaches (executeAction_reaches onWire_free (onWire_action s a t tx.action) hact)
    rcases hend with ⟨e, -, -, rfl⟩ | ⟨events, s₂, -, -, hinc, rfl⟩
    · exact hs₁
    · obtain ⟨next, -, hinc⟩ := bind_inv hinc
      obtain rfl := pure_inv hinc
      unfold updateTimestampNonce
      split <;> exact ⟨hs₁.perp, hs₁.spot⟩

theorem finishBlock (hs : s.Leads) {ord : HashOrder} (h : finishBlock ord s = .ok s') :
    s'.Leads := by
  obtain ⟨⟨events, s₁⟩, hup, h⟩ := bind_inv h
  obtain rfl := pure_inv h
  have hs₁ : s₁.Leads := by
    unfold upkeep at hup
    split at hup
    · obtain ⟨-, rfl⟩ := pair_inv hup
      exact hs
    · rename_i e he
      obtain ⟨⟨rates, e₁⟩, hfunding, hup⟩ := bind_inv hup
      obtain ⟨⟨done, e₂⟩, hliquidations, hup⟩ := bind_inv hup
      obtain ⟨-, rfl⟩ := pair_inv hup
      have h1 : PerpLeads e₁ := (hs.perp_leads he).step (.processFunding s.timestamp)
        (bind_eq_ok.mpr ⟨_, hfunding, rfl⟩)
      exact hs.setPerp (h1.step (.processLiquidations ord)
        (bind_eq_ok.mpr ⟨_, hliquidations, rfl⟩))
  exact ⟨hs₁.perp, hs₁.spot⟩

theorem genesis {g : GenesisState} (h : AppState.genesis g = .ok s) : s.Leads := by
  obtain ⟨spot, hspot, h⟩ := bind_inv h
  obtain ⟨u, -, h⟩ := bind_inv h
  obtain ⟨perp, hperp, h⟩ := bind_inv h
  obtain rfl := pure_inv h
  refine ⟨⟨perp, rfl, u, perp, hperp, .refl⟩, spot, .new, rfl, ?_⟩
  exact foldlM_induction (P := SpotCall.Arrives .new) hspot .refl
    fun params _ e e' he hstep => he.tail (.deployToken params systemDeployer) trivial hstep

end Leads

/-- **Run.** The engines of a reachable node are states that their operations lead to. -/
theorem Reachable.leads {s : AppState} (h : s.Reachable) : s.Leads := by
  refine h.induction (fun g s _ h0 => .genesis h0) fun s op s' hs _ hstep => ?_
  cases op with
  | tx tx t =>
    obtain ⟨⟨r, s₁⟩, h1, hstep⟩ := bind_inv hstep
    obtain rfl := pure_inv hstep
    exact hs.executeTx h1
  | beginBlock k t =>
    obtain rfl := pure_inv hstep
    exact ⟨hs.perp, hs.spot⟩
  | endBlock ord => exact hs.finishBlock hstep

/-- **Both engines.** A node always has them, whatever it has executed. In the perp engine the
positions are well formed, markets are filed under their ids, who owns a resting order has a
position, and the trigger stores agree; in both, the ids that are in use have been given out. -/
theorem both_engines_sound {s : AppState} (hs : s.Reachable) :
    (∃ e, s.perp = some e ∧ Engine.PositionsWF e.state ∧ Engine.MarketsFiled e.state ∧
      Engine.BookHolders e.state ∧ e.state.IdsBelow ∧ e.state.TriggersAgree) ∧
    ∃ e, s.spot = some e ∧ e.Scaled ∧ e.maps.Steady e.nextOrderId := by
  have hleads := hs.leads
  constructor
  · obtain ⟨e₀, h0, -⟩ := hleads.perp
    obtain ⟨e, he⟩ : ∃ e, s.perp = some e := ⟨_, congrArg (Option.map _) h0⟩
    have hreach := (hleads.perp_leads he).reachable
    obtain ⟨D, -, hrep, -⟩ := Engine.reachable_represents hreach
    exact ⟨e, he, hreach.positionsWF, hreach.marketsFiled, hreach.bookHolders, hreach.idsBelow,
      hrep.agree⟩
  · obtain ⟨e₀, -, h0, -⟩ := hleads.spot
    obtain ⟨e, he⟩ : ∃ e, s.spot = some e := ⟨_, congrArg (Option.map _) h0⟩
    obtain ⟨u, harrives⟩ := hleads.spot_arrives he
    have hcalls : SpotCall.Leads u e := harrives.mono fun _ _ _ => trivial
    exact ⟨e, he, harrives.scaled, hcalls.steady.2⟩

/-- Two accounts with USDC, and a token with its market. -/
def tradingGenesis : GenesisState :=
  { usdcGenesis [(1, 1000000000), (2, 1000000000)] with
    tokens := [⟨"PURR", 8, 2, ⟨100000000, 8⟩, []⟩] }

/-- A block in which account 1 bids for BTC and account 2 sells it half of that; account 1
protects its position by a stop order, and bids in the spot market. -/
def tradingOps : List AppOp := [.beginBlock 1 1000,
  .tx ⟨.order [⟨0, true, "50000", "0.002", false, .limit "Gtc", none⟩], 0, some 1⟩ 1000,
  .tx ⟨.order [⟨0, false, "50000", "0.001", false, .limit "Gtc", none⟩], 0, some 2⟩ 1000,
  .tx ⟨.order [⟨0, false, "30000", "0.001", true, .trigger ⟨true, "30000", "sl"⟩, none⟩], 1,
    some 1⟩ 1000,
  .tx ⟨.spotOrder [⟨128, true, "2", "0.01", false, .limit "Gtc", none⟩], 2, some 1⟩ 1000,
  .endBlock .sorted]

theorem both_engines_sound_trading : ∃ s e e', Reachable s ∧ s.perp = some e ∧
    s.spot = some e' ∧
    ((e.state.getPosition 1 0).map (·.size.value) = some 100000 ∧
      (e.state.mapOrders 0).map (·.remainingSize.value) = [100000] ∧
      e.state.triggerOrderIndex.toList.map Prod.fst = [3] ∧ e.state.nextOrderId = 4) ∧
    (e'.getMarketIds = [128] ∧ (e'.getOrdersByAccount 1 128).length = 1) ∧
    (Engine.BookHolders e.state ∧ e.state.IdsBelow ∧ e.state.TriggersAgree) ∧
    e'.Scaled ∧ e'.maps.Steady e'.nextOrderId := by
  obtain ⟨s, hs, htest⟩ := exists_of_test (x := nodeRun tradingGenesis tradingOps)
    (p := fun s : AppState => (s.perp.any fun e : Engine =>
      decide ((e.state.getPosition 1 0).map (·.size.value) = some 100000 ∧
        (e.state.mapOrders 0).map (·.remainingSize.value) = [100000] ∧
        e.state.triggerOrderIndex.toList.map Prod.fst = [3] ∧ e.state.nextOrderId = 4)) &&
      s.spot.any fun e : SpotEngineState =>
        decide (e.getMarketIds = [128] ∧ (e.getOrdersByAccount 1 128).length = 1))
    (by decide +kernel)
  have hreach : Reachable s := nodeRun_reachable ⟨by decide, by decide, by decide⟩ hs
  obtain ⟨⟨e, he, -, -, hholders, hids, htriggers⟩, e', he', hscaled, hsteady⟩ :=
    both_engines_sound hreach
  rw [he, he', Bool.and_eq_true, Option.any_some, Option.any_some, decide_eq_true_eq,
    decide_eq_true_eq] at htest
  exact ⟨s, e, e', hreach, he, he', htest.1, htest.2, ⟨hholders, hids, htriggers⟩, hscaled,
    hsteady⟩

end AppState

end Hypercore
