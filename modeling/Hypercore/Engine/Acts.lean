import Hypercore.Engine.Positions
/-!
# Hypercore.Engine.Acts

What an operation can do to the ledger of the engine, one *act* at a time.

The ledger is accounts, positions, markets, insurance fund and the shared
balances. An operation is a sequence of acts on it with bookkeeping in between,
and `step_acts` says so once for all operations: what every act preserves is
preserved by every operation. A fill among them is priced by the configuration of
its own market.
-/

namespace Hypercore

open Exec Int128

namespace Engine

open EngineState

/-- Two engines with the same ledger and settings; their books may differ. -/
structure SameLedger (e e' : Engine) : Prop where
  accounts : e'.state.accounts = e.state.accounts
  positions : e'.state.positions = e.state.positions
  markets : e'.state.markets = e.state.markets
  insuranceFund : e'.state.insuranceFund = e.state.insuranceFund
  unifiedState : e'.unifiedState = e.unifiedState
  funding : e'.funding = e.funding
  liquidation : e'.liquidation = e.liquidation

/-- One elementary change of the engine. -/
inductive Act (e : Engine) : Engine → Prop
  | books {e' : Engine} (h : SameLedger e e') : Act e e'
  /-- Open an account, or copy its balance from the shared balances. -/
  | sync (a : AccountAddress) : Act e (e.syncAccount a)
  | openPosition (a : AccountAddress) (m : MarketId) :
    Act e { e with state := e.state.getOrCreatePosition a m }
  /-- Price a fill by its market and apply it. -/
  | fill {f₀ f : Fill} {market : Market} {e' : Engine}
    (hm : e.state.getMarket f₀.marketId = some market)
    (hp : priceFill e.state market.config f₀ = .ok f) (h : e.applyFill f = .ok e') : Act e e'
  | settleMarket {t : Timestamp} {m : MarketId} {rates rates' : List (MarketId × Decimal)}
    {e' : Engine} (h : settleMarket t (rates, e) m = .ok (rates', e')) : Act e e'
  | settleAccount {m : MarketId} {rate acc : Decimal} {t : Timestamp} {a : AccountAddress}
    {e' : Engine} (h : settleAccount m rate acc t e a = .ok e') : Act e e'
  | liquidate {ord : HashOrder} {l l' : Liquidations} {pair : AccountAddress × MarketId}
    {e' : Engine} (h : liquidate ord (l, e) pair = .ok (l', e')) : Act e e'
  | deposit {a : AccountAddress} {n : Nat} {s : EngineState} (h : e.state.deposit a n = .ok s) :
    Act e { e with state := s }
  | withdraw {a : AccountAddress} {n : Nat} {r : Bool} {s : EngineState}
    (h : e.state.withdraw a n = .ok (r, s)) : Act e { e with state := s }
  | setUnified (u : UnifiedState) : Act e { e with unifiedState := e.unifiedState.map fun _ => u }

/-- Some acts, one after the other. -/
def Acts (e e' : Engine) : Prop := Relation.ReflTransGen Act e e'

section Acts

variable {e e' e'' : Engine} {a : AccountAddress} {m : MarketId}

theorem Acts.refl : Acts e e := Relation.ReflTransGen.refl

theorem Acts.single (h : Act e e') : Acts e e' := Relation.ReflTransGen.single h

theorem Acts.trans (h : Acts e e') (h' : Acts e' e'') : Acts e e'' :=
  Relation.ReflTransGen.trans h h'

/-- What every act relates, if it is reflexive and transitive, is related by acts. -/
theorem Acts.rel {R : Engine → Engine → Prop} (h : Acts e e') (hrefl : ∀ e, R e e)
    (htrans : ∀ e₁ e₂ e₃, R e₁ e₂ → R e₂ e₃ → R e₁ e₃) (hact : ∀ e e', Act e e' → R e e') :
    R e e' := by
  induction h with
  | refl => exact hrefl _
  | tail _ h ih => exact htrans _ _ _ ih (hact _ _ h)

/-- Bookkeeping in the state. -/
theorem Acts.of_orders {s : EngineState} (h : OrdersOnly e.state s) :
    Acts e { e with state := s } := by
  obtain ⟨_, _, _, rfl⟩ := h
  exact .single (.books ⟨rfl, rfl, rfl, rfl, rfl, rfl, rfl⟩)

theorem Acts.of_triggers {s : EngineState} (h : TriggersOnly e.state s) :
    Acts e { e with state := s } := by
  obtain ⟨_, _, _, rfl⟩ := h
  exact .single (.books ⟨rfl, rfl, rfl, rfl, rfl, rfl, rfl⟩)

end Acts

/-! ### Market configurations -/

/-- The same markets with the same configurations. -/
def ConfigsKept (s s' : EngineState) : Prop :=
  ∀ m, (s'.getMarket m).map (·.config) = (s.getMarket m).map (·.config)

section Configs

variable {s s' s'' : EngineState} {e e' : Engine} {m : MarketId}

theorem ConfigsKept.refl (s : EngineState) : ConfigsKept s s := fun _ => rfl

theorem ConfigsKept.trans (h : ConfigsKept s s') (h' : ConfigsKept s' s'') : ConfigsKept s s'' :=
  fun m => (h' m).trans (h m)

theorem ConfigsKept.of_same (h : s'.markets = s.markets) : ConfigsKept s s' := by
  intro m
  unfold getMarket
  rw [h]

theorem ConfigsKept.of_modifyMarket {f : MarketState → Exec MarketState}
    (h : s.modifyMarket m f = .ok s') : ConfigsKept s s' := by
  rcases modifyMarket_eq_ok h with ⟨-, rfl⟩ | ⟨market, st, hm, -, rfl⟩
  · exact .refl _
  · intro k
    unfold getMarket at *
    dsimp only
    rw [FinMap.get_insert]
    split
    · rename_i hk
      rw [← hk, hm]
      rfl
    · rfl

/-- The configuration of a market that is still there. -/
theorem ConfigsKept.market {market : Market} (h : ConfigsKept s s')
    (hm : s.getMarket m = some market) :
    ∃ market', s'.getMarket m = some market' ∧ market'.config = market.config := by
  have hmap := h m
  rw [hm] at hmap
  exact Option.map_eq_some_iff.mp hmap

theorem ConfigsKept.of_modifyPosition {a : AccountAddress} {f : Position → Exec Position}
    (h : s.modifyPosition a m f = .ok s') : ConfigsKept s s' := by
  obtain ⟨_, rfl⟩ := modifyPosition_only h
  exact .of_same rfl

theorem ConfigsKept.of_modifyAccount {a : AccountAddress} {f : AccountState → Exec AccountState}
    (h : s.modifyAccount a f = .ok s') : ConfigsKept s s' := by
  obtain ⟨_, rfl⟩ := modifyAccount_only h
  exact .of_same rfl

theorem applyFill_configs {f : Fill} (h : e.applyFill f = .ok e') :
    ConfigsKept e.state e'.state := by
  obtain ⟨s₁, s₂, s₃, s₄, u, h1, h2, h3, h4, rfl⟩ := applyFill_steps h
  obtain ⟨t₁, t₂, _, _, g1, g2, h1⟩ := fillPositions_steps h1
  obtain ⟨t₃, h4, h5⟩ := bind_inv h4
  have hpositions : ConfigsKept e.state s₁ :=
    ((ConfigsKept.of_modifyPosition g1).trans (.of_modifyPosition g2)).trans
      (.of_modifyMarket h1)
  have haccounts : ConfigsKept s₁ s₃ :=
    (ConfigsKept.of_modifyAccount h2).trans (.of_modifyAccount h3)
  have hmarket : ConfigsKept s₃ s₄ := (ConfigsKept.of_modifyMarket h4).trans (.of_modifyMarket h5)
  have hrecord : ConfigsKept s₄ (fillRecord s₄ f) := by
    obtain ⟨_, _, _, _, _, h⟩ := fillRecord_writes s₄ f
    exact .of_same (by rw [h])
  exact (hpositions.trans haccounts).trans (hmarket.trans hrecord)

theorem Act.configs (h : Act e e') : ConfigsKept e.state e'.state := by
  cases h with
  | books h => exact .of_same h.markets
  | sync a =>
    obtain ⟨_, h⟩ := syncAccount_only e a
    exact .of_same (by rw [h])
  | openPosition a m =>
    obtain ⟨_, h⟩ := getOrCreatePosition_only (s := e.state) (a := a) (m := m)
    exact .of_same (by rw [h])
  | fill hm hp h => exact applyFill_configs h
  | settleMarket h =>
    unfold Engine.settleMarket at h
    dsimp only at h
    split at h
    · obtain ⟨-, rfl⟩ := pair_inv h
      exact .refl _
    · split at h
      · obtain ⟨rate, -, h⟩ := bind_inv h
        obtain ⟨e₁, h1, h⟩ := bind_inv h
        obtain ⟨-, rfl⟩ := pair_inv h
        obtain ⟨s₁, hs, rfl⟩ := onState_eq_ok h1
        exact .of_modifyMarket hs
      · obtain ⟨-, rfl⟩ := pair_inv h
        exact .refl _
  | settleAccount h =>
    unfold Engine.settleAccount at h
    split at h
    · obtain rfl := pure_inv h
      exact .refl _
    · split at h
      · obtain rfl := pure_inv h
        exact .refl _
      · obtain ⟨⟨payment, p'⟩, -, h⟩ := bind_inv h
        dsimp only at h
        split at h
        · obtain rfl := pure_inv h
          exact .of_same rfl
        · obtain ⟨pa, -, h⟩ := bind_inv h
          obtain ⟨u, -, h⟩ := bind_inv h
          obtain ⟨s₁, h1, h⟩ := bind_inv h
          obtain rfl := pure_inv h
          have hset : ∀ a m, ConfigsKept e.state (e.state.setPosition a m p') := fun _ _ =>
            .of_same rfl
          exact (hset _ _).trans ((ConfigsKept.of_modifyAccount h1).trans (.of_same rfl))
  | liquidate h =>
    obtain ⟨_, _, _, _, _, rfl⟩ := liquidate_only h
    exact .of_same rfl
  | deposit h =>
    obtain ⟨_, rfl⟩ := deposit_only h
    exact .of_same rfl
  | withdraw h =>
    obtain ⟨_, rfl⟩ := withdraw_only h
    exact .of_same rfl
  | setUnified u => exact .refl _

end Configs

/-! ### Operations are acts -/

section Operations

variable {e e' : Engine} {a : AccountAddress} {m : MarketId}

theorem settleFills_acts {config : MarketConfig} {fills fills' : List Fill}
    (hm : ∃ market, e.state.getMarket m = some market ∧ market.config = config)
    (hfills : ∀ f ∈ fills, f.marketId = m)
    (h : settleFills config fills e = .ok (fills', e')) : Acts e e' := by
  induction fills generalizing e e' fills' with
  | nil =>
    obtain ⟨-, rfl⟩ := pair_inv h
    exact .refl
  | cons fill fills ih =>
    obtain ⟨fill', hp, h⟩ := bind_inv h
    obtain ⟨e₁, h1, h⟩ := bind_inv h
    obtain ⟨⟨rest, e₂⟩, h2, h⟩ := bind_inv h
    obtain ⟨-, rfl⟩ := pair_inv h
    obtain ⟨market, hmarket, rfl⟩ := hm
    have hfill : Act e e₁ :=
      .fill (by rw [hfills fill (.head _)]; exact hmarket) hp h1
    obtain ⟨market', hmarket', hconfig⟩ := hfill.configs.market hmarket
    exact (Acts.single hfill).trans
      (ih ⟨market', hmarket', hconfig⟩ (fun f hf => hfills f (.tail _ hf)) h2)

theorem executeOrder_acts {market : Market} {order : Order}
    {r : Except Error (Order × List Fill)}
    (hm : e.state.getMarket order.marketId = some market)
    (h : e.executeOrder market order = .ok (r, e')) : Acts e e' := by
  refine executeOrder_rule (P := Acts e) .refl (fun book r₁ book' _ hproc => ?_) h
  have hbook : Acts e { e with state := e.state.setOrderbook order.marketId book' } :=
    .single (.books ⟨rfl, rfl, rfl, rfl, rfl, rfl, rfl⟩)
  refine ⟨hbook, fun updated fills fills' e₁ s hr hs hsettle => ?_⟩
  subst hr
  obtain ⟨-, hfills⟩ := MatchingEngine.processOrder_all (P := fun _ => True)
    (fun _ _ _ _ _ => trivial) (fun _ _ _ _ => trivial) (fun _ _ => trivial) hproc
  obtain ⟨-, hfills⟩ := hfills updated fills rfl
  have hsync : OrdersOnly (e.state.setOrderbook order.marketId book') s :=
    hs ▸ syncMakers_only _ updated.marketId fills
  have hmakers := hbook.trans (Acts.of_orders (s := s) hsync)
  have hsettled := hmakers.trans (settleFills_acts (m := order.marketId)
    ⟨market, by
      obtain ⟨_, _, _, hsame⟩ := hsync
      rw [hsame]
      exact hm, rfl⟩
    (fun f hf => by
      obtain ⟨best, size, -, -, rfl⟩ := hfills f hf
      rfl) hsettle)
  exact ⟨hsettled, fun _ s' hadd => hsettled.trans (.of_orders (addOrder_only hadd))⟩

theorem openAccount_acts (e : Engine) (a : AccountAddress) (m : MarketId) :
    Acts e (e.openAccount a m) :=
  (Acts.single (.sync a)).trans (.single (.openPosition a m))

/-- **Submission.** -/
theorem submitOrder_acts {q : OrderRequest} {t : Timestamp}
    {r : Except Error (Order × List Fill)} (h : e.submitOrder a q t = .ok (r, e')) :
    Acts e e' := by
  have hopen := openAccount_acts e a q.marketId
  have henter : Acts e (e.enter a q.marketId) :=
    hopen.trans (.single (.books ⟨rfl, rfl, rfl, rfl, rfl, rfl, rfl⟩))
  refine submitOrder_rule (P := Acts e) .refl hopen (fun _ ht => henter.trans (.of_triggers ht))
    (fun market hm hexec => henter.trans (executeOrder_acts ?_ hexec)) h
  obtain ⟨_, _, hsame⟩ := enter_only e a q.marketId
  rw [hsame]
  exact hm

theorem processFunding_acts {t : Timestamp} {rates : List (MarketId × Decimal)}
    (h : e.processFunding t = .ok (rates, e')) : Acts e e' := by
  obtain ⟨⟨rates₁, e₁⟩, h1, h⟩ := bind_inv h
  obtain ⟨e₂, h2, h⟩ := bind_inv h
  obtain ⟨-, rfl⟩ := pair_inv h
  have hmarkets := foldlM_rel (R := fun x y => Acts x.2 y.2) h1 (fun _ => .refl)
    (fun _ _ _ => Acts.trans) fun _ _ _ _ h => .single (.settleMarket h)
  have hholders : Acts e₁ e₂ := by
    refine foldlM_rel h2 (fun _ => .refl) (fun _ _ _ => Acts.trans) fun mr _ x y h => ?_
    unfold settleHolders at h
    split at h
    · obtain rfl := pure_inv h
      exact .refl
    · obtain ⟨x₁, hfold, h⟩ := bind_inv h
      obtain rfl := pure_inv h
      have haccounts : Acts x x₁ := foldlM_rel hfold (fun _ => .refl) (fun _ _ _ => Acts.trans)
        fun _ _ _ _ h => .single (.settleAccount h)
      exact haccounts.trans (.single (.books ⟨rfl, rfl, rfl, rfl, rfl, rfl, rfl⟩))
  exact hmarkets.trans hholders

theorem processLiquidations_acts {ord : HashOrder} {l : Liquidations}
    (h : e.processLiquidations ord = .ok (l, e')) : Acts e e' := by
  obtain ⟨pairs, -, h⟩ := bind_inv h
  exact foldlM_rel (R := fun x y => Acts x.2 y.2) h (fun _ => .refl) (fun _ _ _ => Acts.trans)
    fun _ _ _ _ h => .single (.liquidate h)

theorem cancelRecord_acts (e : Engine) (m : MarketId) (id : OrderId) (o : Order) :
    Act e (e.cancelRecord m id o).2 := by
  obtain ⟨_, _, _, hs⟩ := removeOrder_only e.state m id
  have hstate : (e.cancelRecord m id o).2.state = (e.state.removeOrder m id).2 := rfl
  exact .books ⟨by rw [hstate, hs], by rw [hstate, hs], by rw [hstate, hs], by rw [hstate, hs],
    rfl, rfl, rfl⟩

theorem cancelRecords_acts (m : MarketId) (os : List Order) (e : Engine) :
    Acts e (cancelRecords m os e).2 := by
  induction os generalizing e with
  | nil => exact .refl
  | cons o os ih =>
    have h1 := cancelRecord_acts e m o.id o
    unfold cancelRecords
    split
    · rename_i heq
      rw [heq] at h1
      exact .single h1
    · rename_i heq
      rw [heq] at h1
      exact (Acts.single h1).trans (ih _)

/-- **Step lemma.** Every operation is a sequence of acts. -/
theorem step_acts {op : Op} (h : step op e = .ok e') : Acts e e' := by
  have hsubmit : ∀ (e₁ : Engine) a q t res (e₂ : Engine), Acts e e₁ → True →
      e₁.submitOrder a q t = .ok (res, e₂) → Acts e e₂ :=
    fun _ _ _ _ _ _ hw _ h => hw.trans (submitOrder_acts h)
  have htake : ∀ (e₁ : Engine) m p, Acts e e₁ → Acts e (e₁.takeTriggered m p).2 := by
    intro e₁ m p hw
    obtain ⟨_, ht, heq⟩ := takeTriggered_only e₁ m p
    rw [heq]
    exact hw.trans (.of_triggers ht)
  have hmeets := submitsMeet_of_forall (G := fun _ _ _ => True) (fun _ _ _ => trivial) e op
  cases op with
  | placeOrder a q t =>
    obtain ⟨⟨res, e₁⟩, h1, h⟩ := bind_inv h
    obtain rfl := pure_inv h
    exact placeOrder_induction (P := Acts e) (hsubmit · · · t) htake .refl hmeets h1
  | cancelOrder a m id =>
    obtain rfl := pure_inv h
    unfold cancelOrder
    split
    · exact .refl
    · split
      · exact .refl
      · exact .single (cancelRecord_acts e m id _)
  | cancelAllOrders a m =>
    obtain rfl := pure_inv h
    exact cancelRecords_acts m _ e
  | checkTriggers m p t =>
    obtain ⟨⟨res, e₁⟩, h1, h⟩ := bind_inv h
    obtain rfl := pure_inv h
    exact checkTriggersFuel_induction (P := Acts e) (hsubmit · · · t) htake .refl hmeets h1
  | cancelTrigger id =>
    obtain rfl := pure_inv h
    exact .of_triggers (removeTriggerOrder_only id)
  | updateLeverage a m l =>
    obtain ⟨⟨res, e₁⟩, h1, h⟩ := bind_inv h
    obtain rfl := pure_inv h
    obtain ⟨leverage, rfl⟩ := updateLeverage_only h1
    exact .single (.books ⟨rfl, rfl, rfl, rfl, rfl, rfl, rfl⟩)
  | setMarginMode a mode =>
    obtain rfl := pure_inv h
    unfold setMarginMode
    split
    · exact .refl
    · exact .single (.books ⟨rfl, rfl, rfl, rfl, rfl, rfl, rfl⟩)
  | processFunding t =>
    obtain ⟨⟨res, e₁⟩, h1, h⟩ := bind_inv h
    obtain rfl := pure_inv h
    exact processFunding_acts h1
  | processLiquidations ord =>
    obtain ⟨⟨res, e₁⟩, h1, h⟩ := bind_inv h
    obtain rfl := pure_inv h
    exact processLiquidations_acts h1
  | deposit a n =>
    obtain ⟨s, h1, rfl⟩ := onState_eq_ok (f := (·.deposit a n)) h
    exact .single (.deposit h1)
  | withdraw a n =>
    obtain ⟨⟨res, s⟩, h1, h⟩ := bind_inv h
    obtain rfl := pure_inv h
    exact .single (.withdraw h1)
  | setUnified u =>
    obtain rfl := pure_inv h
    exact .single (.setUnified u)

end Operations

/-! ### Markets of a reachable engine -/

/-- Every market is filed under its own id. -/
def MarketsFiled (s : EngineState) : Prop :=
  ∀ m market, s.getMarket m = some market → market.id = m

theorem MarketsFiled.of_configs {s s' : EngineState} (hs : MarketsFiled s)
    (h : ConfigsKept s s') : MarketsFiled s' := by
  intro m market hm
  have hmap := h m
  rw [hm] at hmap
  obtain ⟨market₀, hm₀, hconfig⟩ := Option.map_eq_some_iff.mp hmap.symm
  rw [← hs m market₀ hm₀]
  exact congrArg MarketConfig.id hconfig.symm

theorem Fresh.marketsFiled {e : Engine} (h : Fresh e) : MarketsFiled e.state := by
  intro m market hm
  obtain ⟨config, price, t, hid, rfl⟩ := h.markets_new m market hm
  exact hid

/-- **Run lemma.** Every market of a reachable engine is filed under its own id. -/
theorem Reachable.marketsFiled {e : Engine} (h : Reachable e) : MarketsFiled e.state :=
  h.induction (fun _ => Fresh.marketsFiled) fun _ _ _ hs _ hstep =>
    hs.of_configs ((step_acts hstep).rel (R := fun e e' => ConfigsKept e.state e'.state)
      (fun _ => .refl _) (fun _ _ _ => .trans) fun _ _ => Act.configs)

end Engine

end Hypercore
