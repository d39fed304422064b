import Hypercore.Engine.Run
/-!
# Hypercore.Engine.Frames

What each update leaves alone.

**Footprints.** For every state update there is one lemma `_only` that names the
fields it can write, in the form `s' = { s with … }`. A frame fact about any
other field is then `rfl`, and footprints of composed updates compose by
rewriting. The larger footprints are named: `TriggersOnly` for the trigger maps,
`FillOnly` for everything a fill can write, `UpkeepOnly` for the block-end passes.
-/

namespace Hypercore

open Exec Int128

namespace EngineState

variable {s s' : EngineState} {a : AccountAddress} {m : MarketId}

theorem modifyAccount_only {f : AccountState → Exec AccountState}
    (h : s.modifyAccount a f = .ok s') : ∃ accounts, s' = { s with accounts } := by
  unfold modifyAccount at h
  split at h
  · exact ⟨s.accounts, (pure_inv h).symm⟩
  · obtain ⟨acc, -, h⟩ := bind_inv h
    exact ⟨_, (pure_inv h).symm⟩

theorem modifyPosition_only {f : Position → Exec Position}
    (h : s.modifyPosition a m f = .ok s') : ∃ positions, s' = { s with positions } := by
  unfold modifyPosition at h
  split at h
  · exact ⟨s.positions, (pure_inv h).symm⟩
  · obtain ⟨p, -, h⟩ := bind_inv h
    exact ⟨_, (pure_inv h).symm⟩

theorem modifyMarket_only {f : MarketState → Exec MarketState}
    (h : s.modifyMarket m f = .ok s') : ∃ markets, s' = { s with markets } := by
  unfold modifyMarket at h
  split at h
  · exact ⟨s.markets, (pure_inv h).symm⟩
  · obtain ⟨p, -, h⟩ := bind_inv h
    exact ⟨_, (pure_inv h).symm⟩

theorem getOrCreateAccount_only : ∃ accounts, s.getOrCreateAccount a = { s with accounts } := by
  unfold getOrCreateAccount
  split
  · exact ⟨s.accounts, rfl⟩
  · exact ⟨_, rfl⟩

theorem getOrCreatePosition_only :
    ∃ positions, s.getOrCreatePosition a m = { s with positions } := by
  unfold getOrCreatePosition
  split
  · exact ⟨s.positions, rfl⟩
  · exact ⟨_, rfl⟩

theorem deposit_only {n : Nat} (h : s.deposit a n = .ok s') :
    ∃ accounts, s' = { s with accounts } := by
  obtain ⟨acc, hc⟩ := getOrCreateAccount_only (s := s) (a := a)
  obtain ⟨acc', h⟩ := modifyAccount_only h
  rw [hc] at h
  exact ⟨acc', h⟩

theorem withdraw_only {n : Nat} {r : Bool} (h : s.withdraw a n = .ok (r, s')) :
    ∃ accounts, s' = { s with accounts } := by
  unfold withdraw at h
  split at h
  · exact ⟨s.accounts, (pair_inv h).2.symm⟩
  · split at h
    · obtain ⟨b, -, h⟩ := bind_inv h
      exact ⟨_, (pair_inv h).2.symm⟩
    · exact ⟨s.accounts, (pair_inv h).2.symm⟩

theorem takeOrderId_spec {id : OrderId} (h : s.takeOrderId = .ok (id, s')) :
    id = s.nextOrderId ∧ s' = { s with nextOrderId := s.nextOrderId + 1 } := by
  obtain ⟨n, hn, h⟩ := bind_inv h
  obtain ⟨-, rfl⟩ := u64_eq_ok.mp hn
  obtain ⟨rfl, rfl⟩ := pair_inv h
  exact ⟨rfl, rfl⟩

/-! ### Order stores -/

/-- Only the three places that record resting orders may differ. -/
def OrdersOnly (s s' : EngineState) : Prop :=
  ∃ orders orderbooks accountOrders, s' = { s with orders, orderbooks, accountOrders }

theorem OrdersOnly.refl (s : EngineState) : OrdersOnly s s := ⟨_, _, _, rfl⟩

theorem OrdersOnly.trans {t u : EngineState} (h : OrdersOnly s t) (h' : OrdersOnly t u) :
    OrdersOnly s u := by
  obtain ⟨_, _, _, rfl⟩ := h
  obtain ⟨a, b, c, rfl⟩ := h'
  exact ⟨a, b, c, rfl⟩

theorem removeOrder_only (s : EngineState) (m : MarketId) (id : OrderId) :
    OrdersOnly s (s.removeOrder m id).2 := by
  have herase : OrdersOnly s (s.eraseRecord m id) := by
    unfold eraseRecord
    split <;> exact ⟨_, _, _, rfl⟩
  have hbook : ∀ s : EngineState, OrdersOnly s (s.removeFromBook m id) := by
    intro s
    unfold removeFromBook
    split <;> exact ⟨_, _, _, rfl⟩
  have hindex : ∀ (s : EngineState) a, OrdersOnly s (s.removeFromIndex a m id) := by
    intro s a
    unfold removeFromIndex
    split <;> exact ⟨_, _, _, rfl⟩
  unfold removeOrder
  split
  · exact .refl s
  · exact (herase.trans (hbook _)).trans (hindex _ _)

theorem updateOrderRemaining_only (s : EngineState) (m : MarketId) (id : OrderId) (r : Decimal) :
    OrdersOnly s (s.updateOrderRemaining m id r) := by
  unfold updateOrderRemaining
  split
  · exact .refl s
  · split <;> exact ⟨_, _, _, rfl⟩

theorem addOrder_only {o : Order} (h : s.addOrder o = .ok s') : OrdersOnly s s' := by
  have hput : OrdersOnly s (s.putRecord o.marketId o) := by
    unfold putRecord
    split <;> exact ⟨_, _, _, rfl⟩
  obtain ⟨s₁, h1, h⟩ := bind_inv h
  obtain rfl := pure_inv h
  have hins : OrdersOnly (s.putRecord o.marketId o) s₁ := by
    unfold insertInBook at h1
    split at h1
    · obtain rfl := pure_inv h1
      exact .refl _
    · obtain ⟨b, -, h1⟩ := bind_inv h1
      obtain rfl := pure_inv h1
      exact ⟨_, _, _, rfl⟩
  exact (hput.trans hins).trans ⟨_, _, _, rfl⟩

/-! ### Trigger maps -/

/-- Only the trigger maps and their index may differ. -/
def TriggersOnly (s s' : EngineState) : Prop :=
  ∃ triggerOrdersAbove triggerOrdersBelow triggerOrderIndex,
    s' = { s with triggerOrdersAbove, triggerOrdersBelow, triggerOrderIndex }

theorem TriggersOnly.refl (s : EngineState) : TriggersOnly s s := ⟨_, _, _, rfl⟩

theorem TriggersOnly.trans {t u : EngineState} (h : TriggersOnly s t) (h' : TriggersOnly t u) :
    TriggersOnly s u := by
  obtain ⟨_, _, _, rfl⟩ := h
  obtain ⟨a, b, c, rfl⟩ := h'
  exact ⟨a, b, c, rfl⟩

theorem setTriggers_only (d : TriggerDirection) (x : FinMap MarketId TriggerMap) :
    TriggersOnly s (s.setTriggers d x) := by
  cases d <;> exact ⟨_, _, _, rfl⟩

theorem addTriggerOrder_only (o : Order) : TriggersOnly s (s.addTriggerOrder o) := by
  unfold addTriggerOrder
  split
  · exact (setTriggers_only _ _).trans ⟨_, _, _, rfl⟩
  · exact .refl s

theorem removeTriggerOrder_only (id : OrderId) :
    TriggersOnly s (s.removeTriggerOrder id).2 := by
  unfold removeTriggerOrder
  split
  · exact .refl s
  · rename_i mid d price _
    have h1 : TriggersOnly s
        { s with triggerOrderIndex := s.triggerOrderIndex.erase id } := ⟨_, _, _, rfl⟩
    dsimp only
    split
    · exact h1
    · split
      · exact h1
      · split
        · exact h1
        · exact h1.trans (setTriggers_only _ _)

theorem getTriggeredOrders_only (d : TriggerDirection) (p : Decimal) :
    TriggersOnly s (getTriggeredOrders d s m p).2 := by
  unfold getTriggeredOrders
  split
  · exact .refl s
  · exact (setTriggers_only _ _).trans ⟨_, _, _, rfl⟩

theorem cancelTriggerOrdersForPosition_only :
    TriggersOnly s (s.cancelTriggerOrdersForPosition a m) := by
  unfold cancelTriggerOrdersForPosition
  generalize (List.filter _ _ : List Order) = l
  induction l generalizing s with
  | nil => exact .refl s
  | cons o l ih => exact (removeTriggerOrder_only o.id).trans ih

end EngineState

namespace Engine

open EngineState

variable {s s' : EngineState} {e e' : Engine} {m : MarketId}

theorem onState_eq_ok {f : EngineState → Exec EngineState} (h : e.onState f = .ok e') :
    ∃ t, f e.state = .ok t ∧ e' = { e with state := t } := by
  obtain ⟨t, ht, h⟩ := bind_inv h
  exact ⟨t, ht, (pure_inv h).symm⟩

theorem takeTriggered_only (e : Engine) (m : MarketId) (p : Decimal) :
    ∃ t, TriggersOnly e.state t ∧ (e.takeTriggered m p).2 = { e with state := t } :=
  ⟨_, (getTriggeredOrders_only _ _).trans (getTriggeredOrders_only _ _), rfl⟩

theorem cancelTriggersIfFlat_only {a : AccountAddress} :
    TriggersOnly s (cancelTriggersIfFlat s a m) := by
  unfold cancelTriggersIfFlat
  split
  · exact .refl s
  · split
    · exact cancelTriggerOrdersForPosition_only
    · exact .refl s

/-! ### Preparation -/

theorem syncAccount_only (e : Engine) (a : AccountAddress) :
    ∃ accounts, e.syncAccount a = { e with state := { e.state with accounts } } := by
  unfold syncAccount
  obtain ⟨accounts, h⟩ := getOrCreateAccount_only (s := e.state) (a := a)
  dsimp only
  rw [h]
  split
  · exact ⟨accounts, rfl⟩
  · split
    · exact ⟨accounts, rfl⟩
    · exact ⟨_, rfl⟩

theorem openAccount_only (e : Engine) (a : AccountAddress) (m : MarketId) :
    ∃ accounts positions,
      e.openAccount a m = { e with state := { e.state with accounts, positions } } := by
  obtain ⟨accounts, h⟩ := syncAccount_only e a
  obtain ⟨positions, hp⟩ :=
    getOrCreatePosition_only (s := { e.state with accounts }) (a := a) (m := m)
  refine ⟨accounts, positions, ?_⟩
  unfold openAccount
  rw [h]
  dsimp only
  rw [hp]

theorem getPosition_openAccount {a b : AccountAddress} {k : MarketId} :
    (e.openAccount a m).state.getPosition b k =
      if a = b ∧ m = k then some ((e.state.getPosition a m).getD .new)
      else e.state.getPosition b k := by
  obtain ⟨accounts, h⟩ := syncAccount_only e a
  show ((e.syncAccount a).state.getOrCreatePosition a m).getPosition b k = _
  rw [getPosition_getOrCreatePosition, h]
  rfl

/-- The steps of a preparation: it stops before the account is touched, or leaves the
engine with the account opened. -/
theorem prepareOrder_cases {a : AccountAddress} {q : OrderRequest} {r : Except Error Market}
    (h : e.prepareOrder a q = .ok (r, e')) :
    (e' = e ∧ ∃ err, r = .error err) ∨
      (e' = e.openAccount a q.marketId ∧ ∃ market, e.state.getMarket q.marketId = some market ∧
        validateOrder q market.config = .ok (.ok ()) ∧
        ((∃ err, e'.checkAccount a q market = .ok (.error err) ∧ r = .error err) ∨
          e'.checkAccount a q market = .ok (.ok ()) ∧ r = .ok market)) := by
  unfold prepareOrder at h
  cases hm : e.state.getMarket q.marketId with
  | none =>
    simp only [hm] at h
    obtain ⟨rfl, rfl⟩ := pair_inv h
    exact .inl ⟨rfl, _, rfl⟩
  | some market =>
    simp only [hm] at h
    split at h
    · obtain ⟨rfl, rfl⟩ := pair_inv h
      exact .inl ⟨rfl, _, rfl⟩
    · obtain ⟨v, hv, h⟩ := bind_inv h
      cases v with
      | error err =>
        obtain ⟨rfl, rfl⟩ := pair_inv h
        exact .inl ⟨rfl, _, rfl⟩
      | ok u =>
        obtain ⟨c, hc, h⟩ := bind_inv h
        cases c with
        | error err =>
          obtain ⟨rfl, rfl⟩ := pair_inv h
          exact .inr ⟨rfl, market, rfl, hv, .inl ⟨err, hc, rfl⟩⟩
        | ok u =>
          obtain ⟨rfl, rfl⟩ := pair_inv h
          exact .inr ⟨rfl, market, rfl, hv, .inr ⟨hc, rfl⟩⟩

theorem prepareOrder_only {a : AccountAddress} {q : OrderRequest} {r : Except Error Market}
    (h : e.prepareOrder a q = .ok (r, e')) :
    ∃ accounts positions, e' = { e with state := { e.state with accounts, positions } } := by
  rcases prepareOrder_cases h with ⟨rfl, -⟩ | ⟨rfl, -⟩
  · exact ⟨_, _, rfl⟩
  · exact openAccount_only e a q.marketId

/-! ### Settings -/

theorem updateLeverage_only {a : AccountAddress} {l : UInt8} {r : Except Error Unit}
    (h : e.updateLeverage a m l = .ok (r, e')) :
    ∃ leverage, e' = { e with state := { e.state with leverage } } := by
  have hkeep : ∀ {x : Result Unit}, x = (r, e') → x.2 = e →
      ∃ leverage, e' = { e with state := { e.state with leverage } } := by
    rintro _ rfl rfl
    exact ⟨_, rfl⟩
  have hset : ∀ {x : Result Unit}, x = (r, e') →
      x.2 = { e with state := e.state.setLeverage a m l } →
      ∃ leverage, e' = { e with state := { e.state with leverage } } := by
    rintro _ rfl heq
    exact ⟨_, heq⟩
  unfold updateLeverage at h
  dsimp only at h
  split at h
  · exact hkeep (pure_inv h) rfl
  · split at h
    · exact hkeep (pure_inv h) rfl
    · split at h
      · exact hset (pure_inv h) rfl
      · split at h
        · exact hset (pure_inv h) rfl
        · split at h
          · exact hkeep (pure_inv h) rfl
          · obtain ⟨c, -, h⟩ := bind_inv h
            cases c with
            | error err => exact hkeep (pure_inv h) rfl
            | ok u => exact hset (pure_inv h) rfl

theorem syncMakers_only (s : EngineState) (m : MarketId) (fills : List Fill) :
    OrdersOnly s (syncMakers s m fills) := by
  have hfold : ∀ {ι : Type} (f : EngineState → ι → EngineState) (l : List ι) (s : EngineState),
      (∀ s i, OrdersOnly s (f s i)) → OrdersOnly s (l.foldl f s) := by
    intro ι f l s hf
    induction l generalizing s with
    | nil => exact .refl s
    | cons i l ih => exact (hf s i).trans (ih _)
  unfold syncMakers
  split
  · exact .refl s
  · exact (hfold _ _ _ fun s id => removeOrder_only s m id).trans
      (hfold _ _ _ fun s p => updateOrderRemaining_only s m p.1 p.2)

/-! ### Fills -/

/-- Only what a fill writes may differ: positions, markets, accounts, the fill
histories and the trigger maps. -/
def FillOnly (s s' : EngineState) : Prop :=
  ∃ accounts positions markets accountFills recentTrades triggerOrdersAbove
    triggerOrdersBelow triggerOrderIndex,
    s' = { s with
      accounts, positions, markets, accountFills, recentTrades, triggerOrdersAbove,
      triggerOrdersBelow, triggerOrderIndex }

theorem FillOnly.refl (s : EngineState) : FillOnly s s := ⟨_, _, _, _, _, _, _, _, rfl⟩

theorem FillOnly.trans {t u : EngineState} (h : FillOnly s t) (h' : FillOnly t u) :
    FillOnly s u := by
  obtain ⟨_, _, _, _, _, _, _, _, rfl⟩ := h
  obtain ⟨a, b, c, d, f, g, i, j, rfl⟩ := h'
  exact ⟨a, b, c, d, f, g, i, j, rfl⟩

theorem FillOnly.of_accounts (h : ∃ accounts, s' = { s with accounts }) : FillOnly s s' := by
  obtain ⟨_, rfl⟩ := h
  exact ⟨_, _, _, _, _, _, _, _, rfl⟩

theorem FillOnly.of_positions (h : ∃ positions, s' = { s with positions }) :
    FillOnly s s' := by
  obtain ⟨_, rfl⟩ := h
  exact ⟨_, _, _, _, _, _, _, _, rfl⟩

theorem FillOnly.of_markets (h : ∃ markets, s' = { s with markets }) : FillOnly s s' := by
  obtain ⟨_, rfl⟩ := h
  exact ⟨_, _, _, _, _, _, _, _, rfl⟩

variable {fill : Fill} {e₁ e₂ e₃ : Engine} {ord : HashOrder} {size price : Decimal}

/-- The writes of `fillPositions`, in order. -/
theorem fillPositions_steps (h : fillPositions s fill = .ok s') :
    ∃ s₁ s₂ deltaLong deltaShort,
      s.modifyPosition fill.maker fill.marketId (fun p =>
        p.applyFill (fillSize fill) (fillPrice fill) (!fill.isTakerBuy)) = .ok s₁ ∧
      s₁.modifyPosition fill.taker fill.marketId (fun p =>
        p.applyFill (fillSize fill) (fillPrice fill) fill.isTakerBuy) = .ok s₂ ∧
      s₂.modifyMarket fill.marketId (fun m =>
        m.updateOpenInterest deltaLong deltaShort) = .ok s' := by
  obtain ⟨s₁, h1, h⟩ := bind_inv h
  obtain ⟨s₂, h2, h⟩ := bind_inv h
  obtain ⟨⟨ml, ms⟩, -, h⟩ := bind_inv h
  obtain ⟨dl, -, h⟩ := bind_inv h
  obtain ⟨ds, -, h⟩ := bind_inv h
  obtain ⟨⟨tl, ts⟩, -, h⟩ := bind_inv h
  obtain ⟨dl', -, h⟩ := bind_inv h
  obtain ⟨ds', -, h⟩ := bind_inv h
  exact ⟨s₁, s₂, dl', ds', h1, h2, h⟩

theorem fillPositions_only (h : fillPositions s fill = .ok s') :
    FillOnly s s' := by
  obtain ⟨s₁, s₂, _, _, h1, h2, h⟩ := fillPositions_steps h
  exact ((FillOnly.of_positions (modifyPosition_only h1)).trans
    (.of_positions (modifyPosition_only h2))).trans (.of_markets (modifyMarket_only h))

theorem fillMarket_only (h : fillMarket s fill = .ok s') :
    ∃ markets, s' = { s with markets } := by
  obtain ⟨s₁, h1, h⟩ := bind_inv h
  obtain ⟨m₁, rfl⟩ := modifyMarket_only h1
  obtain ⟨m₂, rfl⟩ := modifyMarket_only h
  exact ⟨m₂, rfl⟩

/-- Recording a fill writes the histories and the triggers. -/
theorem fillRecord_writes (s : EngineState) (fill : Fill) :
    ∃ accountFills recentTrades triggerOrdersAbove triggerOrdersBelow triggerOrderIndex,
      fillRecord s fill = { s with
        accountFills, recentTrades, triggerOrdersAbove, triggerOrdersBelow,
        triggerOrderIndex } := by
  have htaker := cancelTriggersIfFlat_only (s := s.recordFill fill) (a := fill.taker)
    (m := fill.marketId)
  obtain ⟨_, _, _, h⟩ := htaker.trans (cancelTriggersIfFlat_only (a := fill.maker)
    (m := fill.marketId))
  exact ⟨_, _, _, _, _, h⟩

theorem fillRecord_only (fill : Fill) : FillOnly s (fillRecord s fill) := by
  obtain ⟨_, _, _, _, _, h⟩ := fillRecord_writes s fill
  exact ⟨_, _, _, _, _, _, _, _, h⟩

/-- The steps of `applyFill`, in order. -/
theorem applyFill_steps (h : e.applyFill fill = .ok e') :
    ∃ s₁ s₂ s₃ s₄ u, fillPositions e.state fill = .ok s₁ ∧
      subBalance s₁ fill.maker fill.makerFee = .ok s₂ ∧
      subBalance s₂ fill.taker (ofU128 fill.takerFee) = .ok s₃ ∧
      fillMarket s₃ fill = .ok s₄ ∧
      e' = { e with state := fillRecord s₄ fill, unifiedState := u } := by
  obtain ⟨s₁, h1, h⟩ := bind_inv h
  obtain ⟨s₂, h2, h⟩ := bind_inv h
  obtain ⟨s₃, h3, h⟩ := bind_inv h
  obtain ⟨u, -, h⟩ := bind_inv h
  obtain ⟨s₄, h4, h⟩ := bind_inv h
  exact ⟨s₁, s₂, s₃, s₄, u, h1, h2, h3, h4, (pure_inv h).symm⟩

variable {config : MarketConfig} {rates rates' : List (MarketId × Decimal)}
  {rate acc p d b : Decimal} {isBuy : Bool}

/-- Pricing a fill leaves its parties and its market alone. -/
theorem priceFill_spec {fill' : Fill} (h : priceFill s config fill = .ok fill') :
    ∃ realizedPnlMaker realizedPnlTaker makerFee takerFee, fill' =
      { fill with realizedPnlMaker, realizedPnlTaker, makerFee, takerFee } := by
  obtain ⟨_, -, h⟩ := bind_inv h
  obtain ⟨_, -, h⟩ := bind_inv h
  obtain ⟨_, -, h⟩ := bind_inv h
  obtain ⟨_, -, h⟩ := bind_inv h
  obtain ⟨_, -, h⟩ := bind_inv h
  obtain ⟨_, -, h⟩ := bind_inv h
  exact ⟨_, _, _, _, (pure_inv h).symm⟩

/-- Only the state and the unified balances of an engine may differ. -/
def DataOnly (e e' : Engine) : Prop :=
  e' = { e with state := e'.state, unifiedState := e'.unifiedState }

theorem DataOnly.refl (e : Engine) : DataOnly e e := rfl

theorem DataOnly.trans (h : DataOnly e₁ e₂) (h' : DataOnly e₂ e₃) :
    DataOnly e₁ e₃ := by
  unfold DataOnly at *
  rw [h', h]

/-- A fill writes its footprint in the state, and the unified balances. -/
theorem applyFill_only (h : e.applyFill fill = .ok e') :
    FillOnly e.state e'.state ∧ DataOnly e e' := by
  obtain ⟨s₁, s₂, s₃, s₄, u, h1, h2, h3, h4, rfl⟩ := applyFill_steps h
  refine ⟨?_, rfl⟩
  exact (((fillPositions_only h1).trans (.of_accounts (modifyAccount_only h2))).trans
    (.of_accounts (modifyAccount_only h3))).trans
    ((FillOnly.of_markets (fillMarket_only h4)).trans (fillRecord_only fill))

theorem settleFills_only {fills fills' : List Fill}
    (h : settleFills config fills e = .ok (fills', e')) :
    FillOnly e.state e'.state ∧ DataOnly e e' := by
  induction fills generalizing e e' fills' with
  | nil =>
    obtain ⟨-, rfl⟩ := pair_inv h
    exact ⟨.refl _, .refl _⟩
  | cons fill fills ih =>
    obtain ⟨fill', -, h⟩ := bind_inv h
    obtain ⟨e₁, h1, h⟩ := bind_inv h
    obtain ⟨⟨rest, e₂⟩, h2, h⟩ := bind_inv h
    obtain ⟨-, rfl⟩ := pair_inv h
    obtain ⟨f1, d1⟩ := applyFill_only h1
    obtain ⟨f2, d2⟩ := ih h2
    exact ⟨f1.trans f2, d1.trans d2⟩

/-! ### Block-end passes -/

/-- Only what funding and liquidation write may differ. -/
def UpkeepOnly (s s' : EngineState) : Prop :=
  ∃ accounts positions markets insuranceFund fundingHistory marketFundingHistory
    triggerOrdersAbove triggerOrdersBelow triggerOrderIndex,
    s' = { s with
      accounts, positions, markets, insuranceFund, fundingHistory, marketFundingHistory,
      triggerOrdersAbove, triggerOrdersBelow, triggerOrderIndex }

theorem UpkeepOnly.refl (s : EngineState) : UpkeepOnly s s := ⟨_, _, _, _, _, _, _, _, _, rfl⟩

theorem UpkeepOnly.trans {t u : EngineState} (h : UpkeepOnly s t) (h' : UpkeepOnly t u) :
    UpkeepOnly s u := by
  obtain ⟨_, _, _, _, _, _, _, _, _, rfl⟩ := h
  obtain ⟨a, b, c, d, f, g, i, j, k, rfl⟩ := h'
  exact ⟨a, b, c, d, f, g, i, j, k, rfl⟩

/-- A block-end step of the engine: its footprint in the state, and the unified
balances. -/
structure Upkept (e e' : Engine) : Prop where
  state : UpkeepOnly e.state e'.state
  data : DataOnly e e'

theorem Upkept.refl (e : Engine) : Upkept e e := ⟨.refl _, .refl _⟩

theorem Upkept.trans (h : Upkept e₁ e₂) (h' : Upkept e₂ e₃) :
    Upkept e₁ e₃ := ⟨h.1.trans h'.1, h.2.trans h'.2⟩

/-- A market is passed by, or its rate is settled and recorded. -/
theorem settleMarket_cases {t : Timestamp} (h : settleMarket t (rates, e) m = .ok (rates', e')) :
    (rates' = rates ∧ e' = e) ∨
    ∃ market rate s, e.state.getMarket m = some market ∧
      e.funding.calculateFundingRate market.state market.state.indexPrice = .ok rate ∧
      e.state.modifyMarket m (fun st => e.funding.settleFunding st rate t) = .ok s ∧
      rates' = rates ++ [(m, rate)] ∧ e' = { e with state := s } := by
  unfold settleMarket at h
  dsimp only at h
  split at h
  · obtain ⟨rfl, rfl⟩ := pair_inv h
    exact .inl ⟨rfl, rfl⟩
  · rename_i market hm
    split at h
    · obtain ⟨rate, hrate, h⟩ := bind_inv h
      obtain ⟨e₁, h1, h⟩ := bind_inv h
      obtain ⟨rfl, rfl⟩ := pair_inv h
      obtain ⟨s₁, hs, rfl⟩ := onState_eq_ok h1
      exact .inr ⟨market, rate, s₁, hm, hrate, hs, rfl, rfl⟩
    · obtain ⟨rfl, rfl⟩ := pair_inv h
      exact .inl ⟨rfl, rfl⟩

theorem settleMarket_only {t : Timestamp} (h : settleMarket t (rates, e) m = .ok (rates', e')) :
    Upkept e e' := by
  rcases settleMarket_cases h with ⟨-, rfl⟩ | ⟨market, rate, s, -, -, hs, -, rfl⟩
  · exact .refl _
  · obtain ⟨_, rfl⟩ := modifyMarket_only hs
    exact ⟨⟨_, _, _, _, _, _, _, _, _, rfl⟩, rfl⟩

/-- What settling the funding of one account writes: its position, if it has one. -/
theorem settleAccount_inv {t : Timestamp} {a : AccountAddress}
    (h : settleAccount m rate acc t e a = .ok e') : e' = e ∨
    ∃ p payment p' accounts fundingHistory unifiedState, e.state.getPosition a m = some p ∧
      p.settleFunding acc = .ok (payment, p') ∧ e' = { e with
        state := { e.state.setPosition a m p' with accounts, fundingHistory }, unifiedState } := by
  unfold settleAccount at h
  split at h
  · exact .inl (pure_inv h).symm
  · rename_i p hp
    split at h
    · exact .inl (pure_inv h).symm
    · obtain ⟨⟨payment, p'⟩, hset, h⟩ := bind_inv h
      dsimp only at h
      split at h
      · obtain rfl := pure_inv h
        exact .inr ⟨p, payment, p', _, _, _, hp, hset, rfl⟩
      · obtain ⟨pa, -, h⟩ := bind_inv h
        obtain ⟨u, -, h⟩ := bind_inv h
        obtain ⟨s₁, h1, h⟩ := bind_inv h
        obtain ⟨_, rfl⟩ := modifyAccount_only h1
        obtain rfl := pure_inv h
        exact .inr ⟨p, payment, p', _, _, _, hp, hset, rfl⟩

theorem settleAccount_writes {t : Timestamp} {a : AccountAddress}
    (h : settleAccount m rate acc t e a = .ok e') :
    ∃ accounts positions fundingHistory unifiedState, e' = { e with
      state := { e.state with accounts, positions, fundingHistory }, unifiedState } := by
  rcases settleAccount_inv h with rfl | ⟨p, payment, p', _, _, _, -, -, rfl⟩
  · exact ⟨_, _, _, _, rfl⟩
  · exact ⟨_, _, _, _, rfl⟩

theorem settleAccount_only {t : Timestamp} {a : AccountAddress}
    (h : settleAccount m rate acc t e a = .ok e') :
    Upkept e e' := by
  obtain ⟨_, _, _, _, rfl⟩ := settleAccount_writes h
  exact ⟨⟨_, _, _, _, _, _, _, _, _, rfl⟩, rfl⟩

theorem settleHolders_only {t : Timestamp} {mr : MarketId × Decimal}
    (h : settleHolders t e mr = .ok e') : Upkept e e' := by
  unfold settleHolders at h
  split at h
  · obtain rfl := pure_inv h
    exact .refl _
  · obtain ⟨e₁, h1, h⟩ := bind_inv h
    obtain rfl := pure_inv h
    have hfold : Upkept e e₁ :=
      foldlM_rel h1 Upkept.refl (fun _ _ _ => Upkept.trans)
        (fun _ _ _ _ h => settleAccount_only h)
    exact ⟨hfold.1.trans ⟨_, _, _, _, _, _, _, _, _, rfl⟩, hfold.2.trans rfl⟩

/-- Funding writes its footprint in the state, and the unified balances. -/
theorem processFunding_only {t : Timestamp} (h : e.processFunding t = .ok (rates, e')) :
    Upkept e e' := by
  obtain ⟨⟨rates₁, e₁⟩, h1, h⟩ := bind_inv h
  obtain ⟨e₂, h2, h⟩ := bind_inv h
  obtain ⟨-, rfl⟩ := pair_inv h
  have f1 := foldlM_rel (R := fun x y => Upkept x.2 y.2) h1 (fun _ => .refl _)
    (fun _ _ _ => Upkept.trans) (fun _ _ _ _ h => settleMarket_only h)
  have f2 := foldlM_rel h2 Upkept.refl (fun _ _ _ => Upkept.trans)
    (fun _ _ _ _ h => settleHolders_only h)
  exact f1.trans f2

/-- Passed over, or a fill against an open position, of a multiple of its size. -/
theorem deleverage_inv {d' : Decimal} {c : AccountAddress × Decimal}
    (h : deleverage m p (s, d) c = .ok (s', d')) : s' = s ∨ ∃ pos abs ratio size,
      s.getPosition c.1 m = some pos ∧ pos.isEmpty = false ∧ pos.absSize = .ok abs ∧
      abs.mul ratio = .ok size ∧
      s.modifyPosition c.1 m (·.applyFill size p pos.isShort) = .ok s' := by
  have hsame : ∀ {x : EngineState × Decimal}, x = (s', d') → x.1 = s → s' = s := by
    rintro _ rfl rfl
    rfl
  unfold deleverage at h
  dsimp only at h
  split at h
  · exact .inl (hsame (pure_inv h) rfl)
  · split at h
    · exact .inl (hsame (pure_inv h) rfl)
    · rename_i pos hpos
      split at h
      · exact .inl (hsame (pure_inv h) rfl)
      · rename_i hopen
        obtain ⟨n, -, h⟩ := bind_inv h
        obtain ⟨nu, -, h⟩ := bind_inv h
        split at h
        · exact .inl (hsame (pure_inv h) rfl)
        · obtain ⟨_, -, h⟩ := bind_inv h
          obtain ⟨abs, habs, h⟩ := bind_inv h
          obtain ⟨ratio, -, h⟩ := bind_inv h
          obtain ⟨size, hsize, h⟩ := bind_inv h
          split at h
          · exact .inl (hsame (pure_inv h) rfl)
          · obtain ⟨s₁, h1, h⟩ := bind_inv h
            obtain ⟨d₁, -, h⟩ := bind_inv h
            obtain ⟨rfl, -⟩ := pair_inv h
            exact .inr ⟨pos, abs, ratio, size, hpos, by simpa using hopen, habs, hsize, h1⟩

theorem deleverage_only {d' : Decimal} {c : AccountAddress × Decimal}
    (h : deleverage m p (s, d) c = .ok (s', d')) : ∃ positions, s' = { s with positions } := by
  rcases deleverage_inv h with rfl | ⟨pos, abs, ratio, size, -, -, -, -, hfill⟩
  · exact ⟨_, rfl⟩
  · exact modifyPosition_only hfill

theorem triggerAdl_only (h : triggerAdl ord e m d p = .ok e') :
    ∃ positions, e' = { e with state := { e.state with positions } } := by
  obtain ⟨cs, -, h⟩ := bind_inv h
  obtain ⟨⟨s₁, d₁⟩, h1, h⟩ := bind_inv h
  obtain rfl := pure_inv h
  have := foldlM_rel
    (R := fun (x y : EngineState × Decimal) => ∃ positions, y.1 = { x.1 with positions }) h1
    (fun _ => ⟨_, rfl⟩)
    (fun _ _ _ ⟨_, h⟩ ⟨q, h'⟩ => ⟨q, by rw [h', h]⟩) (fun _ _ _ _ h => deleverage_only h)
  obtain ⟨q, hq⟩ := this
  exact ⟨q, by rw [show s₁ = _ from hq]⟩

/-- Settling a residual moves the insurance fund by it, or triggers auto-deleverage when
the fund cannot cover a deficit. -/
theorem settleResidual_cases (h : settleResidual ord e m b size price isBuy = .ok e') :
    ∃ r, residualUsdc b size price isBuy = .ok r ∧
      (e' = { e with state :=
          { e.state with insuranceFund := e.state.insuranceFund + r.value } } ∨
        (r.value < 0 ∧ e.state.insuranceFund + r.value < 0 ∧
          triggerAdl ord e m ⟨-r.value, 6⟩ price = .ok e')) := by
  obtain ⟨r, hr, h⟩ := bind_inv h
  refine ⟨r, hr, ?_⟩
  split at h
  · obtain ⟨s₁, hs, rfl⟩ := onState_eq_ok h
    obtain ⟨f, hf, hs⟩ := bind_inv hs
    obtain ⟨-, rfl⟩ := i128_eq_ok.mp hf
    obtain rfl := pure_inv hs
    exact .inl rfl
  · rename_i hpos
    split at h
    · rename_i hneg
      obtain ⟨d, hd, h⟩ := bind_inv h
      obtain ⟨-, rfl⟩ := Decimal.neg_eq_ok.mp hd
      obtain ⟨⟨covered, s₁⟩, h1, h⟩ := bind_inv h
      unfold useInsuranceFund at h1
      split at h1
      · obtain ⟨f, hf, h1⟩ := bind_inv h1
        obtain ⟨-, rfl⟩ := i128_eq_ok.mp hf
        obtain ⟨rfl, rfl⟩ := pair_inv h1
        obtain rfl := pure_inv h
        refine .inl ?_
        dsimp only
        rw [sub_neg_eq_add]
      · rename_i hfund
        obtain ⟨rfl, rfl⟩ := pair_inv h1
        dsimp only at hfund
        exact .inr ⟨by simpa using hneg, by omega, h⟩
    · rename_i hneg
      obtain rfl := pure_inv h
      have hz : r.value = 0 := by
        simp only [Decimal.isPositive_iff, Decimal.isNegative_iff] at hpos hneg
        omega
      refine .inl ?_
      rw [hz, add_zero]

/-- Only positions, the insurance fund and the trigger maps may differ. -/
def LiquidationOnly (e e' : Engine) : Prop :=
  ∃ positions insuranceFund triggerOrdersAbove triggerOrdersBelow triggerOrderIndex,
    e' = { e with
      state := { e.state with
        positions, insuranceFund, triggerOrdersAbove, triggerOrdersBelow, triggerOrderIndex } }

theorem LiquidationOnly.refl (e : Engine) : LiquidationOnly e e := ⟨_, _, _, _, _, rfl⟩

theorem LiquidationOnly.trans (h : LiquidationOnly e₁ e₂) (h' : LiquidationOnly e₂ e₃) :
    LiquidationOnly e₁ e₃ := by
  obtain ⟨_, _, _, _, _, rfl⟩ := h
  obtain ⟨a, b, c, d, f, rfl⟩ := h'
  exact ⟨a, b, c, d, f, rfl⟩

theorem LiquidationOnly.upkept (h : LiquidationOnly e e') : Upkept e e' := by
  obtain ⟨_, _, _, _, _, rfl⟩ := h
  exact ⟨⟨_, _, _, _, _, _, _, _, _, rfl⟩, rfl⟩

theorem settleResidual_only (h : settleResidual ord e m b size price isBuy = .ok e') :
    LiquidationOnly e e' := by
  obtain ⟨r, -, rfl | ⟨-, -, hadl⟩⟩ := settleResidual_cases h
  · exact ⟨_, _, _, _, _, rfl⟩
  · obtain ⟨_, rfl⟩ := triggerAdl_only hadl
    exact ⟨_, _, _, _, _, rfl⟩

theorem applyLiquidation_only {a : AccountAddress}
    (h : applyLiquidation ord e a m size price = .ok e') :
    LiquidationOnly e e' := by
  unfold applyLiquidation at h
  dsimp only at h
  split at h
  · obtain rfl := pure_inv h
    exact .refl _
  · obtain ⟨b, -, h⟩ := bind_inv h
    obtain ⟨e₁, h1, h⟩ := bind_inv h
    obtain ⟨s₂, h2, h⟩ := bind_inv h
    obtain rfl := pure_inv h
    have f1 : LiquidationOnly e e₁ := by
      cases b with
      | none =>
        obtain rfl := pure_inv h1
        exact .refl _
      | some b => exact settleResidual_only h1
    obtain ⟨_, rfl⟩ := modifyPosition_only h2
    obtain ⟨above, below, index, ht⟩ := cancelTriggerOrdersForPosition_only
      (s := { e₁.state with positions := _ }) (a := a) (m := m)
    exact f1.trans ⟨_, _, above, below, index, by rw [ht]⟩

theorem liquidate_only {l l' : Liquidations} {pair : AccountAddress × MarketId}
    (h : liquidate ord (l, e) pair = .ok (l', e')) :
    LiquidationOnly e e' := by
  unfold liquidate at h
  dsimp only at h
  split at h
  · obtain ⟨r, -, h⟩ := bind_inv h
    cases r with
    | none =>
      obtain ⟨-, rfl⟩ := pair_inv h
      exact .refl _
    | some q =>
      obtain ⟨e₁, h1, h⟩ := bind_inv h
      obtain ⟨-, rfl⟩ := pair_inv h
      exact applyLiquidation_only h1
  · obtain ⟨-, rfl⟩ := pair_inv h
    exact .refl _

/-- Liquidation writes its footprint in the state. -/
theorem processLiquidations_only {l : Liquidations} (h : e.processLiquidations ord = .ok (l, e')) :
    Upkept e e' := by
  obtain ⟨us, -, h⟩ := bind_inv h
  exact foldlM_rel (R := fun x y => Upkept x.2 y.2) h (fun _ => .refl _)
    (fun _ _ _ => Upkept.trans) (fun _ _ _ _ h => (liquidate_only h).upkept)

/-! ### One submission -/

section Submission

variable {market : Market} {order updated : Order} {fills fills' : List Fill}
  {r : Except Error (Order × List Fill)} {a : AccountAddress} {q : OrderRequest} {t : Timestamp}

/-- The fills of a matched order are settled with the makers in line, and a remainder that
rests is added last. -/
theorem settleOrder_cases (h : e.settleOrder market updated fills = .ok (fills', e')) :
    ∃ e₁, settleFills market.config fills
        { e with state := syncMakers e.state updated.marketId fills } = .ok (fills', e₁) ∧
      (e' = e₁ ∧ (!updated.isFilled && updated.shouldRest) = false ∨
        ∃ s, e₁.state.addOrder updated = .ok s ∧ e' = { e₁ with state := s } ∧
          (!updated.isFilled && updated.shouldRest) = true) := by
  obtain ⟨⟨fills₁, e₁⟩, hfills, h⟩ := bind_inv h
  dsimp only at h
  split at h
  · rename_i hrest
    obtain ⟨e₂, hadd, h⟩ := bind_inv h
    obtain ⟨rfl, rfl⟩ := pair_inv h
    obtain ⟨s, hs, rfl⟩ := onState_eq_ok hadd
    exact ⟨e₁, hfills, .inr ⟨s, hs, rfl, hrest⟩⟩
  · rename_i hrest
    obtain ⟨rfl, rfl⟩ := pair_inv h
    exact ⟨_, hfills, .inl ⟨rfl, by simpa using hrest⟩⟩

/-- An order without a book is refused, and so is one that the matching refuses; any other is
settled. -/
theorem executeOrder_cases (h : e.executeOrder market order = .ok (r, e')) :
    (e' = e ∧ ∃ err, r = .error err) ∨
      ∃ book book' r₁, e.state.getOrderbook order.marketId = some book ∧
        MatchingEngine.processOrder order book = .ok (r₁, book') ∧
        ((∃ err, r₁ = .error err ∧ r = .error err ∧
            e' = { e with state := e.state.setOrderbook order.marketId book' }) ∨
          ∃ updated fills fills', r₁ = .ok (updated, fills) ∧ r = .ok (updated, fills') ∧
            settleOrder { e with state := e.state.setOrderbook order.marketId book' } market
              updated fills = .ok (fills', e')) := by
  unfold executeOrder at h
  split at h
  · obtain ⟨rfl, rfl⟩ := pair_inv h
    exact .inl ⟨rfl, _, rfl⟩
  · rename_i book hbook
    obtain ⟨⟨r₁, book'⟩, hproc, h⟩ := bind_inv h
    refine .inr ⟨book, book', r₁, hbook, hproc, ?_⟩
    cases r₁ with
    | error err =>
      obtain ⟨rfl, rfl⟩ := pair_inv h
      exact .inl ⟨err, rfl, rfl, rfl⟩
    | ok p =>
      obtain ⟨updated, fills⟩ := p
      obtain ⟨⟨fills', e₁⟩, hsettle, h⟩ := bind_inv h
      obtain ⟨rfl, rfl⟩ := pair_inv h
      exact .inr ⟨updated, fills, fills', rfl, rfl, hsettle⟩

variable {P : Engine → Prop}

/-- **Execution rule.** What holds with the matched book, after the fills and after the
remainder is added holds after the execution. -/
theorem executeOrder_rule (h0 : P e)
    (hbook : ∀ book r₁ book', e.state.getOrderbook order.marketId = some book →
      MatchingEngine.processOrder order book = .ok (r₁, book') →
      P { e with state := e.state.setOrderbook order.marketId book' } ∧
      ∀ updated fills fills' e₁ s, r₁ = .ok (updated, fills) →
        s = syncMakers (e.state.setOrderbook order.marketId book') updated.marketId fills →
        settleFills market.config fills { e with state := s } = .ok (fills', e₁) →
        P e₁ ∧ ((!updated.isFilled && updated.shouldRest) = true →
          ∀ s', e₁.state.addOrder updated = .ok s' → P { e₁ with state := s' }))
    (h : e.executeOrder market order = .ok (r, e')) : P e' := by
  rcases executeOrder_cases h with ⟨rfl, -⟩ | ⟨book, book', r₁, hb, hproc, hend⟩
  · exact h0
  obtain ⟨hmatched, hsettled⟩ := hbook book r₁ book' hb hproc
  rcases hend with ⟨err, -, -, rfl⟩ | ⟨updated, fills, fills', rfl, -, hset⟩
  · exact hmatched
  · obtain ⟨e₁, hfills, ⟨rfl, -⟩ | ⟨s', hadd, rfl, hrest⟩⟩ := settleOrder_cases hset
    · exact (hsettled updated fills fills' _ _ rfl rfl hfills).1
    · exact (hsettled updated fills fills' _ _ rfl rfl hfills).2 hrest s' hadd

/-- The engine in which a request that passed the checks is carried out: the account is open
and the next id is taken. -/
def enter (e : Engine) (account : AccountAddress) (marketId : MarketId) : Engine :=
  let e₁ := e.openAccount account marketId
  { e₁ with state := { e₁.state with nextOrderId := e.state.nextOrderId + 1 } }

theorem enter_only (e : Engine) (a : AccountAddress) (m : MarketId) :
    ∃ accounts positions, e.enter a m = { e with state :=
      { e.state with accounts, positions, nextOrderId := e.state.nextOrderId + 1 } } := by
  obtain ⟨accounts, positions, h⟩ := openAccount_only e a m
  refine ⟨accounts, positions, ?_⟩
  unfold enter
  rw [h]

/-- The position that an order is about is there. -/
theorem enter_position (e : Engine) (a : AccountAddress) (m : MarketId) :
    ((e.enter a m).state.getPosition a m).isSome := by
  show ((e.openAccount a m).state.getPosition a m).isSome
  rw [getPosition_openAccount, if_pos ⟨rfl, rfl⟩]
  rfl

/-- A request fails the checks, or it is valid: then a trigger order is stored, and any other
order is executed with the next id. -/
theorem submitOrder_cases (h : e.submitOrder a q t = .ok (r, e')) :
    ((e' = e ∨ e' = e.openAccount a q.marketId) ∧ ∃ err, r = .error err) ∨
      ∃ market, e.state.getMarket q.marketId = some market ∧
        validateOrder q market.config = .ok (.ok ()) ∧
        e.prepareOrder a q = .ok (.ok market, e.openAccount a q.marketId) ∧
        (e.openAccount a q.marketId).state.takeOrderId =
          .ok (e.state.nextOrderId, (e.enter a q.marketId).state) ∧
        ((q.triggerPrice.isSome = true ∧ r = .ok (.new e.state.nextOrderId a q t, []) ∧
            e' = { e.enter a q.marketId with
              state := (e.enter a q.marketId).state.addTriggerOrder
                (.new e.state.nextOrderId a q t) }) ∨
          q.triggerPrice = none ∧
            (e.enter a q.marketId).executeOrder market (.new e.state.nextOrderId a q t) =
              .ok (r, e')) := by
  obtain ⟨⟨r₁, e₁⟩, hprep, h⟩ := bind_inv h
  rcases prepareOrder_cases hprep with ⟨rfl, err, rfl⟩ | ⟨rfl, market, hm, hvalid, hcheck⟩
  · obtain ⟨rfl, rfl⟩ := pair_inv h
    exact .inl ⟨.inl rfl, err, rfl⟩
  rcases hcheck with ⟨err, -, rfl⟩ | ⟨-, rfl⟩
  · obtain ⟨rfl, rfl⟩ := pair_inv h
    exact .inl ⟨.inr rfl, err, rfl⟩
  obtain ⟨⟨id, s⟩, htake, h⟩ := bind_inv h
  have hnext : (e.openAccount a q.marketId).state.nextOrderId = e.state.nextOrderId := by
    obtain ⟨_, _, hopen⟩ := openAccount_only e a q.marketId
    rw [hopen]
  have hentered := takeOrderId_spec htake
  rw [hnext] at hentered
  obtain ⟨rfl, rfl⟩ := hentered
  refine .inr ⟨market, hm, hvalid, hprep, htake, ?_⟩
  dsimp only at h
  split at h
  · rename_i htrig
    obtain ⟨rfl, rfl⟩ := pair_inv h
    exact .inl ⟨htrig, rfl, rfl⟩
  · rename_i htrig
    exact .inr ⟨by simpa [Order.new] using htrig, h⟩

/-- **Submission rule.** What holds with the account open, with the next id taken, with the
trigger order stored and after the execution holds after the submission. -/
theorem submitOrder_rule (h0 : P e) (hopen : P (e.openAccount a q.marketId))
    (hstore : ∀ s, TriggersOnly (e.enter a q.marketId).state s →
      P { e.enter a q.marketId with state := s })
    (hexecute : ∀ market, e.state.getMarket q.marketId = some market →
      (e.enter a q.marketId).executeOrder market (.new e.state.nextOrderId a q t) = .ok (r, e') →
      P e') (h : e.submitOrder a q t = .ok (r, e')) : P e' := by
  rcases submitOrder_cases h with ⟨rfl | rfl, -⟩ | ⟨market, hm, -, -, -, ⟨-, -, rfl⟩ | ⟨-, hexec⟩⟩
  · exact h0
  · exact hopen
  · exact hstore _ (addTriggerOrder_only _)
  · exact hexecute market hm hexec

end Submission

/-! ### One operation -/

section Step

variable {G : SubmitCond} {Q : EngineState → Prop} {op : Op}
  (hremove : ∀ s m id, Q s → Q (s.removeOrder m id).2)

include hremove in
theorem cancelRecords_induction {m : MarketId} {os : List Order} (h0 : Q e.state) :
    Q (cancelRecords m os e).2.state := by
  induction os generalizing e with
  | nil => exact h0
  | cons o os ih =>
    have h1 : Q (e.cancelRecord m o.id o).2.state := hremove _ m o.id h0
    unfold cancelRecords
    split
    · rename_i heq
      rw [heq] at h1
      exact h1
    · rename_i heq
      rw [heq] at h1
      exact ih h1

include hremove in
/-- **Step rule.** What the parts of an operation keep of the state, the operation keeps:
submissions that meet `G`, changes of trigger orders, removals of orders, changes of settings
and balances, and the two passes. The passes and the settings need only be looked at in the
state before. -/
theorem step_rule (h0 : Q e.state) (hmeets : SubmitsMeet G e op)
    (hsubmit : ∀ e₁ a q t res e₂, Q e₁.state → G e₁ a q → e₁.submitOrder a q t = .ok (res, e₂) →
      Q e₂.state)
    (htriggers : ∀ s s', Q s → TriggersOnly s s' → Q s')
    (hsettings : ∀ accounts leverage marginMode,
      Q { e.state with accounts, leverage, marginMode })
    (hfunding : ∀ t rates e₁, e.processFunding t = .ok (rates, e₁) → Q e₁.state)
    (hliquidations : ∀ ord l e₁, op = .processLiquidations ord →
      e.processLiquidations ord = .ok (l, e₁) → Q e₁.state)
    (h : step op e = .ok e') : Q e'.state := by
  have htake : ∀ (e₁ : Engine) m p, Q e₁.state → Q (e₁.takeTriggered m p).2.state := by
    intro e₁ m p hs
    obtain ⟨_, ht, heq⟩ := takeTriggered_only e₁ m p
    rw [heq]
    exact htriggers _ _ hs ht
  cases op with
  | placeOrder a q t =>
    obtain ⟨⟨res, e₁⟩, h1, h⟩ := bind_inv h
    obtain rfl := pure_inv h
    exact placeOrder_induction (P := fun e => Q e.state) (hsubmit · · · t) htake h0 hmeets h1
  | cancelOrder a m id =>
    obtain rfl := pure_inv h
    unfold cancelOrder
    split
    · exact h0
    · split
      · exact h0
      · exact hremove _ m id h0
  | cancelAllOrders a m =>
    obtain rfl := pure_inv h
    exact cancelRecords_induction hremove h0
  | checkTriggers m p t =>
    obtain ⟨⟨res, e₁⟩, h1, h⟩ := bind_inv h
    obtain rfl := pure_inv h
    exact checkTriggersFuel_induction (P := fun e => Q e.state) (hsubmit · · · t) htake h0 hmeets h1
  | cancelTrigger id =>
    obtain rfl := pure_inv h
    exact htriggers _ _ h0 (removeTriggerOrder_only id)
  | updateLeverage a m l =>
    obtain ⟨⟨res, e₁⟩, h1, h⟩ := bind_inv h
    obtain rfl := pure_inv h
    obtain ⟨leverage, rfl⟩ := updateLeverage_only h1
    exact hsettings _ leverage _
  | setMarginMode a mode =>
    obtain rfl := pure_inv h
    unfold setMarginMode
    split
    · exact h0
    · exact hsettings _ _ _
  | processFunding t =>
    obtain ⟨⟨res, e₁⟩, h1, h⟩ := bind_inv h
    obtain rfl := pure_inv h
    exact hfunding _ _ _ h1
  | processLiquidations ord =>
    obtain ⟨⟨res, e₁⟩, h1, h⟩ := bind_inv h
    obtain rfl := pure_inv h
    exact hliquidations ord _ _ rfl h1
  | deposit a n =>
    obtain ⟨s, h1, rfl⟩ := onState_eq_ok (f := (·.deposit a n)) h
    obtain ⟨accounts, rfl⟩ := deposit_only h1
    exact hsettings accounts _ _
  | withdraw a n =>
    obtain ⟨⟨res, s⟩, h1, h⟩ := bind_inv h
    obtain rfl := pure_inv h
    obtain ⟨accounts, rfl⟩ := withdraw_only h1
    exact hsettings accounts _ _
  | setUnified u =>
    obtain rfl := pure_inv h
    exact h0

end Step

end Engine

end Hypercore
