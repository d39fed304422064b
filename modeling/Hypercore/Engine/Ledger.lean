import Hypercore.Engine.Acts
/-!
# Hypercore.Engine.Ledger

Runs whose fills and funding payments meet a condition, each in the engine it is applied
to.

`StepMeets F Pay` says of one operation that every fill it applies meets `F` and every
account whose funding it settles meets `Pay`. What acts preserve, the fills and
settlements among them under these conditions, is preserved by the operation
(`step_induction`): an invariant of the ledger is proved act by act and never looks at
matching, triggers or the loops around them.
-/

namespace Hypercore

open Exec Int128

namespace Engine

open EngineState

/-! ### Conditions on fills -/

/-- A condition on a priced fill and the engine it is applied to. -/
abbrev FillCond := Engine → Fill → Prop

/-- Every fill, priced and applied in turn, meets a condition. -/
def FillsMeet (F : FillCond) (config : MarketConfig) : List Fill → Engine → Prop
  | [], _ => True
  | fill :: fills, e => After (priceFill e.state config fill) fun f =>
      F e f ∧ After (e.applyFill f) (FillsMeet F config fills)

/-- A condition on the fills that matching returns: market, order, the book the order was
matched in, and the engine the fills are about to be settled in. -/
abbrev MatchCond := Market → Order → OrderBook → List Fill → Engine → Prop

/-- What matching has returned meets a condition. -/
def MatchedMeet (C : MatchCond) (market : Market) (order : Order) (book : OrderBook)
    (e : Engine) : Except Error (Order × List Fill) × OrderBook → Prop
  | (.error _, _) => True
  | (.ok (updated, fills), matched) =>
    let s := syncMakers (e.state.setOrderbook order.marketId matched) updated.marketId fills
    C market order book fills { e with state := s }

/-- The fills of an order meet a condition. -/
def ExecuteMeets (C : MatchCond) (market : Market) (order : Order) (e : Engine) : Prop :=
  match e.state.getOrderbook order.marketId with
  | none => True
  | some book =>
    After (MatchingEngine.processOrder order book) (MatchedMeet C market order book e)

/-- The fills of a prepared order meet a condition. -/
def PreparedMeet (C : MatchCond) (t : Timestamp) (a : AccountAddress) (q : OrderRequest) :
    Result Market → Prop
  | (.error _, _) => True
  | (.ok market, e) => After e.state.takeOrderId fun x =>
    let order := Order.new x.1 a q t
    order.triggerPrice.isSome = false → ExecuteMeets C market order { e with state := x.2 }

/-- The fills of a submission meet a condition. -/
def SubmitMatched (C : MatchCond) (t : Timestamp) : SubmitCond := fun e a q =>
  After (e.prepareOrder a q) (PreparedMeet C t a q)

/-- Every fill of a submission meets a condition. -/
def SubmitFills (F : FillCond) : Timestamp → SubmitCond :=
  SubmitMatched fun market _ _ fills e => FillsMeet F market.config fills e

/-- What an operation submits meets a condition, each submission at the operation's time. -/
def StepSubmits (G : Timestamp → SubmitCond) (e : Engine) : Op → Prop
  | .placeOrder a q t => SubmitsMeet (G t) e (.placeOrder a q t)
  | .checkTriggers m p t => SubmitsMeet (G t) e (.checkTriggers m p t)
  | _ => True

/-! ### Conditions on funding payments -/

/-- A condition on the settlement of an account in a market at an accumulator. -/
abbrev PayCond := MarketId → Decimal → Engine → AccountAddress → Prop

/-- The settlements of one market meet a condition. -/
def HoldersMeet (Pay : PayCond) (t : Timestamp) (e : Engine) (mr : MarketId × Decimal) : Prop :=
  match e.state.getMarket mr.1 with
  | none => True
  | some market => FoldMeets
      (settleAccount mr.1 mr.2 market.state.fundingAccumulator t)
      (Pay mr.1 market.state.fundingAccumulator) (holders e.state mr.1) e

/-- The settlements of a funding call meet a condition. -/
def FundingMeets (Pay : PayCond) (t : Timestamp) (e : Engine) : Prop :=
  After (e.state.getMarketIds.foldlM (settleMarket t) ([], e)) fun (rates, e) =>
    FoldMeets (settleHolders t) (HoldersMeet Pay t) rates e

/-- The fills and settlements of an operation meet their conditions. -/
def StepMeets (F : FillCond) (Pay : PayCond) (e : Engine) : Op → Prop
  | .processFunding t => FundingMeets Pay t e
  | op => StepSubmits (SubmitFills F) e op

/-! ### Checking the conditions -/

section Decidable

variable {F : FillCond} {Pay : PayCond} {G : SubmitCond} {C : MatchCond}

instance FillsMeet.decidable [∀ e f, Decidable (F e f)] (config : MarketConfig) :
    ∀ fills e, Decidable (FillsMeet F config fills e)
  | [], _ => .isTrue trivial
  | fill :: fills, e =>
    have : DecidablePred (FillsMeet F config fills) := FillsMeet.decidable config fills
    inferInstanceAs (Decidable (After (priceFill e.state config fill) fun f =>
      F e f ∧ After (e.applyFill f) (FillsMeet F config fills)))

instance MatchedMeet.decidable [∀ market order book fills e,
    Decidable (C market order book fills e)] (market : Market) (order : Order) (book : OrderBook)
    (e : Engine) : DecidablePred (MatchedMeet C market order book e)
  | (.error _, _) => .isTrue trivial
  | (.ok (updated, fills), matched) => inferInstanceAs (Decidable (C market order book fills
      { e with state :=
        syncMakers (e.state.setOrderbook order.marketId matched) updated.marketId fills }))

instance ExecuteMeets.decidable [∀ market order book fills e,
    Decidable (C market order book fills e)] (market : Market) (order : Order) (e : Engine) :
    Decidable (ExecuteMeets C market order e) :=
  match h : e.state.getOrderbook order.marketId with
  | none => .isTrue (by
    unfold ExecuteMeets
    rw [h]
    trivial)
  | some book => decidable_of_iff
    (After (MatchingEngine.processOrder order book) (MatchedMeet C market order book e)) (by
      unfold ExecuteMeets
      rw [h])

instance PreparedMeet.decidable [∀ market order book fills e,
    Decidable (C market order book fills e)] (t : Timestamp)
    (a : AccountAddress) (q : OrderRequest) : DecidablePred (PreparedMeet C t a q)
  | (.error _, _) => .isTrue trivial
  | (.ok market, e) => inferInstanceAs (Decidable (After e.state.takeOrderId fun x =>
    (Order.new x.1 a q t).triggerPrice.isSome = false →
      ExecuteMeets C market (Order.new x.1 a q t) { e with state := x.2 }))

instance SubmitMatched.decidable [∀ market order book fills e,
    Decidable (C market order book fills e)] (t : Timestamp) (e : Engine) (a : AccountAddress)
    (q : OrderRequest) : Decidable (SubmitMatched C t e a q) :=
  inferInstanceAs (Decidable (After (e.prepareOrder a q) (PreparedMeet C t a q)))

instance SubmitFills.decidable [∀ e f, Decidable (F e f)] (t : Timestamp) (e : Engine)
    (a : AccountAddress) (q : OrderRequest) : Decidable (SubmitFills F t e a q) :=
  inferInstanceAs (Decidable
    (SubmitMatched (fun market _ _ fills e => FillsMeet F market.config fills e) t e a q))

/-- The trigger check after a submission meets a condition. -/
def SubmittedMeets (checkMeets : Engine → MarketId → Decimal → Timestamp → Prop) (m : MarketId)
    (t : Timestamp) : Result (Order × List Fill) → Prop
  | (.error _, _) => True
  | (.ok (_, fills), e) => fills ≠ [] → checkMeets e m (triggerPriceOf e m) t

instance SubmittedMeets.decidable
    {checkMeets : Engine → MarketId → Decimal → Timestamp → Prop}
    [∀ e m p t, Decidable (checkMeets e m p t)] (m : MarketId) (t : Timestamp) :
    DecidablePred (SubmittedMeets checkMeets m t)
  | (.error _, _) => .isTrue trivial
  | (.ok (_, fills), e) =>
    inferInstanceAs (Decidable (fills ≠ [] → checkMeets e m (triggerPriceOf e m) t))

theorem placeMeets_iff {checkMeets : Engine → MarketId → Decimal → Timestamp → Prop}
    {e : Engine} {a : AccountAddress} {q : OrderRequest} {t : Timestamp} :
    PlaceMeets G checkMeets e a q t ↔
      G e a q ∧ After (e.submitOrder a q t) (SubmittedMeets checkMeets q.marketId t) := by
  refine and_congr_right fun _ => ⟨fun h x hx => ?_, fun h order fills e' hs => h _ hs⟩
  obtain ⟨r, e'⟩ := x
  cases r with
  | error err => trivial
  | ok of => exact h of.1 of.2 e' hx

instance PlaceMeets.decidable [∀ e a q, Decidable (G e a q)]
    {checkMeets : Engine → MarketId → Decimal → Timestamp → Prop}
    [∀ e m p t, Decidable (checkMeets e m p t)] (e : Engine) (a : AccountAddress)
    (q : OrderRequest) (t : Timestamp) : Decidable (PlaceMeets G checkMeets e a q t) :=
  decidable_of_iff _ placeMeets_iff.symm

instance ActivateMeets.decidable
    {place : Engine → AccountAddress → OrderRequest → Timestamp →
      Exec (Result (Order × List Fill))}
    {meets : Engine → AccountAddress → OrderRequest → Timestamp → Prop}
    [∀ e a q t, Decidable (meets e a q t)] (t : Timestamp) :
    ∀ os e, Decidable (ActivateMeets place meets t os e)
  | [], _ => .isTrue trivial
  | o :: os, e =>
    have : DecidablePred (ActivateMeets place meets t os) := ActivateMeets.decidable t os
    decidable_of_iff (meets e o.owner (triggerRequest o) t ∧
        After (place e o.owner (triggerRequest o) t)
          (fun x => ActivateMeets place meets t os x.2))
      (and_congr_right fun _ => ⟨fun h r e' hp => h (r, e') hp, fun h x hx => h x.1 x.2 hx⟩)

instance CheckMeets.decidable [∀ e a q, Decidable (G e a q)] :
    ∀ fuel e m p t, Decidable (CheckMeets G fuel e m p t)
  | 0, _, _, _, _ => .isTrue trivial
  | fuel + 1, e, m, p, t =>
    have : ∀ e m p t, Decidable (CheckMeets G fuel e m p t) := CheckMeets.decidable fuel
    inferInstanceAs (Decidable (ActivateMeets (placeOrderWith (checkTriggersFuel fuel))
      (PlaceMeets G (CheckMeets G fuel)) t (e.takeTriggered m p).1 (e.takeTriggered m p).2))

instance SubmitsMeet.decidable [∀ e a q, Decidable (G e a q)] (e : Engine) :
    DecidablePred (SubmitsMeet G e)
  | .placeOrder a q t =>
    inferInstanceAs (Decidable (PlaceMeets G (CheckMeets G (triggerCount e.state + 1)) e a q t))
  | .checkTriggers m p t =>
    inferInstanceAs (Decidable (CheckMeets G (triggerCount e.state + 1) e m p t))
  | .cancelOrder .. | .cancelAllOrders .. | .cancelTrigger .. | .updateLeverage ..
  | .setMarginMode .. | .processFunding .. | .processLiquidations .. | .deposit ..
  | .withdraw .. | .setUnified .. => .isTrue trivial

instance HoldersMeet.decidable [∀ m x e a, Decidable (Pay m x e a)] (t : Timestamp)
    (e : Engine) (mr : MarketId × Decimal) : Decidable (HoldersMeet Pay t e mr) :=
  match h : e.state.getMarket mr.1 with
  | none => .isTrue (by
    unfold HoldersMeet
    rw [h]
    trivial)
  | some market => decidable_of_iff (FoldMeets
      (settleAccount mr.1 mr.2 market.state.fundingAccumulator t)
      (Pay mr.1 market.state.fundingAccumulator) (holders e.state mr.1) e) (by
    unfold HoldersMeet
    rw [h])

instance FundingMeets.decidable [∀ m x e a, Decidable (Pay m x e a)] (t : Timestamp)
    (e : Engine) : Decidable (FundingMeets Pay t e) :=
  inferInstanceAs (Decidable (After (e.state.getMarketIds.foldlM (settleMarket t) ([], e))
    fun x => FoldMeets (settleHolders t) (HoldersMeet Pay t) x.1 x.2))

instance StepSubmits.decidable {G : Timestamp → SubmitCond} [∀ t e a q, Decidable (G t e a q)]
    (e : Engine) : DecidablePred (StepSubmits G e)
  | .placeOrder a q t => inferInstanceAs (Decidable (SubmitsMeet (G t) e (.placeOrder a q t)))
  | .checkTriggers m p t =>
    inferInstanceAs (Decidable (SubmitsMeet (G t) e (.checkTriggers m p t)))
  | .cancelOrder .. | .cancelAllOrders .. | .cancelTrigger .. | .updateLeverage ..
  | .setMarginMode .. | .processFunding .. | .processLiquidations .. | .deposit ..
  | .withdraw .. | .setUnified .. => .isTrue trivial

instance StepMeets.decidable [∀ e f, Decidable (F e f)] [∀ m x e a, Decidable (Pay m x e a)]
    (e : Engine) : DecidablePred (StepMeets F Pay e)
  | .placeOrder a q t =>
    inferInstanceAs (Decidable (StepSubmits (SubmitFills F) e (.placeOrder a q t)))
  | .checkTriggers m p t =>
    inferInstanceAs (Decidable (StepSubmits (SubmitFills F) e (.checkTriggers m p t)))
  | .processFunding t => inferInstanceAs (Decidable (FundingMeets Pay t e))
  | .cancelOrder .. | .cancelAllOrders .. | .cancelTrigger .. | .updateLeverage ..
  | .setMarginMode .. | .processLiquidations .. | .deposit .. | .withdraw ..
  | .setUnified .. => .isTrue trivial

end Decidable

/-! ### The step rule -/

/-- Two engines with the same ledger and the same leverage settings. -/
structure SameTerms (e e' : Engine) : Prop extends SameLedger e e' where
  leverage : e'.state.leverage = e.state.leverage

/-- What placing, matching and cancelling orders keeps, where fills meet `F`. -/
structure KeepsFills (F : FillCond) (P : Engine → Prop) : Prop where
  terms : ∀ {e e'}, P e → SameTerms e e' → P e'
  openAccount : ∀ {e} a m, P e → P (e.openAccount a m)
  fill : ∀ {e e' f₀ f config}, P e → f₀.maker ≠ f₀.taker →
    priceFill e.state config f₀ = .ok f → F e f → e.applyFill f = .ok e' → P e'

/-- What trading and liquidation keep, where fills meet `F`. -/
structure KeepsTrades (F : FillCond) (P : Engine → Prop) : Prop where
  books : ∀ {e e'}, P e → SameLedger e e' → P e'
  sync : ∀ {e} a, P e → P (e.syncAccount a)
  openPosition : ∀ {e} a m, P e → P { e with state := e.state.getOrCreatePosition a m }
  fill : ∀ {e e' f₀ f config}, P e → priceFill e.state config f₀ = .ok f → F e f →
    e.applyFill f = .ok e' → P e'
  liquidate : ∀ {e e' ord l l' pair}, P e → liquidate ord (l, e) pair = .ok (l', e') → P e'

/-- What acts keep, where fills meet `F` and settlements meet `Pay`. -/
structure Keeps (F : FillCond) (Pay : PayCond) (P : Engine → Prop) : Prop
    extends KeepsTrades F P where
  settleMarket : ∀ {e e' t m rates rates'}, P e →
    settleMarket t (rates, e) m = .ok (rates', e') → P e'
  settleAccount : ∀ {e e' m rate acc t a}, P e → Pay m acc e a →
    settleAccount m rate acc t e a = .ok e' → P e'

/-- Operations on orders and margin modes. -/
def OrderOp : Op → Prop
  | .placeOrder .. | .cancelOrder .. | .cancelAllOrders .. | .checkTriggers ..
  | .cancelTrigger .. | .setMarginMode .. => True
  | _ => False

/-- Operations on what the engine shares with the rest of the node. -/
def External : Op → Prop
  | .deposit .. | .withdraw .. | .setUnified .. => True
  | _ => False

section Rule

variable {F : FillCond} {Pay : PayCond} {P : Engine → Prop} {e e' : Engine}

/-- What comes from outside writes accounts and the balance sheet. -/
theorem external_only {op : Op} (hext : External op) (h : step op e = .ok e') :
    ∃ accounts, e'.state = { e.state with accounts } := by
  cases op with
  | deposit a n =>
    obtain ⟨s, hs, rfl⟩ := onState_eq_ok (f := (·.deposit a n)) h
    exact deposit_only hs
  | withdraw a n =>
    obtain ⟨⟨r, s⟩, hs, h⟩ := bind_inv h
    obtain rfl := pure_inv h
    exact withdraw_only hs
  | setUnified u =>
    obtain rfl := pure_inv h
    exact ⟨e.state.accounts, rfl⟩
  | _ => exact hext.elim

theorem KeepsTrades.keepsFills (hP : KeepsTrades F P) : KeepsFills F P where
  terms h0 h := hP.books h0 h.toSameLedger
  openAccount a m h0 := hP.openPosition a m (hP.sync a h0)
  fill h0 _ hprice hF h := hP.fill h0 hprice hF h

variable {s : EngineState} {r : Except Error (Order × List Fill)} {t : Timestamp} {op : Op}

theorem KeepsFills.orders (hP : KeepsFills F P) (h0 : P e) (h : OrdersOnly e.state s) :
    P { e with state := s } := by
  obtain ⟨_, _, _, rfl⟩ := h
  exact hP.terms h0 ⟨⟨rfl, rfl, rfl, rfl, rfl, rfl, rfl⟩, rfl⟩

theorem KeepsFills.triggers (hP : KeepsFills F P) (h0 : P e) (h : TriggersOnly e.state s) :
    P { e with state := s } := by
  obtain ⟨_, _, _, rfl⟩ := h
  exact hP.terms h0 ⟨⟨rfl, rfl, rfl, rfl, rfl, rfl, rfl⟩, rfl⟩

theorem KeepsFills.fills {config : MarketConfig} {fills fills' : List Fill} (hP : KeepsFills F P)
    (h0 : P e) (hparties : ∀ f ∈ fills, f.maker ≠ f.taker) (hmeets : FillsMeet F config fills e)
    (h : settleFills config fills e = .ok (fills', e')) : P e' := by
  induction fills generalizing e e' fills' with
  | nil =>
    obtain ⟨-, rfl⟩ := pair_inv h
    exact h0
  | cons fill fills ih =>
    obtain ⟨f, hf, h⟩ := bind_inv h
    obtain ⟨e₁, h1, h⟩ := bind_inv h
    obtain ⟨⟨rest, e₂⟩, h2, h⟩ := bind_inv h
    obtain ⟨-, rfl⟩ := pair_inv h
    obtain ⟨hF, hrest⟩ := hmeets f hf
    exact ih (hP.fill h0 (hparties fill (.head _)) hf hF h1) (fun f hf => hparties f (.tail _ hf))
      (hrest e₁ h1) h2

theorem KeepsFills.execute {market : Market} {order : Order} (hP : KeepsFills F P) (h0 : P e)
    (hmeets : ExecuteMeets (fun market _ _ fills e => FillsMeet F market.config fills e) market
      order e) (h : e.executeOrder market order = .ok (r, e')) : P e' := by
  unfold ExecuteMeets at hmeets
  refine executeOrder_rule (P := P) h0 (fun book r₁ book' hbook hproc => ?_) h
  rw [hbook] at hmeets
  have hmatched := hmeets _ hproc
  have h1 : P { e with state := e.state.setOrderbook order.marketId book' } :=
    hP.terms h0 ⟨⟨rfl, rfl, rfl, rfl, rfl, rfl, rfl⟩, rfl⟩
  refine ⟨h1, fun updated fills fills' e₁ s hr hs hsettle => ?_⟩
  subst hr hs
  have hparties : ∀ f ∈ fills, f.maker ≠ f.taker := by
    intro f hf
    obtain ⟨best, size, hown, rfl⟩ := MatchingEngine.processOrder_fillOf hproc f hf
    exact hown
  have h2 := hP.fills (hP.orders h1 (syncMakers_only _ updated.marketId fills)) hparties
    hmatched hsettle
  exact ⟨h2, fun _ s' hadd => hP.orders h2 (addOrder_only hadd)⟩

theorem KeepsFills.submit {a : AccountAddress} {q : OrderRequest} (hP : KeepsFills F P) (h0 : P e)
    (hmeets : SubmitFills F t e a q) (h : e.submitOrder a q t = .ok (r, e')) : P e' := by
  have hopen : P (e.openAccount a q.marketId) := hP.openAccount a q.marketId h0
  have henter : P (e.enter a q.marketId) :=
    hP.terms hopen ⟨⟨rfl, rfl, rfl, rfl, rfl, rfl, rfl⟩, rfl⟩
  rcases submitOrder_cases h with
    ⟨rfl | rfl, -⟩ | ⟨market, -, -, hprep, htake, ⟨-, -, rfl⟩ | ⟨hnone, hexec⟩⟩
  · exact h0
  · exact hopen
  · exact hP.triggers henter (addTriggerOrder_only _)
  · refine hP.execute henter (hmeets _ hprep _ htake ?_) hexec
    show q.triggerPrice.isSome = false
    rw [hnone]
    rfl

theorem KeepsFills.take (hP : KeepsFills F P) (m : MarketId) (p : Decimal) (h0 : P e) :
    P (e.takeTriggered m p).2 := by
  obtain ⟨_, ht, heq⟩ := takeTriggered_only e m p
  rw [heq]
  exact hP.triggers h0 ht

theorem KeepsFills.cancelRecord (hP : KeepsFills F P) (h0 : P e) (m : MarketId) (id : OrderId)
    (o : Order) : P (e.cancelRecord m id o).2 := by
  obtain ⟨_, _, _, hs⟩ := removeOrder_only e.state m id
  have hstate : (e.cancelRecord m id o).2.state = (e.state.removeOrder m id).2 := rfl
  exact hP.terms h0 ⟨⟨by rw [hstate, hs], by rw [hstate, hs], by rw [hstate, hs],
    by rw [hstate, hs], rfl, rfl, rfl⟩, by rw [hstate, hs]⟩

/-- **Step rule.** What placing, matching and cancelling keeps, an operation on orders keeps
whose fills meet their condition. -/
theorem KeepsFills.step_induction (hP : KeepsFills F P) (h0 : P e) (hop : OrderOp op)
    (hmeets : StepSubmits (SubmitFills F) e op) (h : step op e = .ok e') : P e' := by
  cases op with
  | placeOrder a q t =>
    obtain ⟨⟨res, e₁⟩, h1, h⟩ := bind_inv h
    obtain rfl := pure_inv h
    exact placeOrder_induction (fun _ _ _ _ _ h0 hG h => hP.submit h0 hG h)
      (fun _ m p h0 => hP.take m p h0) h0 hmeets h1
  | cancelOrder a m id =>
    obtain rfl := pure_inv h
    unfold cancelOrder
    split
    · exact h0
    · split
      · exact h0
      · exact hP.cancelRecord h0 m id _
  | cancelAllOrders a m =>
    obtain rfl := pure_inv h
    have hall : ∀ (os : List Order) (e : Engine), P e → P (cancelRecords m os e).2 := by
      intro os
      induction os with
      | nil => exact fun _ h0 => h0
      | cons o os ih =>
        intro e h0
        have h1 := hP.cancelRecord h0 m o.id o
        unfold cancelRecords
        split
        · rename_i heq
          rwa [heq] at h1
        · rename_i heq
          rw [heq] at h1
          exact ih _ h1
    exact hall _ e h0
  | checkTriggers m p t =>
    obtain ⟨⟨res, e₁⟩, h1, h⟩ := bind_inv h
    obtain rfl := pure_inv h
    exact checkTriggersFuel_induction (fun _ _ _ _ _ h0 hG h => hP.submit h0 hG h)
      (fun _ m p h0 => hP.take m p h0) h0 hmeets h1
  | cancelTrigger id =>
    obtain rfl := pure_inv h
    exact hP.triggers h0 (removeTriggerOrder_only id)
  | setMarginMode a mode =>
    obtain rfl := pure_inv h
    unfold setMarginMode
    split
    · exact h0
    · exact hP.terms h0 ⟨⟨rfl, rfl, rfl, rfl, rfl, rfl, rfl⟩, rfl⟩
  | _ => exact hop.elim

theorem Keeps.funding {rates : List (MarketId × Decimal)} (hP : Keeps F Pay P) (h0 : P e)
    (hmeets : FundingMeets Pay t e) (h : e.processFunding t = .ok (rates, e')) :
    P e' := by
  obtain ⟨⟨rates₁, e₁⟩, h1, h⟩ := bind_inv h
  obtain ⟨e₂, h2, h⟩ := bind_inv h
  obtain ⟨-, rfl⟩ := pair_inv h
  have hmarkets : P e₁ := foldlM_induction (P := fun x => P x.2) h1 h0
    fun _ _ _ _ hp hs => hP.settleMarket hp hs
  refine foldlM_meets h2 (hmeets _ h1) hmarkets fun x mr y hp hok hs => ?_
  unfold settleHolders at hs
  unfold HoldersMeet at hok
  split at hs
  · obtain rfl := pure_inv hs
    exact hp
  · rename_i market hm
    rw [hm] at hok
    obtain ⟨x₁, hfold, hs⟩ := bind_inv hs
    obtain rfl := pure_inv hs
    have hx := foldlM_meets hfold hok hp fun _ _ _ hp hpay hs => hP.settleAccount hp hpay hs
    exact hP.books hx ⟨rfl, rfl, rfl, rfl, rfl, rfl, rfl⟩

/-- **Step rule.** What trading and liquidation keep, an operation keeps whose fills meet
their condition; funding is left to the caller. -/
theorem KeepsTrades.step_induction (hP : KeepsTrades F P) (h0 : P e) (hmeets : StepMeets F Pay e op)
    (hfund : ∀ t rates, op = .processFunding t → e.processFunding t = .ok (rates, e') → P e')
    (hext : External op → P e') (h : step op e = .ok e') : P e' := by
  cases op with
  | updateLeverage a m l =>
    obtain ⟨⟨res, e₁⟩, h1, h⟩ := bind_inv h
    obtain rfl := pure_inv h
    obtain ⟨leverage, rfl⟩ := updateLeverage_only h1
    exact hP.books h0 ⟨rfl, rfl, rfl, rfl, rfl, rfl, rfl⟩
  | processFunding t =>
    obtain ⟨⟨res, e₁⟩, h1, h⟩ := bind_inv h
    obtain rfl := pure_inv h
    exact hfund t res rfl h1
  | processLiquidations ord =>
    obtain ⟨⟨res, e₁⟩, h1, h⟩ := bind_inv h
    obtain rfl := pure_inv h
    obtain ⟨pairs, -, h1⟩ := bind_inv h1
    exact foldlM_induction (P := fun x => P x.2) h1 h0 fun _ _ _ _ hp hs => hP.liquidate hp hs
  | deposit a n => exact hext trivial
  | withdraw a n => exact hext trivial
  | setUnified u => exact hext trivial
  | _ =>
    refine hP.keepsFills.step_induction h0 ?_ ?_ h
    · trivial
    · exact hmeets

/-- **Step rule.** What acts keep, an operation keeps whose fills and settlements meet
their conditions. -/
theorem step_induction (hP : Keeps F Pay P) (h0 : P e) (hmeets : StepMeets F Pay e op)
    (hext : External op → P e') (h : step op e = .ok e') : P e' := by
  refine hP.toKeepsTrades.step_induction h0 hmeets (fun t rates hop hfund => ?_) hext h
  subst hop
  exact hP.funding h0 hmeets hfund

end Rule

/-! ### Checked runs -/

/-- Operations on the fresh BTC engine, each checked before it is made. -/
def btcChecked (ok : Engine → Op → Prop) [∀ e op, Decidable (ok e op)]
    (shared : Option UnifiedState) (ops : List Op) : Exec Engine := do
  let e ← btcEngine shared
  ops.foldlM (fun e op => if ok e op then step op e else .error .panic) e

variable {ok : Engine → Op → Prop} {ops : List Op}

theorem btcChecked_reachableWith [∀ e op, Decidable (ok e op)] {shared : Option UnifiedState}
    {e : Engine} (h : btcChecked ok shared ops = .ok e) : ReachableWith ok e := by
  obtain ⟨e₀, h0, h⟩ := bind_inv h
  exact ⟨e₀, btcEngine_fresh h0, .of_checked (fun _ _ => inferInstance) h⟩

/-- The same without shared balances, with the engine it starts from. -/
def btcCheckedFrom (ok : Engine → Op → Prop) [∀ e op, Decidable (ok e op)] (ops : List Op) :
    Exec (Engine × Engine) := do
  let e₀ ← btcEngine none
  let e ← ops.foldlM (fun e op => if ok e op then step op e else .error .panic) e₀
  return (e₀, e)

theorem btcCheckedFrom_eq_ok [∀ e op, Decidable (ok e op)] {e₀ e : Engine}
    (h : btcCheckedFrom ok ops = .ok (e₀, e)) :
    Fresh e₀ ∧ e₀.unifiedState = none ∧ Run.Reaches step ok e₀ e := by
  obtain ⟨e₁, h1, h⟩ := bind_inv h
  obtain ⟨e₂, h2, h⟩ := bind_inv h
  obtain ⟨rfl, rfl⟩ := pair_inv h
  refine ⟨btcEngine_fresh h1, ?_, .of_checked (fun _ _ => inferInstance) h2⟩
  obtain ⟨n, -, h1⟩ := bind_inv h1
  obtain ⟨n', -, h1⟩ := bind_inv h1
  obtain rfl := pure_inv h1
  rfl

end Engine

end Hypercore
