import Hypercore.Engine.Upkeep
import Hypercore.Lib.Run
/-!
# Hypercore.Engine.Run

The engine as a system: its operations, its runs from a fresh engine, and the
induction rules every invariant of a run goes through.

**One induction for the trigger recursion.** Placing an order can activate
trigger orders, whose placement can activate more. Whatever holds before a
placement, is preserved by each *submission* (`submitOrder`) and by taking
triggered orders out of the state, holds after the placement
(`placeOrderWith_induction`). The submissions may be assumed to meet a condition
`G` on the engine they are made in: `PlaceMeets G` says that all of them do.
-/

namespace Hypercore

open Exec Int128

/-- Operations on the engine, including those that act on what it shares with the
rest of the node. -/
inductive Op
  | placeOrder (account : AccountAddress) (request : OrderRequest) (timestamp : Timestamp)
  | cancelOrder (account : AccountAddress) (marketId : MarketId) (orderId : OrderId)
  | cancelAllOrders (account : AccountAddress) (marketId : MarketId)
  | checkTriggers (marketId : MarketId) (markPrice : Decimal) (timestamp : Timestamp)
  | cancelTrigger (orderId : OrderId)
  | updateLeverage (account : AccountAddress) (marketId : MarketId) (leverage : UInt8)
  | setMarginMode (account : AccountAddress) (mode : MarginMode)
  | processFunding (timestamp : Timestamp)
  | processLiquidations (ord : HashOrder)
  | deposit (account : AccountAddress) (amount : Nat)
  | withdraw (account : AccountAddress) (amount : Nat)
  /-- The rest of the node changes the shared balances. -/
  | setUnified (u : UnifiedState)

namespace Engine

/-- One operation. Results, errors included, are dropped; the state is kept. -/
def step : Op → Engine → Exec Engine
  | .placeOrder a r t, e => do return (← e.placeOrder a r t).2
  | .cancelOrder a m i, e => return (e.cancelOrder a m i).2
  | .cancelAllOrders a m, e => return (e.cancelAllOrders a m).2
  | .checkTriggers m p t, e => do return (← e.checkTriggers m p t).2
  | .cancelTrigger i, e => return { e with state := (e.state.removeTriggerOrder i).2 }
  | .updateLeverage a m l, e => do return (← e.updateLeverage a m l).2
  | .setMarginMode a m, e => return (e.setMarginMode a m).2
  | .processFunding t, e => do return (← e.processFunding t).2
  | .processLiquidations ord, e => do return (← e.processLiquidations ord).2
  | .deposit a n, e => e.onState (·.deposit a n)
  | .withdraw a n, e => do
    let (_, s) ← e.state.withdraw a n
    return { e with state := s }
  | .setUnified u, e => return { e with unifiedState := e.unifiedState.map fun _ => u }

/-- An engine with markets and nothing else. -/
inductive Fresh : Engine → Prop
  | new (config : EngineConfig) : Fresh (.new config)
  | withUnifiedState (config : EngineConfig) (u : UnifiedState) :
      Fresh (.withUnifiedState config u)
  | addMarket {e e' : Engine} (config : MarketConfig) (price : Decimal) (t : Timestamp) :
      Fresh e → e.addMarket config price t = .ok e' → Fresh e'

/-- What holds without markets and is kept by adding one holds of a fresh engine. -/
theorem Fresh.rule {P : EngineState → Prop} {e : Engine} (h : Fresh e) (hnew : P .new)
    (hadd : ∀ s config price t, P s → P (s.addMarket (.new config price t))) : P e.state := by
  induction h with
  | new config => exact hnew
  | withUnifiedState config u => exact hnew
  | addMarket config price t _ h ih =>
    obtain ⟨interval, -, h⟩ := bind_inv h
    obtain ⟨fundingTime, -, h⟩ := bind_inv h
    obtain rfl := pure_inv h
    exact hadd _ config price fundingTime ih

/-- The markets of a fresh engine are new ones. -/
theorem Fresh.markets_new {e : Engine} (h : Fresh e) : ∀ m market,
    e.state.getMarket m = some market → ∃ config price t, config.id = m ∧
      market = .new config price t := by
  refine h.rule (P := fun s => ∀ m market, s.getMarket m = some market →
    ∃ config price t, config.id = m ∧ market = .new config price t) (fun m market hm => ?_)
    fun s config price t ih m market hm => ?_
  · have hnone : (∅ : FinMap MarketId Market)[m]? = none := FinMap.get_empty m
    cases hnone.symm.trans hm
  · unfold EngineState.getMarket EngineState.addMarket at hm
    dsimp only at hm
    rw [FinMap.get_insert] at hm
    split at hm
    · rename_i hid
      exact ⟨config, price, t, hid, (Option.some.inj hm).symm⟩
    · exact ih m market hm

/-- Runs from a fresh engine whose steps all satisfy `ok`. -/
def ReachableWith (ok : Engine → Op → Prop) (e : Engine) : Prop :=
  ∃ e₀, Fresh e₀ ∧ Run.Reaches step ok e₀ e

/-- Reachable from a fresh engine. -/
def Reachable (e : Engine) : Prop := ReachableWith (fun _ _ => True) e

/-- The BTC market on a fresh engine with the default configuration. -/
def btcEngine (shared : Option UnifiedState) : Exec Engine :=
  (match shared with
    | none => Engine.new .default
    | some u => .withUnifiedState .default u).addMarket .btcPerp ⟨6500000000000, 8⟩ 0

/-- Operations on the fresh BTC engine. -/
def btcRun (shared : Option UnifiedState) (ops : List Op) : Exec Engine := do
  let e ← btcEngine shared
  ops.foldlM (fun e op => step op e) e

variable {shared : Option UnifiedState} {e : Engine}

theorem btcEngine_fresh (h : btcEngine shared = .ok e) : Fresh e := by
  cases shared with
  | none => exact .addMarket _ _ _ (.new .default) h
  | some u => exact .addMarket _ _ _ (.withUnifiedState .default u) h

theorem btcRun_reachableWith (ok : Engine → Op → Prop) {ops : List Op}
    (hok : ∀ op ∈ ops, ∀ e, ok e op) (h : btcRun shared ops = .ok e) : ReachableWith ok e := by
  obtain ⟨e₀, h0, h⟩ := bind_inv h
  exact ⟨e₀, btcEngine_fresh h0, .of_foldlM hok h⟩

theorem btcRun_reachable {ops : List Op} (h : btcRun shared ops = .ok e) : Reachable e :=
  btcRun_reachableWith _ (fun _ _ _ => trivial) h

/-- A limit order in market 0, on raw price and size. -/
def limitOrder (side : OrderSide) (tif : TimeInForce) (price size : Int) : OrderRequest where
  marketId := 0
  side := side
  price := ⟨price, 8⟩
  size := ⟨size, 8⟩
  orderType := .limit tif
  reduceOnly := false
  clientOrderId := none
  triggerPrice := none
  triggerDirection := none

/-- Induction over the runs from a fresh engine. -/
theorem ReachableWith.induction {ok : Engine → Op → Prop} {P : Engine → Prop}
    (h : ReachableWith ok e) (h0 : ∀ e, Fresh e → P e)
    (hstep : ∀ e op e', P e → ok e op → step op e = .ok e' → P e') : P e := by
  obtain ⟨e₀, hf, hr⟩ := h
  exact hr.invariant (h0 _ hf) hstep

/-! ### Submissions -/

/-- A condition on submissions: engine, account and request. -/
abbrev SubmitCond := Engine → AccountAddress → OrderRequest → Prop

/-- The mark price that `place_order` checks the triggers with. -/
def triggerPriceOf (e : Engine) (marketId : MarketId) : Decimal :=
  ((e.state.getMarket marketId).map (·.state.markPrice)).getD Decimal.default

/-- The submission and everything its trigger check submits meet `G`. -/
def PlaceMeets (G : SubmitCond) (checkMeets : Engine → MarketId → Decimal → Timestamp → Prop)
    (e : Engine) (account : AccountAddress) (request : OrderRequest) (timestamp : Timestamp) :
    Prop :=
  G e account request ∧
    ∀ order fills e', e.submitOrder account request timestamp = .ok (.ok (order, fills), e') →
      fills ≠ [] → checkMeets e' request.marketId (triggerPriceOf e' request.marketId) timestamp

/-- All placements of a list of activated orders meet a condition, each in the engine
its predecessors leave. -/
def ActivateMeets
    (place : Engine → AccountAddress → OrderRequest → Timestamp →
      Exec (Result (Order × List Fill)))
    (meets : Engine → AccountAddress → OrderRequest → Timestamp → Prop)
    (timestamp : Timestamp) : List Order → Engine → Prop
  | [], _ => True
  | o :: os, e => meets e o.owner (triggerRequest o) timestamp ∧
      ∀ r e', place e o.owner (triggerRequest o) timestamp = .ok (r, e') →
        ActivateMeets place meets timestamp os e'

/-- Everything a trigger check submits meets `G`. -/
def CheckMeets (G : SubmitCond) : Nat → Engine → MarketId → Decimal → Timestamp → Prop
  | 0, _, _, _, _ => True
  | fuel + 1, e, marketId, mark, timestamp =>
    ActivateMeets (placeOrderWith (checkTriggersFuel fuel)) (PlaceMeets G (CheckMeets G fuel))
      timestamp (e.takeTriggered marketId mark).1 (e.takeTriggered marketId mark).2

/-- Every submission an operation makes, directly or through triggers, meets `G`. -/
def SubmitsMeet (G : SubmitCond) (e : Engine) : Op → Prop
  | .placeOrder a r t => PlaceMeets G (CheckMeets G (triggerCount e.state + 1)) e a r t
  | .checkTriggers m p t => CheckMeets G (triggerCount e.state + 1) e m p t
  | _ => True

/-- A condition that every submission meets puts no condition on trigger checks. -/
theorem checkMeets_of_forall {G : SubmitCond} (hG : ∀ e a r, G e a r) (fuel : Nat) (e : Engine)
    (m : MarketId) (p : Decimal) (t : Timestamp) : CheckMeets G fuel e m p t := by
  have hactivate : ∀ (place : Engine → AccountAddress → OrderRequest → Timestamp →
      Exec (Result (Order × List Fill))) (meets : _ → _ → _ → _ → Prop) t os e,
      (∀ e a r t, meets e a r t) → ActivateMeets place meets t os e := by
    intro place meets t os
    induction os with
    | nil => exact fun _ _ => trivial
    | cons o os ih => exact fun e hm => ⟨hm _ _ _ _, fun _ e' _ => ih e' hm⟩
  induction fuel generalizing e m p t with
  | zero => exact trivial
  | succ fuel ih =>
    exact hactivate _ _ _ _ _ fun e a r t => ⟨hG e a r, fun _ _ _ _ _ => ih _ _ _ _⟩

/-- A condition that every submission meets puts no condition on operations. -/
theorem submitsMeet_of_forall {G : SubmitCond} (hG : ∀ e a r, G e a r) (e : Engine) (op : Op) :
    SubmitsMeet G e op := by
  cases op with
  | placeOrder a r t =>
    exact ⟨hG e a r, fun _ _ _ _ _ => checkMeets_of_forall hG _ _ _ _ _⟩
  | checkTriggers m p t => exact checkMeets_of_forall hG _ _ _ _ _
  | _ => trivial

section Induction

variable {G : SubmitCond} {P : Engine → Prop} {t : Timestamp}
  (hsubmit : ∀ e a r res e', P e → G e a r → e.submitOrder a r t = .ok (res, e') → P e')
  (htake : ∀ e m p, P e → P (e.takeTriggered m p).2)

include hsubmit in
/-- Placement, given that the trigger check preserves the property. -/
theorem placeOrderWith_induction
    {check : Engine → MarketId → Decimal → Timestamp → Exec (Triggered × Engine)}
    {K : Engine → MarketId → Decimal → Timestamp → Prop}
    (hcheck : ∀ e m p res e', P e → K e m p t → check e m p t = .ok (res, e') → P e')
    {e e' : Engine} {a : AccountAddress} {r : OrderRequest}
    {res : Except Error (Order × List Fill)} (h0 : P e) (hG : PlaceMeets G K e a r t)
    (h : placeOrderWith check e a r t = .ok (res, e')) : P e' := by
  obtain ⟨⟨res₁, e₁⟩, hs, h⟩ := bind_inv h
  have h1 : P e₁ := hsubmit _ _ _ _ _ h0 hG.1 hs
  cases res₁ with
  | error err =>
    obtain ⟨-, rfl⟩ := pair_inv h
    exact h1
  | ok of =>
    obtain ⟨order, fills⟩ := of
    simp only at h
    split at h
    · obtain ⟨-, rfl⟩ := pair_inv h
      exact h1
    · rename_i hne
      split at h
      · obtain ⟨-, rfl⟩ := pair_inv h
        exact h1
      · obtain ⟨⟨res₂, e₂⟩, hc, h⟩ := bind_inv h
        obtain ⟨-, rfl⟩ := pair_inv h
        exact hcheck _ _ _ _ _ h1 (hG.2 _ _ _ hs hne) hc

/-- Activation, given that each placement preserves the property. -/
theorem activate_induction
    {place : Engine → AccountAddress → OrderRequest → Timestamp →
      Exec (Result (Order × List Fill))}
    (meets : Engine → AccountAddress → OrderRequest → Timestamp → Prop)
    (hplace : ∀ e a r res e', P e → meets e a r t → place e a r t = .ok (res, e') → P e')
    {os : List Order} {e e' : Engine} {res : Triggered} (h0 : P e)
    (hG : ActivateMeets place meets t os e) (h : activate place t os e = .ok (res, e')) :
    P e' := by
  induction os generalizing e e' res with
  | nil =>
    obtain ⟨-, rfl⟩ := pair_inv h
    exact h0
  | cons o os ih =>
    obtain ⟨⟨r₁, e₁⟩, hp, h⟩ := bind_inv h
    obtain ⟨⟨r₂, e₂⟩, ha, h⟩ := bind_inv h
    have h2 : P e₂ := ih (hplace _ _ _ _ _ h0 hG.1 hp) (hG.2 _ _ hp) ha
    cases r₁ with
    | error err =>
      obtain ⟨-, rfl⟩ := pair_inv h
      exact h2
    | ok placed =>
      obtain ⟨-, rfl⟩ := pair_inv h
      exact h2

include hsubmit htake in
/-- **Trigger checks.** What submissions that meet `G` and taking triggers preserve
is preserved by a trigger check whose submissions meet `G`. -/
theorem checkTriggersFuel_induction {fuel : Nat} {e e' : Engine} {m : MarketId} {p : Decimal}
    {res : Triggered} (h0 : P e) (hG : CheckMeets G fuel e m p t)
    (h : checkTriggersFuel fuel e m p t = .ok (res, e')) : P e' := by
  induction fuel generalizing e e' m p res with
  | zero => exact absurd h (by simp [checkTriggersFuel])
  | succ fuel ih =>
    refine activate_induction (PlaceMeets G (CheckMeets G fuel)) ?_
      (htake _ _ _ h0) hG h
    intro e a r res e' h0 hG h
    exact placeOrderWith_induction hsubmit (fun _ _ _ _ _ h0 hG h => ih h0 hG h) h0 hG h

include hsubmit htake in
/-- **Placement.** -/
theorem placeOrder_induction {e e' : Engine} {a : AccountAddress} {r : OrderRequest}
    {res : Except Error (Order × List Fill)} (h0 : P e)
    (hG : SubmitsMeet G e (.placeOrder a r t)) (h : e.placeOrder a r t = .ok (res, e')) :
    P e' :=
  placeOrderWith_induction hsubmit
    (fun _ _ _ _ _ h0 hG h => checkTriggersFuel_induction hsubmit htake h0 hG h) h0 hG h

end Induction

section Implication

variable {G G' : SubmitCond} {P : Engine → Prop} {t : Timestamp}
  (hsubmit : ∀ e a r res e', P e → e.submitOrder a r t = .ok (res, e') → P e')
  (htake : ∀ e m p, P e → P (e.takeTriggered m p).2)
  (hG : ∀ e a r, P e → G e a r → G' e a r)

include hsubmit hG in
theorem placeMeets_imp {checkMeets checkMeets' : Engine → MarketId → Decimal → Timestamp → Prop}
    (hcheck : ∀ e m p, P e → checkMeets e m p t → checkMeets' e m p t) {e : Engine}
    {a : AccountAddress} {r : OrderRequest} (h0 : P e) (h : PlaceMeets G checkMeets e a r t) :
    PlaceMeets G' checkMeets' e a r t := by
  refine ⟨hG e a r h0 h.1, fun order fills e' hs hne => ?_⟩
  exact hcheck _ _ _ (hsubmit _ _ _ _ _ h0 hs) (h.2 order fills e' hs hne)

include hsubmit htake hG in
/-- **Trigger checks.** A condition that implies another wherever a submission can be made
implies it on a trigger check. -/
theorem checkMeets_imp (fuel : Nat) {e : Engine} (m : MarketId) (p : Decimal) (h0 : P e)
    (h : CheckMeets G fuel e m p t) : CheckMeets G' fuel e m p t := by
  induction fuel generalizing e m p with
  | zero => trivial
  | succ fuel ih =>
    have hactivate : ∀ (os : List Order) (e : Engine), P e →
        ActivateMeets (placeOrderWith (checkTriggersFuel fuel)) (PlaceMeets G (CheckMeets G fuel))
            t os e →
          ActivateMeets (placeOrderWith (checkTriggersFuel fuel))
            (PlaceMeets G' (CheckMeets G' fuel)) t os e := by
      intro os
      induction os with
      | nil => exact fun _ _ _ => trivial
      | cons o os iho =>
        intro e h0 h
        refine ⟨placeMeets_imp hsubmit hG (fun _ m p h0 h => ih m p h0 h) h0 h.1,
          fun r e' hp => iho e' ?_ (h.2 r e' hp)⟩
        refine placeOrderWith_induction (G := fun _ _ _ => True) (P := P)
          (K := CheckMeets (fun _ _ _ => True) fuel)
          (fun _ _ _ _ _ h0 _ h => hsubmit _ _ _ _ _ h0 h)
          (fun _ _ _ _ _ h0 hm h => checkTriggersFuel_induction (G := fun _ _ _ => True)
            (fun _ _ _ _ _ h0 _ h => hsubmit _ _ _ _ _ h0 h) htake h0 hm h) h0 ?_ hp
        exact ⟨trivial, fun _ _ _ _ _ => checkMeets_of_forall (fun _ _ _ => trivial) _ _ _ _ _⟩
    exact hactivate _ _ (htake e m p h0) h

end Implication

end Engine

end Hypercore
