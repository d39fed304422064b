import Hypercore.Engine.Run
/-!
# Hypercore.Engine.EventLog

The engine with a record of what happens inside a call.

A call returns the fills of its own order; the fills of trigger orders that it
activates, and the order in which fills, checks and liquidations happen, can be
seen from outside only by their effect. The logged functions repeat the engine's,
each next to the function it follows, and record one event for every fill applied,
trigger order stored, taken or submitted, and liquidation applied. `step_erase`
says that a logged step is the step, so every statement about logs is one about
the engine's own runs.
-/

namespace Hypercore

open Exec Int128

/-- Something that happens inside a call. -/
inductive TradeEvent
  /-- A fill was priced and applied. -/
  | filled (fill : Fill) (after : EngineState)
  /-- A trigger order was stored. -/
  | stored (order : Order)
  /-- A check with this mark price took a trigger order out of the store. -/
  | taken (order : Order) (markPrice : Decimal)
  /-- `place_order` is called for a trigger order that was taken. -/
  | submitted (order : Order) (before : EngineState)
  /-- A trigger order was removed by its id. -/
  | cancelled (orderId : OrderId)
  /-- Part or all of a position was closed by liquidation. -/
  | liquidated (account : AccountAddress) (marketId : MarketId) (size : Decimal)
    (before after : EngineState)

abbrev TradeLog := List TradeEvent

namespace Engine

/-! ### Logged calls -/

/-- `settleFills`, logged. -/
def settleFillsLogged (config : MarketConfig) : List Fill → Engine →
    Exec (TradeLog × List Fill × Engine)
  | [], e => return ([], [], e)
  | fill :: fills, e => do
    let fill ← priceFill e.state config fill
    let e₁ ← e.applyFill fill
    let (log, fills, e₂) ← settleFillsLogged config fills e₁
    return (.filled fill e₁.state :: log, fill :: fills, e₂)

/-- `settleOrder`, logged. -/
def settleOrderLogged (e : Engine) (market : Market) (updated : Order) (fills : List Fill) :
    Exec (TradeLog × List Fill × Engine) := do
  let e := { e with state := syncMakers e.state updated.marketId fills }
  let (log, fills, e) ← settleFillsLogged market.config fills e
  if !updated.isFilled && updated.shouldRest then
    let e ← e.onState (·.addOrder updated)
    return (log, fills, e)
  else return (log, fills, e)

/-- `executeOrder`, logged. -/
def executeOrderLogged (e : Engine) (market : Market) (order : Order) :
    Exec (TradeLog × Result (Order × List Fill)) :=
  match e.state.getOrderbook order.marketId with
  | none => return ([], .error (.marketNotFound order.marketId), e)
  | some book => do
    let (r, book) ← MatchingEngine.processOrder order book
    let e := { e with state := e.state.setOrderbook order.marketId book }
    match r with
    | .error err => return ([], .error err, e)
    | .ok (updated, fills) =>
      let (log, fills, e) ← e.settleOrderLogged market updated fills
      return (log, .ok (updated, fills), e)

/-- `submitOrder`, logged. A trigger order without a direction is accepted and not stored. -/
def submitOrderLogged (e : Engine) (account : AccountAddress) (request : OrderRequest)
    (timestamp : Timestamp) : Exec (TradeLog × Result (Order × List Fill)) := do
  let (r, e) ← e.prepareOrder account request
  match r with
  | .error err => return ([], .error err, e)
  | .ok market =>
    let (orderId, s) ← e.state.takeOrderId
    let e := { e with state := s }
    let order := Order.new orderId account request timestamp
    if order.triggerPrice.isSome then
      return (if order.triggerDirection.isSome then [.stored order] else [],
        .ok (order, []), { e with state := e.state.addTriggerOrder order })
    else e.executeOrderLogged market order

/-- `placeOrderWith`, logged. -/
def placeOrderWithLogged
    (check : Engine → MarketId → Decimal → Timestamp → Exec (TradeLog × Triggered × Engine))
    (e : Engine) (account : AccountAddress) (request : OrderRequest) (timestamp : Timestamp) :
    Exec (TradeLog × Result (Order × List Fill)) := do
  let (log, r, e) ← e.submitOrderLogged account request timestamp
  match r with
  | .error err => return (log, .error err, e)
  | .ok (order, fills) =>
    if fills = [] then return (log, .ok (order, fills), e)
    else
      let markPrice :=
        ((e.state.getMarket request.marketId).map (·.state.markPrice)).getD Decimal.default
      if markPrice.isZero then return (log, .ok (order, fills), e)
      else
        let (log', _, e) ← check e request.marketId markPrice timestamp
        return (log ++ log', .ok (order, fills), e)

/-- `activate`, logged. -/
def activateLogged
    (place : Engine → AccountAddress → OrderRequest → Timestamp →
      Exec (TradeLog × Result (Order × List Fill)))
    (timestamp : Timestamp) : List Order → Engine → Exec (TradeLog × Triggered × Engine)
  | [], e => return ([], [], e)
  | o :: os, e => do
    let (log, r, e₁) ← place e o.owner (triggerRequest o) timestamp
    let (log', rest, e₂) ← activateLogged place timestamp os e₁
    match r with
    | .ok placed => return (.submitted o e.state :: (log ++ log'), placed :: rest, e₂)
    | .error _ => return (.submitted o e.state :: (log ++ log'), rest, e₂)

/-- `checkTriggersFuel`, logged. -/
def checkTriggersFuelLogged : Nat → Engine → MarketId → Decimal → Timestamp →
    Exec (TradeLog × Triggered × Engine)
  | 0, _, _, _, _ => .error .diverge
  | fuel + 1, e, marketId, newMarkPrice, timestamp => do
    let (triggered, e) := e.takeTriggered marketId newMarkPrice
    let (log, r, e) ← activateLogged (placeOrderWithLogged (checkTriggersFuelLogged fuel))
      timestamp triggered e
    return (triggered.map (.taken · newMarkPrice) ++ log, r, e)

/-- `checkTriggers`, logged. -/
def checkTriggersLogged (e : Engine) (marketId : MarketId) (newMarkPrice : Decimal)
    (timestamp : Timestamp) : Exec (TradeLog × Triggered × Engine) :=
  checkTriggersFuelLogged (triggerCount e.state + 1) e marketId newMarkPrice timestamp

/-- `placeOrder`, logged. -/
def placeOrderLogged (e : Engine) (account : AccountAddress) (request : OrderRequest)
    (timestamp : Timestamp) : Exec (TradeLog × Result (Order × List Fill)) :=
  placeOrderWithLogged (checkTriggersFuelLogged (triggerCount e.state + 1)) e account request
    timestamp

/-- `liquidate`, logged. -/
def liquidateLogged (ord : HashOrder) (acc : TradeLog × Liquidations × Engine)
    (pair : AccountAddress × MarketId) : Exec (TradeLog × Liquidations × Engine) :=
  let (log, done, e) := acc
  match e.state.getMarket pair.2, e.state.getPosition pair.1 pair.2 with
  | some market, some position => do
    match ← e.liquidation.processLiquidation position market with
    | none => return acc
    | some (liqSize, liqPrice) =>
      let e' ← applyLiquidation ord e pair.1 pair.2 liqSize liqPrice
      return (log ++ [.liquidated pair.1 pair.2 liqSize e.state e'.state],
        done ++ [(pair.1, pair.2, liqSize)], e')
  | _, _ => return acc

/-- `processLiquidations`, logged. -/
def processLiquidationsLogged (ord : HashOrder) (e : Engine) :
    Exec (TradeLog × Liquidations × Engine) := do
  let underwater ← findUnderwaterAccounts ord e
  underwater.foldlM (liquidateLogged ord) ([], [], e)

/-- One operation, logged. -/
def stepLogged : Op → Engine → Exec (TradeLog × Engine)
  | .placeOrder a r t, e => do
    let (log, _, e) ← e.placeOrderLogged a r t
    return (log, e)
  | .checkTriggers m p t, e => do
    let (log, _, e) ← e.checkTriggersLogged m p t
    return (log, e)
  | .processLiquidations ord, e => do
    let (log, _, e) ← e.processLiquidationsLogged ord
    return (log, e)
  | .cancelTrigger i, e => do
    let e ← step (.cancelTrigger i) e
    return ([.cancelled i], e)
  | op, e => do
    let e ← step op e
    return ([], e)

/-- The operations that log nothing. -/
def silent : Op → Bool
  | .placeOrder .. | .checkTriggers .. | .processLiquidations .. | .cancelTrigger .. => false
  | _ => true

theorem stepLogged_of_silent {op : Op} (hs : silent op = true) (e : Engine) :
    stepLogged op e = (step op e >>= fun e => pure ([], e)) := by
  cases op with
  | placeOrder a r t => cases hs
  | checkTriggers m p t => cases hs
  | processLiquidations ord => cases hs
  | cancelTrigger i => cases hs
  | _ => rfl

/-- One operation, on an engine with what happened to it so far. -/
def stepOnLog (op : Op) (s : TradeLog × Engine) : Exec (TradeLog × Engine) := do
  let (log, e) ← stepLogged op s.2
  return (s.1 ++ log, e)

/-- `log` is what happened on some run from `e₀` to `e`. -/
abbrev RunLog (e₀ : Engine) (log : TradeLog) (e : Engine) : Prop :=
  Run.Reaches stepOnLog (fun _ _ => True) ([], e₀) (log, e)

/-! ### The log changes nothing -/

section Erase

variable {α β γ δ : Type} {e e' : Engine}

/-- Dropping the log of a sequence drops the logs of its halves. -/
theorem snd_bind {x : Exec (α × β)} {y : Exec β} {f : α × β → Exec (γ × δ)} {g : β → Exec δ}
    (hx : Prod.snd <$> x = y) (hf : ∀ a b, Prod.snd <$> f (a, b) = g b) :
    Prod.snd <$> (x >>= f) = y >>= g := by
  subst hx
  cases x with
  | error h => rfl
  | ok p => exact hf p.1 p.2

/-- A step that is not logged. -/
theorem map_bind_same {x : Exec α} {f : α → Exec (γ × δ)} {g : α → Exec δ}
    (hf : ∀ a, Prod.snd <$> f a = g a) : Prod.snd <$> (x >>= f) = x >>= g := by
  cases x with
  | error h => rfl
  | ok a => exact hf a

/-- A call without a log. -/
theorem map_snd_of_silent (x : Exec α) (b : β) :
    Prod.snd <$> (x >>= fun a => pure (b, a)) = x := by
  cases x <;> rfl

/-- What a logged call returned. -/
theorem logged_inj {l l' : TradeLog} {a a' : α}
    (h : (pure (l, a, e) : Exec (TradeLog × α × Engine)) = .ok (l', a', e')) :
    l = l' ∧ a = a' ∧ e = e' := by
  simpa using pure_inv h

theorem settleFills_erase (config : MarketConfig) (fills : List Fill) (e : Engine) :
    Prod.snd <$> settleFillsLogged config fills e = settleFills config fills e := by
  induction fills generalizing e with
  | nil => rfl
  | cons fill fills ih =>
    exact map_bind_same fun fill => map_bind_same fun e₁ => snd_bind (ih e₁) fun _ _ => rfl

theorem settleOrder_erase (e : Engine) (market : Market) (updated : Order) (fills : List Fill) :
    Prod.snd <$> e.settleOrderLogged market updated fills = e.settleOrder market updated fills := by
  refine snd_bind (settleFills_erase _ _ _) fun log p => ?_
  dsimp only
  split
  · exact map_bind_same fun _ => rfl
  · rfl

theorem executeOrder_erase (e : Engine) (market : Market) (order : Order) :
    Prod.snd <$> e.executeOrderLogged market order = e.executeOrder market order := by
  cases hb : e.state.getOrderbook order.marketId with
  | none =>
    simp only [executeOrderLogged, executeOrder, hb]
    rfl
  | some book =>
    simp only [executeOrderLogged, executeOrder, hb]
    refine map_bind_same fun p => ?_
    obtain ⟨r, book⟩ := p
    cases r with
    | error err => rfl
    | ok r => exact snd_bind (settleOrder_erase _ _ _ _) fun _ _ => rfl

theorem submitOrder_erase (e : Engine) (a : AccountAddress) (q : OrderRequest) (t : Timestamp) :
    Prod.snd <$> e.submitOrderLogged a q t = e.submitOrder a q t := by
  refine map_bind_same fun p => ?_
  obtain ⟨r, e₁⟩ := p
  cases r with
  | error err => rfl
  | ok market =>
    refine map_bind_same fun p => ?_
    dsimp only
    split
    · rfl
    · exact executeOrder_erase _ _ _

theorem placeOrderWith_erase
    {checkLogged : Engine → MarketId → Decimal → Timestamp → Exec (TradeLog × Triggered × Engine)}
    {check : Engine → MarketId → Decimal → Timestamp → Exec (Triggered × Engine)}
    (hcheck : ∀ e m p t, Prod.snd <$> checkLogged e m p t = check e m p t) (e : Engine)
    (a : AccountAddress) (q : OrderRequest) (t : Timestamp) :
    Prod.snd <$> placeOrderWithLogged checkLogged e a q t = placeOrderWith check e a q t := by
  refine snd_bind (submitOrder_erase e a q t) fun log p => ?_
  obtain ⟨r, e₁⟩ := p
  cases r with
  | error err => rfl
  | ok of =>
    dsimp only
    split
    · rfl
    · split
      · rfl
      · exact snd_bind (hcheck _ _ _ _) fun _ _ => rfl

theorem activate_erase
    {placeLogged : Engine → AccountAddress → OrderRequest → Timestamp →
      Exec (TradeLog × Result (Order × List Fill))}
    {place : Engine → AccountAddress → OrderRequest → Timestamp →
      Exec (Result (Order × List Fill))}
    (hplace : ∀ e a q t, Prod.snd <$> placeLogged e a q t = place e a q t) (t : Timestamp)
    (os : List Order) (e : Engine) :
    Prod.snd <$> activateLogged placeLogged t os e = activate place t os e := by
  induction os generalizing e with
  | nil => rfl
  | cons o os ih =>
    refine snd_bind (hplace _ _ _ _) fun log p => ?_
    obtain ⟨r, e₁⟩ := p
    refine snd_bind (ih e₁) fun log' p => ?_
    cases r <;> rfl

theorem checkTriggersFuel_erase (fuel : Nat) (e : Engine) (m : MarketId) (p : Decimal)
    (t : Timestamp) :
    Prod.snd <$> checkTriggersFuelLogged fuel e m p t = checkTriggersFuel fuel e m p t := by
  induction fuel generalizing e m p t with
  | zero => rfl
  | succ fuel ih =>
    have h := activate_erase (placeOrderWith_erase ih) t (e.takeTriggered m p).1
      (e.takeTriggered m p).2
    unfold checkTriggersFuel checkTriggersFuelLogged
    dsimp only
    rw [← h]
    cases activateLogged (placeOrderWithLogged (checkTriggersFuelLogged fuel)) t
      (e.takeTriggered m p).1 (e.takeTriggered m p).2 with
    | error h => rfl
    | ok r => rfl

theorem liquidate_erase (ord : HashOrder) (acc : TradeLog × Liquidations × Engine)
    (pair : AccountAddress × MarketId) :
    Prod.snd <$> liquidateLogged ord acc pair = liquidate ord acc.2 pair := by
  obtain ⟨log, done, e⟩ := acc
  cases hm : e.state.getMarket pair.2 with
  | none =>
    simp only [liquidateLogged, liquidate, hm]
    rfl
  | some market =>
    cases hp : e.state.getPosition pair.1 pair.2 with
    | none =>
      simp only [liquidateLogged, liquidate, hm, hp]
      rfl
    | some position =>
      simp only [liquidateLogged, liquidate, hm, hp]
      refine map_bind_same fun r => ?_
      cases r with
      | none => rfl
      | some q => exact map_bind_same fun _ => rfl

theorem processLiquidations_erase (ord : HashOrder) (e : Engine) :
    Prod.snd <$> e.processLiquidationsLogged ord = e.processLiquidations ord := by
  refine map_bind_same fun underwater => ?_
  have hfold : ∀ (l : List (AccountAddress × MarketId)) (acc : TradeLog × Liquidations × Engine),
      Prod.snd <$> l.foldlM (liquidateLogged ord) acc = l.foldlM (liquidate ord) acc.2 := by
    intro l
    induction l with
    | nil => exact fun _ => rfl
    | cons pair l ih =>
      intro acc
      rw [List.foldlM_cons, List.foldlM_cons]
      exact snd_bind (liquidate_erase ord acc pair) fun log p => ih (log, p)
  exact hfold underwater ([], [], e)

/-- **The log changes nothing.** -/
theorem step_erase (op : Op) (e : Engine) : Prod.snd <$> stepLogged op e = step op e := by
  cases op with
  | placeOrder a r t =>
    exact snd_bind (placeOrderWith_erase (checkTriggersFuel_erase _) e a r t) fun _ _ => rfl
  | checkTriggers m p t => exact snd_bind (checkTriggersFuel_erase _ e m p t) fun _ _ => rfl
  | processLiquidations ord => exact snd_bind (processLiquidations_erase ord e) fun _ _ => rfl
  | cancelTrigger i => exact map_snd_of_silent _ _
  | _ => exact (congrArg _ (stepLogged_of_silent rfl e)).trans (map_snd_of_silent _ _)

theorem step_of_logged {op : Op} {log : TradeLog} (h : stepLogged op e = .ok (log, e')) :
    step op e = .ok e' := by
  rw [← step_erase, h]
  rfl

theorem logged_of_step {op : Op} (h : step op e = .ok e') :
    ∃ log, stepLogged op e = .ok (log, e') := by
  rw [← step_erase, map_eq_ok] at h
  obtain ⟨⟨log, e₁⟩, h, rfl⟩ := h
  exact ⟨log, h⟩

/-- A run with its log is a run, and every run has its log. -/
theorem runLog_iff {e₀ : Engine} :
    (∃ log, RunLog e₀ log e) ↔ Run.Reaches step (fun _ _ => True) e₀ e := by
  constructor
  · rintro ⟨log, h⟩
    exact h.invariant (P := fun s => Run.Reaches step (fun _ _ => True) e₀ s.2) .refl
      fun s op s' hr _ hs => by
        obtain ⟨⟨l, e⟩, hl, hs⟩ := bind_inv hs
        obtain rfl := pure_inv hs
        exact hr.tail op trivial (step_of_logged hl)
  · intro h
    induction h with
    | refl => exact ⟨[], .refl⟩
    | tail op _ _ hs ih =>
      obtain ⟨log, ih⟩ := ih
      obtain ⟨l, hl⟩ := logged_of_step hs
      exact ⟨log ++ l, ih.tail op trivial (bind_eq_ok.mpr ⟨(l, _), hl, rfl⟩)⟩

end Erase

/-- Operations on the fresh BTC engine, logged. -/
def btcLog (ops : List Op) : Exec (TradeLog × Engine) := do
  let e ← btcEngine none
  ops.foldlM (fun s op => stepOnLog op s) ([], e)

theorem btcLog_runLog {ops : List Op} {log : TradeLog} {e : Engine}
    (h : btcLog ops = .ok (log, e)) : ∃ e₀, Fresh e₀ ∧ RunLog e₀ log e := by
  obtain ⟨e₀, h0, h⟩ := bind_inv h
  exact ⟨e₀, btcEngine_fresh h0, .of_foldlM (fun _ _ _ => trivial) h⟩

end Engine

end Hypercore
