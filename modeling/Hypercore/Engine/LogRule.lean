import Hypercore.Engine.EventLog
import Hypercore.Engine.Ledger
/-!
# Hypercore.Engine.LogRule

What an engine and its log have in common.

A relation between the engine before some calls, the log of the calls and the engine
after them holds of every run as soon as it holds of each event with what the event
does, of the changes that are not logged, and is closed under going on (`LogRule`).
The recursion between placing orders and checking triggers is gone through once
(`LogRule.step`).
-/

namespace Hypercore

open Exec Int128

namespace Engine

open EngineState MatchingEngine

/-- An event that by itself changes no account, position or market. -/
def TradeEvent.IsNote : TradeEvent → Prop
  | .filled .. | .liquidated .. => False
  | _ => True

/-- A relation between two engines and what is logged from the one to the other. -/
abbrev LogRel := Engine → TradeLog → Engine → Prop

/-- What every event, every change without one, and every sequence keeps. -/
structure LogRule (R : LogRel) : Prop where
  trans : ∀ {e e₁ e' l l'}, R e l e₁ → R e₁ l' e' → R e (l ++ l') e'
  books : ∀ {e e'}, SameLedger e e' → R e [] e'
  note : ∀ {e ev}, TradeEvent.IsNote ev → R e [ev] e
  openAccount : ∀ e a m, R e [] (e.openAccount a m)
  fill : ∀ {e e' order best size f config}, best.owner ≠ order.owner →
    priceFill e.state config (mkFill order best size) = .ok f → e.applyFill f = .ok e' →
    R e [.filled f e'.state] e'
  funding : ∀ {e e' t rates}, e.processFunding t = .ok (rates, e') → R e [] e'
  liquidation : ∀ {e e' ord a m market p size price}, e.state.getMarket m = some market →
    e.state.getPosition a m = some p →
    e.liquidation.processLiquidation p market = .ok (some (size, price)) →
    applyLiquidation ord e a m size price = .ok e' →
      R e [.liquidated a m size e.state e'.state] e'
  external : ∀ {e e'} op, External op → step op e = .ok e' → R e [] e'

section Rule

variable {R : LogRel} {e e₁ e' : Engine} {log : TradeLog} {t : Timestamp}

theorem LogRule.refl (hR : LogRule R) (e : Engine) : R e [] e :=
  hR.books ⟨rfl, rfl, rfl, rfl, rfl, rfl, rfl⟩

/-- A change without an event, before what is logged. -/
theorem LogRule.after (hR : LogRule R) (h : R e [] e₁) (h' : R e₁ log e') : R e log e' :=
  hR.trans h h'

/-- A change without an event, after what is logged. -/
theorem LogRule.before (hR : LogRule R) (h : R e log e₁) (h' : R e₁ [] e') : R e log e' := by
  have happend := hR.trans h h'
  rwa [List.append_nil] at happend

theorem LogRule.orders {s : EngineState} (hR : LogRule R) (h : OrdersOnly e.state s) :
    R e [] { e with state := s } := by
  obtain ⟨_, _, _, rfl⟩ := h
  exact hR.books ⟨rfl, rfl, rfl, rfl, rfl, rfl, rfl⟩

theorem LogRule.triggers {s : EngineState} (hR : LogRule R) (h : TriggersOnly e.state s) :
    R e [] { e with state := s } := by
  obtain ⟨_, _, _, rfl⟩ := h
  exact hR.books ⟨rfl, rfl, rfl, rfl, rfl, rfl, rfl⟩

/-! ### Orders -/

theorem LogRule.fills {config : MarketConfig} {fills fills' : List Fill} (hR : LogRule R)
    (hmade : ∀ f ∈ fills, ∃ order best size, best.owner ≠ order.owner ∧ f = mkFill order best size)
    (h : settleFillsLogged config fills e = .ok (log, fills', e')) : R e log e' := by
  induction fills generalizing e log fills' with
  | nil =>
    obtain ⟨rfl, -, rfl⟩ := logged_inj h
    exact hR.refl _
  | cons fill fills ih =>
    obtain ⟨f, hf, h⟩ := bind_inv h
    obtain ⟨e₂, h1, h⟩ := bind_inv h
    obtain ⟨⟨log₂, rest, e₃⟩, h2, h⟩ := bind_inv h
    obtain ⟨rfl, -, rfl⟩ := logged_inj h
    obtain ⟨order, best, size, hown, rfl⟩ := hmade fill (.head _)
    exact hR.trans (hR.fill hown hf h1) (ih (fun f hf => hmade f (.tail _ hf)) h2)

variable {res : Except Error (Order × List Fill)}

theorem LogRule.execute {market : Market} {order : Order} (hR : LogRule R)
    (h : e.executeOrderLogged market order = .ok (log, res, e')) : R e log e' := by
  unfold executeOrderLogged at h
  split at h
  · obtain ⟨rfl, -, rfl⟩ := logged_inj h
    exact hR.refl _
  · obtain ⟨⟨r, book⟩, hproc, h⟩ := bind_inv h
    have hbook : R e [] { e with state := e.state.setOrderbook order.marketId book } :=
      hR.books ⟨rfl, rfl, rfl, rfl, rfl, rfl, rfl⟩
    cases r with
    | error err =>
      obtain ⟨rfl, -, rfl⟩ := logged_inj h
      exact hbook
    | ok matched =>
      obtain ⟨updated, fills⟩ := matched
      obtain ⟨⟨log₁, fills₁, e₂⟩, hset, h⟩ := bind_inv h
      obtain ⟨rfl, -, rfl⟩ := logged_inj h
      obtain ⟨⟨log₂, fills₂, e₃⟩, hfills, hset⟩ := bind_inv hset
      have hmade : ∀ f ∈ fills, ∃ order best size,
          best.owner ≠ order.owner ∧ f = mkFill order best size := by
        intro f hf
        obtain ⟨best, size, hown, rfl⟩ := processOrder_fillOf hproc f hf
        exact ⟨order, best, size, hown, rfl⟩
      have hsync := hR.after hbook (hR.orders (syncMakers_only _ updated.marketId fills))
      have hsettled := hR.after hsync (hR.fills hmade hfills)
      dsimp only at hset
      split at hset
      · obtain ⟨e₄, hadd, hset⟩ := bind_inv hset
        obtain ⟨rfl, -, rfl⟩ := logged_inj hset
        obtain ⟨s, hs, rfl⟩ := onState_eq_ok hadd
        exact hR.before hsettled (hR.orders (addOrder_only hs))
      · obtain ⟨rfl, -, rfl⟩ := logged_inj hset
        exact hsettled

theorem LogRule.submit {a : AccountAddress} {q : OrderRequest} (hR : LogRule R)
    (h : e.submitOrderLogged a q t = .ok (log, res, e')) : R e log e' := by
  obtain ⟨⟨r, e₂⟩, hprep, h⟩ := bind_inv h
  rcases prepareOrder_cases hprep with ⟨rfl, err, rfl⟩ | ⟨rfl, market, -, -, hcheck⟩
  · obtain ⟨rfl, -, rfl⟩ := logged_inj h
    exact hR.refl _
  · have hopen := hR.openAccount e a q.marketId
    rcases hcheck with ⟨err, -, rfl⟩ | ⟨-, rfl⟩
    · obtain ⟨rfl, -, rfl⟩ := logged_inj h
      exact hopen
    · obtain ⟨⟨id, s⟩, hid, h⟩ := bind_inv h
      obtain ⟨rfl, rfl⟩ := takeOrderId_spec hid
      have hnext : R e [] { e.openAccount a q.marketId with
          state := { (e.openAccount a q.marketId).state with
            nextOrderId := (e.openAccount a q.marketId).state.nextOrderId + 1 } } :=
        hR.after hopen (hR.books ⟨rfl, rfl, rfl, rfl, rfl, rfl, rfl⟩)
      dsimp only at h
      split at h
      · obtain ⟨rfl, -, rfl⟩ := logged_inj h
        have hadded := hR.after hnext (hR.triggers (addTriggerOrder_only
          (Order.new (e.openAccount a q.marketId).state.nextOrderId a q t)))
        split
        · exact hR.after hadded (hR.note trivial)
        · exact hadded
      · exact hR.after hnext (hR.execute h)

/-! ### Checks -/

theorem LogRule.place
    {check : Engine → MarketId → Decimal → Timestamp → Exec (TradeLog × Triggered × Engine)}
    (hR : LogRule R) (hcheck : ∀ e m p log res e', check e m p t = .ok (log, res, e') → R e log e')
    {a : AccountAddress} {q : OrderRequest}
    (h : placeOrderWithLogged check e a q t = .ok (log, res, e')) : R e log e' := by
  obtain ⟨⟨log₁, r, e₂⟩, h1, h⟩ := bind_inv h
  have hsubmit := hR.submit h1
  have hdone : ∀ {r' : Except Error (Order × List Fill)},
      (pure (log₁, r', e₂) : Exec _) = .ok (log, res, e') → R e log e' := by
    intro r' h
    obtain ⟨rfl, -, rfl⟩ := logged_inj h
    exact hsubmit
  cases r with
  | error err => exact hdone h
  | ok placed =>
    dsimp only at h
    split at h
    · exact hdone h
    · split at h
      · exact hdone h
      · obtain ⟨⟨log₂, r₂, e₃⟩, h2, h⟩ := bind_inv h
        obtain ⟨rfl, -, rfl⟩ := logged_inj h
        exact hR.trans hsubmit (hcheck _ _ _ _ _ _ h2)

theorem LogRule.activate
    {place : Engine → AccountAddress → OrderRequest → Timestamp →
      Exec (TradeLog × Result (Order × List Fill))}
    (hR : LogRule R)
    (hplace : ∀ e a q log res e', place e a q t = .ok (log, res, e') → R e log e')
    {os : List Order} {res : Triggered}
    (h : activateLogged place t os e = .ok (log, res, e')) : R e log e' := by
  induction os generalizing e log res with
  | nil =>
    obtain ⟨rfl, -, rfl⟩ := logged_inj h
    exact hR.refl _
  | cons o os ih =>
    obtain ⟨⟨log₁, r, e₂⟩, h1, h⟩ := bind_inv h
    obtain ⟨⟨log₂, rest, e₃⟩, h2, h⟩ := bind_inv h
    have hres : log = .submitted o e.state :: (log₁ ++ log₂) ∧ e' = e₃ := by
      cases r with
      | ok placed =>
        obtain ⟨rfl, -, rfl⟩ := logged_inj h
        exact ⟨rfl, rfl⟩
      | error err =>
        obtain ⟨rfl, -, rfl⟩ := logged_inj h
        exact ⟨rfl, rfl⟩
    obtain ⟨rfl, rfl⟩ := hres
    have hnote : R e [.submitted o e.state] e := hR.note trivial
    exact hR.trans hnote (hR.trans (hplace _ _ _ _ _ _ h1) (ih h2))

theorem LogRule.check {fuel : Nat} {m : MarketId} {p : Decimal} {res : Triggered}
    (hR : LogRule R) (h : checkTriggersFuelLogged fuel e m p t = .ok (log, res, e')) :
    R e log e' := by
  induction fuel generalizing e e' m p log res with
  | zero => cases h
  | succ fuel ih =>
    obtain ⟨⟨log₁, r, e₂⟩, h1, h⟩ := bind_inv h
    obtain ⟨rfl, -, rfl⟩ := logged_inj h
    have htaken : ∀ os : List Order, R e (os.map (.taken · p)) e := by
      intro os
      induction os with
      | nil => exact hR.refl _
      | cons o os ih =>
        have hnote : R e [.taken o p] e := hR.note trivial
        exact hR.trans hnote ih
    obtain ⟨s, hs, heq⟩ := takeTriggered_only e m p
    have htake : R e [] (e.takeTriggered m p).2 := by
      rw [heq]
      exact hR.triggers hs
    have hplaced := hR.activate (fun _ _ _ _ _ _ h =>
      hR.place (fun _ _ _ _ _ _ h => ih h) h) h1
    exact hR.trans (htaken _) (hR.after htake hplaced)

/-! ### Operations and runs -/

theorem LogRule.liquidations {ord : HashOrder} {l : Liquidations} (hR : LogRule R)
    (h : e.processLiquidationsLogged ord = .ok (log, l, e')) : R e log e' := by
  obtain ⟨pairs, -, h⟩ := bind_inv h
  refine foldlM_induction (P := fun x : TradeLog × Liquidations × Engine => R e x.1 x.2.2) h
    (hR.refl _) ?_
  intro pair _ x y hx hs
  obtain ⟨log₁, l₁, e₂⟩ := x
  obtain ⟨log₂, l₂, e₃⟩ := y
  unfold liquidateLogged at hs
  dsimp only at hs
  split at hs
  · rename_i market p hm hp
    obtain ⟨r, hleg, hs⟩ := bind_inv hs
    cases r with
    | none =>
      obtain ⟨rfl, -, rfl⟩ := logged_inj hs
      exact hx
    | some leg =>
      obtain ⟨e₄, hliq, hs⟩ := bind_inv hs
      obtain ⟨rfl, -, rfl⟩ := logged_inj hs
      exact hR.trans hx (hR.liquidation hm hp hleg hliq)
  · obtain ⟨rfl, -, rfl⟩ := logged_inj hs
    exact hx

theorem LogRule.cancelRecord (hR : LogRule R) (e : Engine) (m : MarketId) (id : OrderId)
    (o : Order) : R e [] (e.cancelRecord m id o).2 := by
  obtain ⟨_, _, _, hs⟩ := removeOrder_only e.state m id
  have hstate : (e.cancelRecord m id o).2.state = (e.state.removeOrder m id).2 := rfl
  exact hR.books ⟨by rw [hstate, hs], by rw [hstate, hs], by rw [hstate, hs], by rw [hstate, hs],
    rfl, rfl, rfl⟩

theorem LogRule.cancelRecords (hR : LogRule R) (m : MarketId) (os : List Order) (e : Engine) :
    R e [] (cancelRecords m os e).2 := by
  induction os generalizing e with
  | nil => exact hR.refl e
  | cons o os ih =>
    have hfirst := hR.cancelRecord e m o.id o
    unfold Engine.cancelRecords
    split
    · rename_i heq
      rwa [heq] at hfirst
    · rename_i heq
      rw [heq] at hfirst
      exact hR.after hfirst (ih _)

/-- The operations that log nothing. -/
theorem LogRule.quiet {op : Op} (hR : LogRule R) (hs : silent op = true)
    (h : step op e = .ok e') : R e [] e' := by
  cases op with
  | placeOrder a q t => cases hs
  | checkTriggers m p t => cases hs
  | cancelTrigger id => cases hs
  | processLiquidations ord => cases hs
  | cancelOrder a m id =>
    obtain rfl := pure_inv h
    unfold cancelOrder
    split
    · exact hR.refl _
    · split
      · exact hR.refl _
      · exact hR.cancelRecord e m id _
  | cancelAllOrders a m =>
    obtain rfl := pure_inv h
    exact hR.cancelRecords m _ e
  | updateLeverage a m l =>
    obtain ⟨⟨r, e₂⟩, h1, h⟩ := bind_inv h
    obtain rfl := pure_inv h
    obtain ⟨_, rfl⟩ := updateLeverage_only h1
    exact hR.books ⟨rfl, rfl, rfl, rfl, rfl, rfl, rfl⟩
  | setMarginMode a mode =>
    obtain rfl := pure_inv h
    unfold setMarginMode
    split
    · exact hR.refl _
    · exact hR.books ⟨rfl, rfl, rfl, rfl, rfl, rfl, rfl⟩
  | processFunding t =>
    obtain ⟨⟨rates, e₂⟩, h1, h⟩ := bind_inv h
    obtain rfl := pure_inv h
    exact hR.funding h1
  | deposit a n => exact hR.external (.deposit a n) trivial h
  | withdraw a n => exact hR.external (.withdraw a n) trivial h
  | setUnified u => exact hR.external (.setUnified u) trivial h

/-- **Step rule.** One operation keeps what its events and its other changes keep. -/
theorem LogRule.step {op : Op} (hR : LogRule R) (h : stepLogged op e = .ok (log, e')) :
    R e log e' := by
  have hquiet : silent op = true → R e log e' := by
    intro hs
    rw [stepLogged_of_silent hs] at h
    obtain ⟨e₂, h1, h⟩ := bind_inv h
    obtain ⟨rfl, rfl⟩ := pair_inv h
    exact hR.quiet hs h1
  cases op with
  | placeOrder a q t =>
    obtain ⟨⟨log₁, r, e₂⟩, h1, h⟩ := bind_inv h
    obtain ⟨rfl, rfl⟩ := pair_inv h
    exact hR.place (fun _ _ _ _ _ _ h => hR.check h) h1
  | checkTriggers m p t =>
    obtain ⟨⟨log₁, r, e₂⟩, h1, h⟩ := bind_inv h
    obtain ⟨rfl, rfl⟩ := pair_inv h
    exact hR.check h1
  | processLiquidations ord =>
    obtain ⟨⟨log₁, r, e₂⟩, h1, h⟩ := bind_inv h
    obtain ⟨rfl, rfl⟩ := pair_inv h
    exact hR.liquidations h1
  | cancelTrigger id =>
    obtain ⟨e₂, h1, h⟩ := bind_inv h
    obtain ⟨rfl, rfl⟩ := pair_inv h
    obtain rfl := pure_inv h1
    have hnote : R e [.cancelled id] e := hR.note trivial
    exact hR.before hnote (hR.triggers (removeTriggerOrder_only id))
  | _ => exact hquiet rfl

/-- **Run rule.** -/
theorem LogRule.run (hR : LogRule R) (h : RunLog e log e') : R e log e' :=
  h.invariant (P := fun s => R e s.1 s.2) (hR.refl e) fun s op s' hs _ hstep => by
    obtain ⟨⟨l, e₂⟩, h1, hstep⟩ := bind_inv hstep
    obtain rfl := pure_inv hstep
    exact hR.trans hs (hR.step h1)

end Rule

end Engine

end Hypercore
