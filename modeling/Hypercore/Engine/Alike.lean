import Hypercore.Engine.Stores
import Hypercore.Engine.TriggerStore
import Hypercore.Lib.Sim
/-!
# Hypercore.Engine.Alike

Engine states that no operation can tell apart.

`Alike s s'` compares what operations read. Histories are only kept for queries and are
not compared. The account index, the leverage settings and the trigger maps are compared
through their lookups, because an empty entry reads as a missing one; everything else is
the same map.

Every function of the engine takes alike states to alike states and returns the same
result (`Alike.perform`), one function after the other in the order of the model.
-/

namespace Hypercore

open Exec Int128

namespace EngineState

/-- The two states give every operation the same answers. -/
structure Alike (s s' : EngineState) : Prop where
  accounts : s'.accounts = s.accounts
  positions : s'.positions = s.positions
  markets : s'.markets = s.markets
  orderbooks : s'.orderbooks = s.orderbooks
  orders : s'.orders = s.orders
  insuranceFund : s'.insuranceFund = s.insuranceFund
  nextOrderId : s'.nextOrderId = s.nextOrderId
  marginMode : s'.marginMode = s.marginMode
  triggerOrderIndex : s'.triggerOrderIndex = s.triggerOrderIndex
  getLeverage : ∀ a m, s'.getLeverage a m = s.getLeverage a m
  orderIds : ∀ a m, s'.orderIds a m = s.orderIds a m
  triggersAt : ∀ d m p, s'.triggersAt d m p = s.triggersAt d m p

namespace Alike

variable {s s' : EngineState} {a : AccountAddress} {m : MarketId} {id : OrderId}

/-! ### Reading -/

section Reading

variable (h : Alike s s')

include h

theorem getAccount (a : AccountAddress) : s'.getAccount a = s.getAccount a := by
  unfold EngineState.getAccount
  rw [h.accounts]

theorem getBalance (a : AccountAddress) : s'.getBalance a = s.getBalance a := by
  unfold EngineState.getBalance
  rw [h.accounts]

theorem getPosition (a : AccountAddress) (m : MarketId) :
    s'.getPosition a m = s.getPosition a m := by
  unfold EngineState.getPosition
  rw [h.positions]

theorem getAllPositions (a : AccountAddress) : s'.getAllPositions a = s.getAllPositions a := by
  unfold EngineState.getAllPositions
  rw [h.positions]

theorem getMarket (m : MarketId) : s'.getMarket m = s.getMarket m := by
  unfold EngineState.getMarket
  rw [h.markets]

theorem getMarginMode (a : AccountAddress) : s'.getMarginMode a = s.getMarginMode a := by
  unfold EngineState.getMarginMode
  rw [h.marginMode]

theorem getOrderbook (m : MarketId) : s'.getOrderbook m = s.getOrderbook m := by
  unfold EngineState.getOrderbook
  rw [h.orderbooks]

theorem getOrder (m : MarketId) (id : OrderId) : s'.getOrder m id = s.getOrder m id := by
  unfold EngineState.getOrder
  rw [h.orders]

theorem getOrdersByAccount (a : AccountAddress) (m : MarketId) :
    s'.getOrdersByAccount a m = s.getOrdersByAccount a m := by
  unfold EngineState.getOrdersByAccount
  rw [h.orderIds, funext (h.getOrder m)]

theorem sizeOf (a : AccountAddress) (m : MarketId) :
    Engine.sizeOf s' a m = Engine.sizeOf s a m := by
  unfold Engine.sizeOf
  rw [h.getPosition]

end Reading

/-! ### Accounts, positions, markets -/

section Writing

variable (h : Alike s s')

include h

theorem getOrCreateAccount : Alike (s.getOrCreateAccount a) (s'.getOrCreateAccount a) := by
  unfold EngineState.getOrCreateAccount
  rw [h.accounts]
  cases s.accounts[a]? with
  | none => exact { h with accounts := rfl }
  | some acc => exact h

theorem modifyAccount {f : AccountState → Exec AccountState} :
    Sim Alike (s.modifyAccount a f) (s'.modifyAccount a f) := by
  unfold EngineState.modifyAccount
  rw [h.accounts]
  cases s.accounts[a]? with
  | none => exact .ok h
  | some acc => exact .bind_same _ fun _ => .ok { h with accounts := rfl }

theorem deposit {n : Nat} : Sim Alike (s.deposit a n) (s'.deposit a n) :=
  h.getOrCreateAccount.modifyAccount

theorem withdraw {n : Nat} : Sim (fun x y => x.1 = y.1 ∧ Alike x.2 y.2) (s.withdraw a n)
    (s'.withdraw a n) := by
  unfold EngineState.withdraw
  rw [h.accounts]
  cases s.accounts[a]? with
  | none => exact .ok ⟨rfl, h⟩
  | some acc =>
    dsimp only
    split
    · exact .bind_same _ fun _ => .ok ⟨rfl, { h with accounts := rfl }⟩
    · exact .ok ⟨rfl, h⟩

theorem setPosition {p : Position} : Alike (s.setPosition a m p) (s'.setPosition a m p) := by
  unfold EngineState.setPosition
  rw [h.positions]
  exact { h with positions := rfl }

theorem getOrCreatePosition :
    Alike (s.getOrCreatePosition a m) (s'.getOrCreatePosition a m) := by
  unfold EngineState.getOrCreatePosition
  rw [h.getPosition]
  cases s.getPosition a m with
  | none => exact h.setPosition
  | some p => exact h

theorem modifyPosition {f : Position → Exec Position} :
    Sim Alike (s.modifyPosition a m f) (s'.modifyPosition a m f) := by
  unfold EngineState.modifyPosition
  rw [h.getPosition]
  cases s.getPosition a m with
  | none => exact .ok h
  | some p => exact .bind_same _ fun _ => .ok h.setPosition

theorem modifyMarket {f : MarketState → Exec MarketState} :
    Sim Alike (s.modifyMarket m f) (s'.modifyMarket m f) := by
  unfold EngineState.modifyMarket
  rw [h.markets]
  cases s.markets[m]? with
  | none => exact .ok h
  | some market => exact .bind_same _ fun _ => .ok { h with markets := rfl }

theorem updateMarkPrice {price : Decimal} :
    Sim Alike (s.updateMarkPrice m price) (s'.updateMarkPrice m price) := h.modifyMarket

theorem setLeverage {l : UInt8} : Alike (s.setLeverage a m l) (s'.setLeverage a m l) := by
  have hset : ∀ (s : EngineState) b k, (s.setLeverage a m l).getLeverage b k =
      if a = b ∧ m = k then l else s.getLeverage b k := by
    intro s b k
    unfold EngineState.getLeverage EngineState.setLeverage
    simp only [FinMap.get_insert]
    by_cases hab : a = b
    · subst hab
      simp only [if_pos, Option.bind_some, FinMap.get_insert, true_and]
      split
      · rfl
      · cases s.leverage[a]? <;> simp
    · simp [hab]
  refine { h with getLeverage := fun b k => ?_ }
  rw [hset, hset, h.getLeverage]

theorem setMarginMode {mode : MarginMode} :
    Alike (s.setMarginMode a mode) (s'.setMarginMode a mode) := by
  unfold EngineState.setMarginMode
  rw [h.marginMode]
  exact { h with marginMode := rfl }

theorem addToInsuranceFund {x : Int} :
    Sim Alike (s.addToInsuranceFund x) (s'.addToInsuranceFund x) := by
  unfold EngineState.addToInsuranceFund
  rw [h.insuranceFund]
  exact .bind_same _ fun _ => .ok { h with insuranceFund := rfl }

theorem useInsuranceFund {x : Int} :
    Sim (fun x y => x.1 = y.1 ∧ Alike x.2 y.2) (s.useInsuranceFund x)
      (s'.useInsuranceFund x) := by
  unfold EngineState.useInsuranceFund
  rw [h.insuranceFund]
  split
  · exact .bind_same _ fun _ => .ok ⟨rfl, { h with insuranceFund := rfl }⟩
  · exact .ok ⟨rfl, h⟩

theorem takeOrderId :
    Sim (fun x y => x.1 = y.1 ∧ Alike x.2 y.2) s.takeOrderId s'.takeOrderId := by
  unfold EngineState.takeOrderId
  rw [h.nextOrderId]
  exact .bind_same _ fun _ => .ok ⟨rfl, { h with nextOrderId := rfl }⟩

/-! ### Orders -/

theorem setOrderbook {b : OrderBook} : Alike (s.setOrderbook m b) (s'.setOrderbook m b) := by
  unfold EngineState.setOrderbook
  rw [h.orderbooks]
  exact { h with orderbooks := rfl }

variable {o : Order} {fill : Fill}

theorem putRecord : Alike (s.putRecord m o) (s'.putRecord m o) := by
  unfold EngineState.putRecord
  rw [h.orders]
  cases s.orders[m]? with
  | none => exact h
  | some os => exact { h with orders := rfl }

theorem eraseRecord : Alike (s.eraseRecord m id) (s'.eraseRecord m id) := by
  unfold EngineState.eraseRecord
  rw [h.orders]
  cases s.orders[m]? with
  | none => exact h
  | some os => exact { h with orders := rfl }

theorem insertInBook : Sim Alike (s.insertInBook m o) (s'.insertInBook m o) := by
  unfold EngineState.insertInBook
  rw [h.orderbooks]
  cases s.orderbooks[m]? with
  | none => exact .ok h
  | some b => exact .bind_same _ fun _ => .ok h.setOrderbook

theorem removeFromBook : Alike (s.removeFromBook m id) (s'.removeFromBook m id) := by
  unfold EngineState.removeFromBook
  rw [h.orderbooks]
  cases s.orderbooks[m]? with
  | none => exact h
  | some b => exact h.setOrderbook

theorem setOrderIds {ids : List OrderId} :
    Alike (s.setOrderIds a m ids) (s'.setOrderIds a m ids) := by
  refine { h with orderIds := fun b k => ?_ }
  rw [orderIds_setOrderIds, orderIds_setOrderIds, h.orderIds]

theorem removeFromIndex : Alike (s.removeFromIndex a m id) (s'.removeFromIndex a m id) := by
  have hsame : ∀ s : EngineState, ∃ accountOrders,
      s.removeFromIndex a m id = { s with accountOrders } := by
    intro s
    unfold EngineState.removeFromIndex
    split
    · exact ⟨_, rfl⟩
    · exact ⟨_, rfl⟩
  have hids : ∀ b k, (s'.removeFromIndex a m id).orderIds b k =
      (s.removeFromIndex a m id).orderIds b k := by
    intro b k
    rw [orderIds_removeFromIndex, orderIds_removeFromIndex, h.orderIds]
  obtain ⟨x, hx⟩ := hsame s
  obtain ⟨x', hx'⟩ := hsame s'
  rw [hx, hx'] at hids ⊢
  exact { h with orderIds := hids }

theorem addOrder : Sim Alike (s.addOrder o) (s'.addOrder o) := by
  unfold EngineState.addOrder
  refine h.putRecord.insertInBook.bind fun t t' ht => .ok ?_
  rw [ht.orderIds]
  exact ht.setOrderIds

theorem removeOrder : (s'.removeOrder m id).1 = (s.removeOrder m id).1 ∧
    Alike (s.removeOrder m id).2 (s'.removeOrder m id).2 := by
  unfold EngineState.removeOrder
  rw [h.getOrder]
  cases s.getOrder m id with
  | none => exact ⟨rfl, h⟩
  | some o => exact ⟨rfl, h.eraseRecord.removeFromBook.removeFromIndex⟩

theorem updateOrderRemaining {r : Decimal} :
    Alike (s.updateOrderRemaining m id r) (s'.updateOrderRemaining m id r) := by
  unfold EngineState.updateOrderRemaining
  rw [h.orders]
  cases s.orders[m]? with
  | none => exact h
  | some os =>
    dsimp only
    cases os[id]? with
    | none => exact h
    | some o => exact { h with orders := rfl }

/-! ### Trigger orders -/

/-- Replacing the trigger orders of one market and direction by the same ones. -/
theorem putTriggers {d : TriggerDirection} {x y : TriggerMap}
    (hsame : ∀ p : Int, (y[p]?).getD [] = (x[p]?).getD []) :
    Alike (s.setTriggers d ((s.triggers d).insert m x))
      (s'.setTriggers d ((s'.triggers d).insert m y)) := by
  have hat : ∀ d' k p, (s'.setTriggers d ((s'.triggers d).insert m y)).triggersAt d' k p =
      (s.setTriggers d ((s.triggers d).insert m x)).triggersAt d' k p := by
    intro d' k p
    rw [triggersAt_put, triggersAt_put, hsame, h.triggersAt]
  cases d <;> exact { h with triggersAt := hat }

theorem triggersAt_getD (d : TriggerDirection) (m : MarketId) (p : Int) :
    ((((s'.triggers d)[m]?).getD ∅)[p]?).getD [] =
      ((((s.triggers d)[m]?).getD ∅)[p]?).getD [] := by
  have hview : ∀ t : EngineState,
      ((((t.triggers d)[m]?).getD ∅)[p]?).getD [] = t.triggersAt d m p := by
    intro t
    unfold EngineState.triggersAt
    cases (t.triggers d)[m]? <;> simp
  rw [hview, hview, h.triggersAt]

theorem addTriggerOrder : Alike (s.addTriggerOrder o) (s'.addTriggerOrder o) := by
  unfold EngineState.addTriggerOrder
  cases o.triggerPrice with
  | none => exact h
  | some price =>
    cases o.triggerDirection with
    | none => exact h
    | some d =>
      have hput := h.putTriggers (m := o.marketId) (d := d)
        (x := (((s.triggers d)[o.marketId]?).getD ∅).insert price.value
          (((((s.triggers d)[o.marketId]?).getD ∅)[price.value]?).getD [] ++ [o]))
        (y := (((s'.triggers d)[o.marketId]?).getD ∅).insert price.value
          (((((s'.triggers d)[o.marketId]?).getD ∅)[price.value]?).getD [] ++ [o])) <| by
          intro p
          rw [FinMap.get_insert, FinMap.get_insert, h.triggersAt_getD]
          split
          · rfl
          · exact h.triggersAt_getD d o.marketId p
      have hindex : ∀ x x', (s'.setTriggers d x').triggerOrderIndex.insert o.id
          (o.marketId, d, price.value) = (s.setTriggers d x).triggerOrderIndex.insert o.id
            (o.marketId, d, price.value) := by
        intro x x'
        rw [triggerOrderIndex_setTriggers, triggerOrderIndex_setTriggers, h.triggerOrderIndex]
      exact { hput with triggerOrderIndex := hindex _ _ }

theorem removeTriggerOrder : (s'.removeTriggerOrder id).1 = (s.removeTriggerOrder id).1 ∧
    Alike (s.removeTriggerOrder id).2 (s'.removeTriggerOrder id).2 := by
  obtain ⟨x, hx⟩ := s.removeTriggerOrder_view id
  obtain ⟨x', hx'⟩ := s'.removeTriggerOrder_view id
  refine ⟨?_, ?_⟩
  · rw [hx.1, hx'.1, h.triggerOrderIndex, funext fun d => funext fun m => funext (h.triggersAt d m)]
  · have hat := fun d m p => (hx'.2.2 d m p).trans ((by
      rw [h.triggerOrderIndex, h.triggersAt] : _ = _).trans (hx.2.2 d m p).symm)
    rw [hx.2.1, hx'.2.1] at hat ⊢
    exact { h with
      triggerOrderIndex := by dsimp only; rw [h.triggerOrderIndex]
      triggersAt := hat }

theorem getTriggeredOrders (d : TriggerDirection) (m : MarketId) (mark : Decimal) :
    (s'.getTriggeredOrders d m mark).1 = (s.getTriggeredOrders d m mark).1 ∧
      Alike (s.getTriggeredOrders d m mark).2 (s'.getTriggeredOrders d m mark).2 := by
  obtain ⟨x, hx⟩ := s.getTriggeredOrders_view d m mark
  obtain ⟨x', hx'⟩ := s'.getTriggeredOrders_view d m mark
  have hsame : (s'.getTriggeredOrders d m mark).1 = (s.getTriggeredOrders d m mark).1 := by
    rw [hx.1, hx'.1]
    refine FinMap.flatMap_toList_congr (f := fun p l => if reached d p mark.value then l else [])
      fun p => ?_
    have hat := h.triggersAt_getD d m p
    have hnil : ∀ x : Option (List Order), (x.map fun _ => ([] : List Order)).getD [] = [] := by
      rintro ⟨⟩ <;> rfl
    cases hr : reached d p mark.value
    · simp only [Bool.false_eq_true, if_false, hnil]
    · simpa using hat
  refine ⟨hsame, ?_⟩
  have hat := fun d' k p => (hx'.2.2 d' k p).trans ((by
    rw [h.triggersAt] : _ = _).trans (hx.2.2 d' k p).symm)
  rw [hx'.2.1, hx.2.1] at hat ⊢
  exact { h with
    triggerOrderIndex := by dsimp only; rw [hsame, h.triggerOrderIndex]
    triggersAt := hat }

theorem triggerOrders (d : TriggerDirection) (m : MarketId) :
    s'.triggerOrders d m = s.triggerOrders d m := by
  unfold EngineState.triggerOrders
  refine FinMap.flatMap_toList_congr (f := fun _ l => l) fun p => ?_
  have hat := h.triggersAt_getD d m p
  simpa using hat

theorem cancelTriggerOrdersForPosition :
    Alike (s.cancelTriggerOrdersForPosition a m) (s'.cancelTriggerOrdersForPosition a m) := by
  unfold EngineState.cancelTriggerOrdersForPosition
  rw [h.triggerOrders, h.triggerOrders]
  dsimp only
  generalize (s.triggerOrders .above m ++ s.triggerOrders .below m).filter
    (fun o => decide (o.owner = a)) = os
  induction os generalizing s s' with
  | nil => exact h
  | cons o os ih => exact ih h.removeTriggerOrder.2

theorem triggerCount : Engine.triggerCount s' = Engine.triggerCount s := by
  -- as many as there are orders in the lists
  have hcount : ∀ (t : EngineState) d, ((t.triggers d).toList.map fun p =>
      (p.2.toList.map fun q => q.2.length).sum).sum =
        ((t.triggers d).toList.flatMap fun p => p.2.toList.flatMap (·.2)).length := by
    intro t d
    simp only [List.length_flatMap]
  have horders : ∀ d, ((s'.triggers d).toList.flatMap fun p => p.2.toList.flatMap (·.2)) =
      (s.triggers d).toList.flatMap fun p => p.2.toList.flatMap (·.2) := by
    intro d
    refine FinMap.flatMap_toList_congr (f := fun (_ : MarketId) (t : TriggerMap) =>
      t.toList.flatMap (·.2)) fun k => ?_
    have hget : ∀ t : EngineState, (((t.triggers d)[k]?).map fun t : TriggerMap =>
        t.toList.flatMap (·.2)).getD [] = t.triggerOrders d k := by
      intro t
      unfold EngineState.triggerOrders
      cases (t.triggers d)[k]? <;> simp
    rw [hget, hget, h.triggerOrders]
  have habove := hcount s' .above
  have hbelow := hcount s' .below
  rw [horders, ← hcount] at habove hbelow
  exact congrArg₂ (· + ·) habove hbelow

/-! ### Histories -/

theorem recordFill : Alike (s.recordFill fill) (s'.recordFill fill) := { h with }

theorem recordFundingPayment {p : FundingPayment} :
    Alike (s.recordFundingPayment p) (s'.recordFundingPayment p) := { h with }

theorem recordMarketFunding {t : Timestamp} {rate : Int} :
    Alike (s.recordMarketFunding m t rate) (s'.recordMarketFunding m t rate) := { h with }

/-! ### Fills -/

theorem fillPositions :
    Sim Alike (Engine.fillPositions s fill) (Engine.fillPositions s' fill) := by
  unfold Engine.fillPositions
  rw [h.sizeOf, h.sizeOf]
  refine h.modifyPosition.bind fun t t' ht => ht.modifyPosition.bind fun u u' hu => ?_
  rw [hu.sizeOf, hu.sizeOf]
  exact .bind_same _ fun _ => .bind_same _ fun _ => .bind_same _ fun _ => .bind_same _ fun _ =>
    .bind_same _ fun _ => .bind_same _ fun _ => hu.modifyMarket

theorem cancelTriggersIfFlat :
    Alike (Engine.cancelTriggersIfFlat s a m) (Engine.cancelTriggersIfFlat s' a m) := by
  unfold Engine.cancelTriggersIfFlat
  rw [h.getPosition]
  cases s.getPosition a m with
  | none => exact h
  | some p =>
    dsimp only
    split
    · exact h.cancelTriggerOrdersForPosition
    · exact h

theorem fillMarket :
    Sim Alike (Engine.fillMarket s fill) (Engine.fillMarket s' fill) :=
  h.modifyMarket.bind fun _ _ ht => ht.updateMarkPrice

theorem fillRecord :
    Alike (Engine.fillRecord s fill) (Engine.fillRecord s' fill) :=
  h.recordFill.cancelTriggersIfFlat.cancelTriggersIfFlat

theorem previewPnl {isBuy : Bool} {current : Int} :
    Engine.previewPnl s' a fill isBuy current = Engine.previewPnl s a fill isBuy current := by
  unfold Engine.previewPnl
  rw [h.getPosition]

theorem priceFill {config : MarketConfig} :
    Engine.priceFill s' config fill = Engine.priceFill s config fill := by
  unfold Engine.priceFill
  rw [h.previewPnl, h.previewPnl]

/-- The makers of some fills, in the orders map and the account index. -/
theorem syncMakers {fills : List Fill} :
    Alike (Engine.syncMakers s m fills) (Engine.syncMakers s' m fills) := by
  unfold Engine.syncMakers
  rw [h.getOrderbook]
  cases s.getOrderbook m with
  | none => exact h
  | some book =>
    have hremove : ∀ (ids : List OrderId) {t t' : EngineState}, Alike t t' →
        Alike (ids.foldl (fun s id => (s.removeOrder m id).2) t)
          (ids.foldl (fun s id => (s.removeOrder m id).2) t') := by
      intro ids
      induction ids with
      | nil => exact fun h => h
      | cons id ids ih => exact fun h => ih h.removeOrder.2
    have hupdate : ∀ (ps : List (OrderId × Decimal)) {t t' : EngineState}, Alike t t' →
        Alike (ps.foldl (fun s p => s.updateOrderRemaining m p.1 p.2) t)
          (ps.foldl (fun s p => s.updateOrderRemaining m p.1 p.2) t') := by
      intro ps
      induction ps with
      | nil => exact fun h => h
      | cons p ps ih => exact fun h => ih h.updateOrderRemaining
    exact hupdate _ (hremove _ h)

end Writing

end Alike

end EngineState

namespace Engine

open EngineState

/-- Engines that differ in nothing that operations read. -/
def Alike (e e' : Engine) : Prop := ∃ s', e' = { e with state := s' } ∧ e.state.Alike s'

/-- The same result, and engines that are alike. -/
def AlikeWith {α : Type} (x x' : α × Engine) : Prop := x.1 = x'.1 ∧ x.2.Alike x'.2

theorem Alike.of_state {e : Engine} {s s' : EngineState} (h : s.Alike s') :
    ({ e with state := s } : Engine).Alike { e with state := s' } := ⟨s', rfl, h⟩

namespace Alike

variable {e e' : Engine} (h : e.Alike e') {a : AccountAddress} {m : MarketId} {t : Timestamp}

include h

theorem onState {f : EngineState → Exec EngineState}
    (hf : ∀ s s' : EngineState, s.Alike s' → Sim EngineState.Alike (f s) (f s')) :
    Sim Alike (e.onState f) (e'.onState f) := by
  obtain ⟨s', rfl, hs⟩ := h
  exact (hf _ _ hs).bind fun _ _ ht => .ok (.of_state ht)

/-! ### Orders -/

theorem applyFill {fill : Fill} : Sim Alike (e.applyFill fill) (e'.applyFill fill) := by
  obtain ⟨s', rfl, hs⟩ := h
  refine hs.fillPositions.bind fun t t' ht => ?_
  refine ht.modifyAccount.bind fun u u' hu => hu.modifyAccount.bind fun v v' hv => ?_
  refine .bind_same _ fun unified => hv.fillMarket.bind fun w w' hw => .ok ?_
  exact ⟨_, rfl, hw.fillRecord⟩

theorem settleFills {config : MarketConfig} (fills : List Fill) :
    Sim AlikeWith (Engine.settleFills config fills e) (Engine.settleFills config fills e') := by
  induction fills generalizing e e' with
  | nil => exact .ok ⟨rfl, h⟩
  | cons fill fills ih =>
    unfold Engine.settleFills
    obtain ⟨s', rfl, hs⟩ := id h
    rw [hs.priceFill]
    refine .bind_same _ fun priced => (h.applyFill).bind fun e₁ e₁' h₁ => ?_
    refine (ih h₁).bind fun x x' hx => ?_
    obtain ⟨rest, e₂⟩ := x
    obtain ⟨rest', e₂'⟩ := x'
    obtain ⟨rfl, h₂⟩ := hx
    exact .ok ⟨rfl, h₂⟩

variable {market : Market} {request : OrderRequest} {ord : HashOrder}

theorem settleOrder {updated : Order} {fills : List Fill} :
    Sim AlikeWith (e.settleOrder market updated fills) (e'.settleOrder market updated fills) := by
  obtain ⟨s', rfl, hs⟩ := h
  have hmakers : ({ e with state := Engine.syncMakers e.state updated.marketId fills } :
      Engine).Alike { e with state := Engine.syncMakers s' updated.marketId fills } :=
    .of_state hs.syncMakers
  refine (hmakers.settleFills fills).bind fun x x' hx => ?_
  obtain ⟨rest, e₂⟩ := x
  obtain ⟨rest', e₂'⟩ := x'
  obtain ⟨rfl, h₂⟩ := hx
  dsimp only
  split
  · exact (h₂.onState fun _ _ hs => hs.addOrder).bind fun _ _ h₃ => .ok ⟨rfl, h₃⟩
  · exact .ok ⟨rfl, h₂⟩

theorem executeOrder {order : Order} :
    Sim AlikeWith (e.executeOrder market order) (e'.executeOrder market order) := by
  obtain ⟨s', rfl, hs⟩ := h
  unfold Engine.executeOrder
  dsimp only
  rw [hs.getOrderbook]
  cases e.state.getOrderbook order.marketId with
  | none => exact .ok ⟨rfl, s', rfl, hs⟩
  | some book =>
    refine .bind_same _ fun p => ?_
    obtain ⟨r, book⟩ := p
    cases r with
    | error err => exact .ok ⟨rfl, .of_state hs.setOrderbook⟩
    | ok r =>
      obtain ⟨updated, fills⟩ := r
      have hbook : ({ e with state := e.state.setOrderbook order.marketId book } :
          Engine).Alike { e with state := s'.setOrderbook order.marketId book } :=
        .of_state hs.setOrderbook
      refine hbook.settleOrder.bind fun x x' hx => ?_
      obtain ⟨fills', e₂⟩ := x
      obtain ⟨_, e₂'⟩ := x'
      obtain ⟨rfl, h₂⟩ := hx
      exact .ok ⟨rfl, h₂⟩

theorem syncAccount : (e.syncAccount a).Alike (e'.syncAccount a) := by
  obtain ⟨s', rfl, hs⟩ := h
  have hopen := hs.getOrCreateAccount (a := a)
  unfold Engine.syncAccount
  dsimp only
  cases e.unifiedState with
  | none => exact ⟨_, rfl, hopen⟩
  | some u =>
    dsimp only
    rw [hopen.accounts]
    cases (e.state.getOrCreateAccount a).accounts[a]? with
    | none => exact ⟨_, rfl, hopen⟩
    | some acc => exact ⟨_, rfl, { hopen with accounts := rfl }⟩

theorem openAccount : (e.openAccount a m).Alike (e'.openAccount a m) := by
  obtain ⟨s', he, hs⟩ := h.syncAccount (a := a)
  unfold Engine.openAccount
  rw [he]
  exact .of_state hs.getOrCreatePosition

theorem checkAccount :
    e'.checkAccount a request market = e.checkAccount a request market := by
  obtain ⟨s', rfl, hs⟩ := h
  unfold Engine.checkAccount
  dsimp only
  rw [hs.getAccount, hs.getPosition, hs.getLeverage]

theorem prepareOrder :
    Sim AlikeWith (e.prepareOrder a request) (e'.prepareOrder a request) := by
  have hmarket : e'.state.getMarket request.marketId = e.state.getMarket request.marketId := by
    obtain ⟨s', rfl, hs⟩ := h
    exact hs.getMarket _
  unfold Engine.prepareOrder
  rw [hmarket]
  cases e.state.getMarket request.marketId with
  | none => exact .ok ⟨rfl, h⟩
  | some market =>
    dsimp only
    split
    · exact .ok ⟨rfl, h⟩
    · refine .bind_same _ fun r => ?_
      cases r with
      | error err => exact .ok ⟨rfl, h⟩
      | ok u =>
        have hopen := h.openAccount (a := a) (m := request.marketId)
        dsimp only
        rw [hopen.checkAccount]
        refine .bind_same _ fun r => ?_
        cases r with
        | error err => exact .ok ⟨rfl, hopen⟩
        | ok u => exact .ok ⟨rfl, hopen⟩

theorem submitOrder (request : OrderRequest) :
    Sim AlikeWith (e.submitOrder a request t) (e'.submitOrder a request t) := by
  refine h.prepareOrder.bind fun x x' hx => ?_
  obtain ⟨r, e₁⟩ := x
  obtain ⟨_, e₁'⟩ := x'
  obtain ⟨rfl, s₁', rfl, hs₁⟩ := hx
  cases r with
  | error err => exact .ok ⟨rfl, s₁', rfl, hs₁⟩
  | ok market =>
    refine hs₁.takeOrderId.bind fun y y' hy => ?_
    obtain ⟨orderId, s₂⟩ := y
    obtain ⟨_, s₂'⟩ := y'
    obtain ⟨rfl, hs₂⟩ := hy
    dsimp only
    split
    · exact .ok ⟨rfl, .of_state hs₂.addTriggerOrder⟩
    · exact (Alike.of_state hs₂).executeOrder

/-! ### Placement and triggers -/

/-- A trigger check that takes alike engines to alike engines. -/
abbrev Checks (check : Engine → MarketId → Decimal → Timestamp → Exec (Triggered × Engine)) :
    Prop :=
  ∀ {e e' : Engine} (m : MarketId) (p : Decimal) (t : Timestamp), e.Alike e' →
    Sim AlikeWith (check e m p t) (check e' m p t)

theorem placeOrderWith {check : Engine → MarketId → Decimal → Timestamp → Exec (Triggered × Engine)}
    (hcheck : Checks check) :
    Sim AlikeWith (Engine.placeOrderWith check e a request t)
      (Engine.placeOrderWith check e' a request t) := by
  refine (h.submitOrder request).bind fun x x' hx => ?_
  obtain ⟨r, e₁⟩ := x
  obtain ⟨_, e₁'⟩ := x'
  obtain ⟨rfl, h₁⟩ := hx
  cases r with
  | error err => exact .ok ⟨rfl, h₁⟩
  | ok placed =>
    obtain ⟨order, fills⟩ := placed
    have hmark : e₁'.state.getMarket request.marketId = e₁.state.getMarket request.marketId := by
      obtain ⟨s', rfl, hs⟩ := h₁
      exact hs.getMarket _
    dsimp only
    rw [hmark]
    split
    · exact .ok ⟨rfl, h₁⟩
    · split
      · exact .ok ⟨rfl, h₁⟩
      · refine (hcheck _ _ _ h₁).bind fun y y' hy => ?_
        obtain ⟨_, e₂⟩ := y
        obtain ⟨_, e₂'⟩ := y'
        exact .ok ⟨rfl, hy.2⟩

theorem takeTriggered {p : Decimal} : AlikeWith (e.takeTriggered m p) (e'.takeTriggered m p) := by
  obtain ⟨s', rfl, hs⟩ := h
  obtain ⟨habove, h₁⟩ := hs.getTriggeredOrders .above m p
  obtain ⟨hbelow, h₂⟩ := h₁.getTriggeredOrders .below m p
  refine ⟨?_, _, rfl, h₂⟩
  unfold Engine.takeTriggered
  dsimp only
  rw [habove, hbelow]

theorem activate
    {place : Engine → AccountAddress → OrderRequest → Timestamp →
      Exec (Result (Order × List Fill))}
    (hplace : ∀ {e e' : Engine} a q, e.Alike e' → Sim AlikeWith (place e a q t) (place e' a q t))
    (os : List Order) :
    Sim AlikeWith (Engine.activate place t os e) (Engine.activate place t os e') := by
  induction os generalizing e e' with
  | nil => exact .ok ⟨rfl, h⟩
  | cons o os ih =>
    refine (hplace _ _ h).bind fun x x' hx => ?_
    obtain ⟨r, e₁⟩ := x
    obtain ⟨_, e₁'⟩ := x'
    obtain ⟨rfl, h₁⟩ := hx
    refine (ih h₁).bind fun y y' hy => ?_
    obtain ⟨rest, e₂⟩ := y
    obtain ⟨_, e₂'⟩ := y'
    obtain ⟨rfl, h₂⟩ := hy
    cases r with
    | error err => exact .ok ⟨rfl, h₂⟩
    | ok placed => exact .ok ⟨rfl, h₂⟩

omit h in
theorem checkTriggersFuel (fuel : Nat) : Checks (Engine.checkTriggersFuel fuel) := by
  induction fuel with
  | zero => exact fun _ _ _ _ => .halt .diverge
  | succ fuel ih =>
    intro e e' m p t h
    obtain ⟨htaken, h₁⟩ := h.takeTriggered (m := m) (p := p)
    unfold Engine.checkTriggersFuel
    generalize e.takeTriggered m p = x at htaken h₁ ⊢
    generalize e'.takeTriggered m p = x' at htaken h₁ ⊢
    obtain ⟨taken, e₁⟩ := x
    obtain ⟨_, e₁'⟩ := x'
    obtain rfl := htaken
    have hplace : ∀ {e e' : Engine} a q, e.Alike e' →
        Sim AlikeWith (Engine.placeOrderWith (Engine.checkTriggersFuel fuel) e a q t)
          (Engine.placeOrderWith (Engine.checkTriggersFuel fuel) e' a q t) :=
      fun _ _ h => h.placeOrderWith ih
    exact Alike.activate h₁ hplace taken

theorem triggerCount : Engine.triggerCount e'.state = Engine.triggerCount e.state := by
  obtain ⟨s', rfl, hs⟩ := h
  exact hs.triggerCount

theorem checkTriggers {p : Decimal} :
    Sim AlikeWith (e.checkTriggers m p t) (e'.checkTriggers m p t) := by
  unfold Engine.checkTriggers
  rw [h.triggerCount]
  exact checkTriggersFuel _ m p t h

theorem placeOrder :
    Sim AlikeWith (e.placeOrder a request t) (e'.placeOrder a request t) := by
  unfold Engine.placeOrder
  rw [h.triggerCount]
  exact h.placeOrderWith (checkTriggersFuel _)

/-! ### Cancellation and settings -/

theorem cancelRecord (m : MarketId) (id : OrderId) (order : Order) :
    AlikeWith (e.cancelRecord m id order) (e'.cancelRecord m id order) := by
  obtain ⟨s', rfl, hs⟩ := h
  exact ⟨rfl, _, rfl, hs.removeOrder.2⟩

theorem cancelOrder {orderId : OrderId} :
    AlikeWith (e.cancelOrder a m orderId) (e'.cancelOrder a m orderId) := by
  have hrecord : ∀ order, AlikeWith (e.cancelRecord m orderId order)
      (e'.cancelRecord m orderId order) := fun _ => h.cancelRecord _ _ _
  obtain ⟨s', rfl, hs⟩ := id h
  unfold Engine.cancelOrder
  dsimp only
  rw [hs.getOrder]
  cases e.state.getOrder m orderId with
  | none => exact ⟨rfl, h⟩
  | some order =>
    dsimp only
    split
    · exact ⟨rfl, h⟩
    · exact hrecord order

theorem cancelRecords (os : List Order) :
    AlikeWith (Engine.cancelRecords m os e) (Engine.cancelRecords m os e') := by
  induction os generalizing e e' with
  | nil => exact ⟨rfl, h⟩
  | cons o os ih =>
    obtain ⟨hr, h₁⟩ := h.cancelRecord m o.id o
    unfold Engine.cancelRecords
    generalize e.cancelRecord m o.id o = x at hr h₁ ⊢
    generalize e'.cancelRecord m o.id o = x' at hr h₁ ⊢
    obtain ⟨r, e₁⟩ := x
    obtain ⟨_, e₁'⟩ := x'
    obtain rfl := hr
    cases r with
    | error err => exact ⟨rfl, h₁⟩
    | ok c =>
      obtain ⟨hrest, h₂⟩ := ih h₁
      exact ⟨congrArg (Except.map (c :: ·)) hrest, h₂⟩

theorem cancelAllOrders :
    AlikeWith (e.cancelAllOrders a m) (e'.cancelAllOrders a m) := by
  have horders : e'.state.getOrdersByAccount a m = e.state.getOrdersByAccount a m := by
    obtain ⟨s', rfl, hs⟩ := h
    exact hs.getOrdersByAccount a m
  unfold Engine.cancelAllOrders
  rw [horders]
  exact h.cancelRecords _

theorem cancelTrigger {id : OrderId} :
    (e'.state.removeTriggerOrder id).1 = (e.state.removeTriggerOrder id).1 ∧
      ({ e with state := (e.state.removeTriggerOrder id).2 } : Engine).Alike
        { e' with state := (e'.state.removeTriggerOrder id).2 } := by
  obtain ⟨s', rfl, hs⟩ := h
  exact ⟨hs.removeTriggerOrder.1, .of_state hs.removeTriggerOrder.2⟩

theorem updateLeverage {l : UInt8} :
    Sim AlikeWith (e.updateLeverage a m l) (e'.updateLeverage a m l) := by
  obtain ⟨s', rfl, hs⟩ := id h
  have hset : ({ e with state := e.state.setLeverage a m l } : Engine).Alike
      { e with state := s'.setLeverage a m l } := .of_state hs.setLeverage
  unfold Engine.updateLeverage
  dsimp only
  rw [hs.getMarket, hs.getPosition, hs.getAccount]
  cases e.state.getMarket m with
  | none => exact .ok ⟨rfl, h⟩
  | some market =>
    dsimp only
    split
    · exact .ok ⟨rfl, h⟩
    · cases e.state.getPosition a m with
      | none => exact .ok ⟨rfl, hset⟩
      | some p =>
        dsimp only
        split
        · exact .ok ⟨rfl, hset⟩
        · cases e.state.getAccount a with
          | none => exact .ok ⟨rfl, h⟩
          | some acc =>
            refine .bind_same _ fun r => ?_
            cases r with
            | error err => exact .ok ⟨rfl, h⟩
            | ok u => exact .ok ⟨rfl, hset⟩

theorem setMarginMode {mode : MarginMode} :
    AlikeWith (e.setMarginMode a mode) (e'.setMarginMode a mode) := by
  obtain ⟨s', rfl, hs⟩ := id h
  unfold Engine.setMarginMode
  dsimp only
  rw [hs.getAllPositions]
  split
  · exact ⟨rfl, h⟩
  · exact ⟨rfl, .of_state hs.setMarginMode⟩

/-! ### Funding -/

theorem settleMarket {rates : List (MarketId × Decimal)} :
    Sim AlikeWith (Engine.settleMarket t (rates, e) m) (Engine.settleMarket t (rates, e') m) := by
  obtain ⟨s', rfl, hs⟩ := id h
  unfold Engine.settleMarket
  dsimp only
  rw [hs.getMarket]
  cases e.state.getMarket m with
  | none => exact .ok ⟨rfl, h⟩
  | some market =>
    dsimp only
    split
    · refine .bind_same _ fun rate => ?_
      exact (h.onState fun _ _ hs => hs.modifyMarket).bind fun _ _ h₁ => .ok ⟨rfl, h₁⟩
    · exact .ok ⟨rfl, h⟩

theorem settleAccount {rate accumulator : Decimal} :
    Sim Alike (Engine.settleAccount m rate accumulator t e a)
      (Engine.settleAccount m rate accumulator t e' a) := by
  obtain ⟨s', rfl, hs⟩ := id h
  unfold Engine.settleAccount
  dsimp only
  rw [hs.getPosition]
  cases e.state.getPosition a m with
  | none => exact .ok h
  | some p =>
    dsimp only
    split
    · exact .ok h
    · refine .bind_same _ fun settled => ?_
      obtain ⟨payment, p'⟩ := settled
      dsimp only
      split
      · exact .ok (.of_state hs.setPosition)
      · refine .bind_same _ fun paymentAbs => .bind_same _ fun unified => ?_
        refine hs.setPosition.modifyAccount.bind fun u u' hu => .ok ?_
        exact ⟨_, rfl, hu.recordFundingPayment⟩

theorem holders : Engine.holders e'.state m = Engine.holders e.state m := by
  obtain ⟨s', rfl, hs⟩ := h
  unfold Engine.holders
  dsimp only
  rw [hs.positions]

theorem settleHolders {marketRate : MarketId × Decimal} :
    Sim Alike (Engine.settleHolders t e marketRate) (Engine.settleHolders t e' marketRate) := by
  have hmarket : e'.state.getMarket marketRate.1 = e.state.getMarket marketRate.1 := by
    obtain ⟨s', rfl, hs⟩ := h
    exact hs.getMarket _
  unfold Engine.settleHolders
  rw [hmarket, h.holders]
  cases e.state.getMarket marketRate.1 with
  | none => exact .ok h
  | some market =>
    refine Sim.bind (R := Alike) (Sim.foldlM _ h fun _ _ _ _ h => h.settleAccount)
      fun e₁ e₁' h₁ => .ok ?_
    obtain ⟨s₁', rfl, hs₁⟩ := h₁
    exact .of_state hs₁.recordMarketFunding

theorem processFunding : Sim AlikeWith (e.processFunding t) (e'.processFunding t) := by
  have hids : e'.state.getMarketIds = e.state.getMarketIds := by
    obtain ⟨s', rfl, hs⟩ := h
    unfold EngineState.getMarketIds
    dsimp only
    rw [hs.markets]
  unfold Engine.processFunding
  rw [hids]
  have hstart : AlikeWith (([] : List (MarketId × Decimal)), e) ([], e') := ⟨rfl, h⟩
  refine Sim.bind (R := AlikeWith) (Sim.foldlM _ hstart fun m _ x x' hx => ?_)
    fun x x' hx => ?_
  · obtain ⟨rates, e₁⟩ := x
    obtain ⟨_, e₁'⟩ := x'
    obtain ⟨rfl, h₁⟩ := hx
    exact h₁.settleMarket
  · obtain ⟨rates, e₁⟩ := x
    obtain ⟨_, e₁'⟩ := x'
    obtain ⟨rfl, h₁⟩ := hx
    exact Sim.bind (R := Alike) (Sim.foldlM _ h₁ fun _ _ _ _ h => h.settleHolders)
      fun _ _ h₂ => .ok ⟨rfl, h₂⟩

/-! ### Liquidation -/

theorem findUnderwaterAccounts :
    Engine.findUnderwaterAccounts ord e' = Engine.findUnderwaterAccounts ord e := by
  obtain ⟨s', rfl, hs⟩ := h
  have hcandidates : candidates ord s' = candidates ord e.state := by
    unfold candidates
    rw [hs.accounts, funext hs.getAllPositions, funext hs.getMarket]
  have hconfirm : confirm ord s' = confirm ord e.state := by
    unfold confirm flagged
    rw [funext hs.getAllPositions, funext hs.getMarket, funext hs.getAccount,
      funext hs.getMarginMode]
  unfold Engine.findUnderwaterAccounts
  dsimp only
  rw [hcandidates, hconfirm]

theorem adlCandidates :
    Engine.adlCandidates ord e' m = Engine.adlCandidates ord e m := by
  obtain ⟨s', rfl, hs⟩ := h
  unfold Engine.adlCandidates
  dsimp only
  rw [hs.positions, hs.getMarket, funext fun a => funext (hs.getLeverage a)]

theorem triggerAdl {deficit price : Decimal} :
    Sim Alike (Engine.triggerAdl ord e m deficit price)
      (Engine.triggerAdl ord e' m deficit price) := by
  unfold Engine.triggerAdl
  rw [h.adlCandidates]
  refine .bind_same _ fun counters => ?_
  obtain ⟨s', rfl, hs⟩ := h
  refine (Sim.foldlM (R := fun x x' => x'.2 = x.2 ∧ x.1.Alike x'.1) _ ⟨rfl, hs⟩ ?_).bind
    fun x x' hx => .ok (.of_state hx.2)
  intro counter _ x x' hx
  obtain ⟨s₁, deficit⟩ := x
  obtain ⟨s₁', _⟩ := x'
  obtain ⟨rfl, h₁⟩ := hx
  unfold deleverage
  dsimp only
  rw [h₁.getPosition]
  split
  · exact .ok ⟨rfl, h₁⟩
  · cases s₁.getPosition counter.1 m with
    | none => exact .ok ⟨rfl, h₁⟩
    | some pos =>
      dsimp only
      split
      · exact .ok ⟨rfl, h₁⟩
      · refine .bind_same _ fun notional => .bind_same _ fun notionalUsdc => ?_
        split
        · exact .ok ⟨rfl, h₁⟩
        · refine .bind_same _ fun _ => .bind_same _ fun _ => .bind_same _ fun _ =>
            .bind_same _ fun adlSize => ?_
          split
          · exact .ok ⟨rfl, h₁⟩
          · exact h₁.modifyPosition.bind fun _ _ h₂ => .bind_same _ fun _ => .ok ⟨rfl, h₂⟩

theorem settleResidual {bankruptcy size price : Decimal} {isBuy : Bool} :
    Sim Alike (Engine.settleResidual ord e m bankruptcy size price isBuy)
      (Engine.settleResidual ord e' m bankruptcy size price isBuy) := by
  refine .bind_same _ fun residual => ?_
  dsimp only
  split
  · exact h.onState fun _ _ hs => hs.addToInsuranceFund
  · split
    · refine .bind_same _ fun deficit => ?_
      obtain ⟨s', rfl, hs⟩ := id h
      refine hs.useInsuranceFund.bind fun x x' hx => ?_
      obtain ⟨covered, s₁⟩ := x
      obtain ⟨_, s₁'⟩ := x'
      obtain ⟨rfl, h₁⟩ := hx
      dsimp only
      split
      · exact .ok (.of_state h₁)
      · exact h.triggerAdl
    · exact .ok h

theorem applyLiquidation {size price : Decimal} :
    Sim Alike (Engine.applyLiquidation ord e a m size price)
      (Engine.applyLiquidation ord e' a m size price) := by
  obtain ⟨s', rfl, hs⟩ := id h
  unfold Engine.applyLiquidation
  dsimp only
  rw [hs.getPosition, hs.getBalance]
  cases e.state.getPosition a m with
  | none => exact .ok h
  | some p =>
    refine .bind_same _ fun bankruptcy => ?_
    refine Sim.bind (R := Alike) ?_ fun e₁ e₁' h₁ => ?_
    · cases bankruptcy with
      | none => exact .ok h
      | some b => exact h.settleResidual
    · obtain ⟨s₁', rfl, hs₁⟩ := h₁
      exact hs₁.modifyPosition.bind fun _ _ ht =>
        .ok (.of_state ht.cancelTriggerOrdersForPosition)

theorem liquidate {done : Liquidations} {pair : AccountAddress × MarketId} :
    Sim AlikeWith (Engine.liquidate ord (done, e) pair)
      (Engine.liquidate ord (done, e') pair) := by
  obtain ⟨s', rfl, hs⟩ := id h
  unfold Engine.liquidate
  dsimp only
  rw [hs.getMarket, hs.getPosition]
  cases e.state.getMarket pair.2 with
  | none => exact .ok ⟨rfl, h⟩
  | some market =>
    cases e.state.getPosition pair.1 pair.2 with
    | none => exact .ok ⟨rfl, h⟩
    | some position =>
      refine .bind_same _ fun r => ?_
      cases r with
      | none => exact .ok ⟨rfl, h⟩
      | some sized => exact h.applyLiquidation.bind fun _ _ h₁ => .ok ⟨rfl, h₁⟩

theorem processLiquidations :
    Sim AlikeWith (Engine.processLiquidations ord e) (Engine.processLiquidations ord e') := by
  unfold Engine.processLiquidations
  rw [h.findUnderwaterAccounts]
  refine .bind_same _ fun underwater => ?_
  refine Sim.foldlM (R := AlikeWith) _ ⟨rfl, h⟩ fun pair _ x x' hx => ?_
  obtain ⟨done, e₁⟩ := x
  obtain ⟨_, e₁'⟩ := x'
  obtain ⟨rfl, h₁⟩ := hx
  exact h₁.liquidate

end Alike

/-! ### Operations -/

/-- What an operation returns. -/
inductive Outcome
  | placed (r : Except Error (Order × List Fill))
  | canceled (r : Except Error Order)
  | canceledAll (r : Except Error (List Order))
  | triggered (placed : Triggered)
  | triggerCanceled (order : Option Order)
  | updated (r : Except Error Unit)
  | funded (rates : List (MarketId × Decimal))
  | liquidated (done : Liquidations)
  | withdrawn (done : Bool)
  | done

/-- One operation, with what it returns. -/
def perform : Op → Engine → Exec (Outcome × Engine)
  | .placeOrder a q t, e => do
    let (r, e) ← e.placeOrder a q t
    return (.placed r, e)
  | .cancelOrder a m i, e => return (.canceled (e.cancelOrder a m i).1, (e.cancelOrder a m i).2)
  | .cancelAllOrders a m, e =>
    return (.canceledAll (e.cancelAllOrders a m).1, (e.cancelAllOrders a m).2)
  | .checkTriggers m p t, e => do
    let (placed, e) ← e.checkTriggers m p t
    return (.triggered placed, e)
  | .cancelTrigger i, e =>
    return (.triggerCanceled (e.state.removeTriggerOrder i).1,
      { e with state := (e.state.removeTriggerOrder i).2 })
  | .updateLeverage a m l, e => do
    let (r, e) ← e.updateLeverage a m l
    return (.updated r, e)
  | .setMarginMode a mode, e =>
    return (.updated (e.setMarginMode a mode).1, (e.setMarginMode a mode).2)
  | .processFunding t, e => do
    let (rates, e) ← e.processFunding t
    return (.funded rates, e)
  | .processLiquidations ord, e => do
    let (done, e) ← e.processLiquidations ord
    return (.liquidated done, e)
  | .deposit a n, e => do
    let e ← e.onState (·.deposit a n)
    return (.done, e)
  | .withdraw a n, e => do
    let (done, s) ← e.state.withdraw a n
    return (.withdrawn done, { e with state := s })
  | .setUnified u, e => return (.done, { e with unifiedState := e.unifiedState.map fun _ => u })

/-- **Operations.** Alike engines return the same and stay alike. -/
theorem Alike.perform {e e' : Engine} (h : e.Alike e') (op : Op) :
    Sim AlikeWith (perform op e) (perform op e') := by
  cases op with
  | placeOrder a q t =>
    exact h.placeOrder.bind fun _ _ hx => .ok ⟨congrArg Outcome.placed hx.1, hx.2⟩
  | cancelOrder a m i =>
    exact .ok ⟨congrArg Outcome.canceled h.cancelOrder.1, h.cancelOrder.2⟩
  | cancelAllOrders a m =>
    exact .ok ⟨congrArg Outcome.canceledAll h.cancelAllOrders.1, h.cancelAllOrders.2⟩
  | checkTriggers m p t =>
    exact h.checkTriggers.bind fun _ _ hx => .ok ⟨congrArg Outcome.triggered hx.1, hx.2⟩
  | cancelTrigger i =>
    exact .ok ⟨congrArg Outcome.triggerCanceled h.cancelTrigger.1.symm, h.cancelTrigger.2⟩
  | updateLeverage a m l =>
    exact h.updateLeverage.bind fun _ _ hx => .ok ⟨congrArg Outcome.updated hx.1, hx.2⟩
  | setMarginMode a mode =>
    exact .ok ⟨congrArg Outcome.updated h.setMarginMode.1, h.setMarginMode.2⟩
  | processFunding t =>
    exact h.processFunding.bind fun _ _ hx => .ok ⟨congrArg Outcome.funded hx.1, hx.2⟩
  | processLiquidations ord =>
    exact h.processLiquidations.bind fun _ _ hx => .ok ⟨congrArg Outcome.liquidated hx.1, hx.2⟩
  | deposit a n =>
    exact (h.onState fun _ _ hs => hs.deposit).bind fun _ _ h₁ => .ok ⟨rfl, h₁⟩
  | withdraw a n =>
    obtain ⟨s', rfl, hs⟩ := h
    exact hs.withdraw.bind fun _ _ hx => .ok ⟨congrArg Outcome.withdrawn hx.1, .of_state hx.2⟩
  | setUnified u =>
    obtain ⟨s', rfl, hs⟩ := h
    exact .ok ⟨rfl, s', rfl, hs⟩

/-- Some operations, with what they return. -/
def performAll : List Op → Engine → Exec (List Outcome × Engine)
  | [], e => return ([], e)
  | op :: ops, e => do
    let (r, e) ← perform op e
    let (rs, e) ← performAll ops e
    return (r :: rs, e)

/-- **Sequences of operations.** Alike engines return the same for every later sequence. -/
theorem Alike.performAll {e e' : Engine} (h : e.Alike e') (ops : List Op) :
    Sim AlikeWith (performAll ops e) (performAll ops e') := by
  induction ops generalizing e e' with
  | nil => exact .ok ⟨rfl, h⟩
  | cons op ops ih =>
    refine (h.perform op).bind fun x x' hx => (ih hx.2).bind fun y y' hy => .ok ⟨?_, hy.2⟩
    rw [hx.1, hy.1]

end Engine

end Hypercore
